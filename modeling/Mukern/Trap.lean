import Mukern.Ipc

/-! `arch/x86_64/trap/trap.c`: the system calls, the page-fault path and the
interrupt notification. Console output and the PIC are left out: no modelled
function reads them. -/
namespace Mukern

/- What the handler reads from the machine besides the registers: the fault
address, the value on the port, and the bytes that happen to lie on the kernel
stack where an `ipc_msg` local is not initialised. -/
structure Hardware where
  cr2 : Word
  port : BitVec 16
  junk : IpcMsg
  deriving DecidableEq, Repr

namespace Kernel

def ipcSendAllowed (k : Kernel) (self : Slot) (dest : Int) : Bool :=
  if tid self = 0 || dest = 0 then true
  else if (k.threads self).ctable.hasEndpoint dest then true
  else
    match threadById dest with
    | none => false
    | some d =>
      if (k.threads d).ipcCallTo = tid self then true
      else (k.threads d).state = .blocked && (k.threads d).ipcState = .receiving &&
        (k.threads d).ipcPeer = tid self

/- `self->state = T_DEAD; schedule();` at either of its two places. -/
def die (k : Kernel) (self : Slot) (point : Context) : Kernel :=
  ((k.upd self ({ · with state := .dead })).log (.dead self)).schedule point

def openCall (k : Kernel) (self : Slot) (dest : Int) : Kernel :=
  (k.upd self ({ · with ipcCallTo := dest })).log (.openCall self dest)

def sysSend (k : Kernel) (self : Slot) (tf : Trapframe) : Kernel :=
  let dest := cint tf.rdi
  if k.ipcSendAllowed self dest then
    let k := (k.openCall self dest).log (.copy self tf.rsi false)
    match k.memory.readMsg tf.rsi with
    | none => k.panicException
    | some m =>
      match k.ipcSendLocked self dest m .syscall with
      | (k, some r) => k.sysRet self (cword r)
      | (k, none) => k
  else k.sysRet self (cword (-1))

/- `SYS_RECV` after `ipc_recv_locked` has returned. -/
def sysRecvFinish (k : Kernel) (self : Slot) (rsi : Word) (source : Int) (m : IpcMsg) : Kernel :=
  let k := k.log (.copy self rsi true)
  match k.memory.writeMsg rsi m with
  | none => k.panicException
  | some memory =>
    let k := { k with memory := memory }
    let k := k.upd self fun t => if source = t.ipcCallTo then { t with ipcCallTo := -1 } else t
    k.sysRet self (cword source)

def sysRecv (k : Kernel) (self : Slot) (tf : Trapframe) (hw : Hardware) : Kernel :=
  match k.ipcRecvLocked self (cint tf.rdi) hw.junk (.syscall tf.rsi) with
  | (k, some (source, m)) => k.sysRecvFinish self tf.rsi source m
  | (k, none) => k

def sysSpawn (k : Kernel) (self : Slot) (tf : Trapframe) : Kernel :=
  let (k, child) := k.procSpawn (some self) (cint tf.rdi)
  let k := if 0 ≤ child then (k.capGrantEndpoint (some self) child).1 else k
  k.sysRet self (cword child)

def sysMap (k : Kernel) (self : Slot) (tf : Trapframe) : Kernel :=
  let (pmm, f) := k.memory.pmm.allocFrame
  let k := { k with memory := { k.memory with pmm := pmm } }
  if f ≠ 0 then
    let (memory, r) := k.memory.vmmMap (pageAlignDown tf.rdi) f vmUserRw
    { k with memory := memory }.sysRet self (if r = 0 then 0 else cword (-1))
  else k.sysRet self (cword (-1))

def sysSetPager (k : Kernel) (self : Slot) : Kernel :=
  ({ k with pagerTid := tid self }.log (.setPager self)).sysRet self 0

/- `SYS_OUTB`, `SYS_INB` and `SYS_INW` differ in what reaches `rax`. -/
def sysPort (k : Kernel) (self : Slot) (tf : Trapframe) (result : Word) : Kernel :=
  let port : BitVec 16 := tf.rdi.setWidth 16
  if (k.threads self).ctable.hasPort port then (k.log (.portIo self port)).sysRet self result
  else k.sysRet self (cword (-1))

def sysGrantIo (k : Kernel) (self : Slot) (tf : Trapframe) : Kernel :=
  if tid self ≠ 0 then k.sysRet self (cword (-1))
  else
    let (k, r) := k.capGrantIo (threadById (cint tf.rdi)) (tf.rsi.setWidth 16) (tf.rdx.setWidth 16)
    k.sysRet self (cword r)

def sysTinfo (k : Kernel) (self : Slot) (tf : Trapframe) : Kernel :=
  k.sysRet self <|
    match threadById (cint tf.rdi) with
    | some t => cword (k.threads t).state.code
    | none => cword (-1)

def sysIrqRegister (k : Kernel) (self : Slot) (tf : Trapframe) : Kernel :=
  let irq := cint tf.rdi
  if h : 0 ≤ irq ∧ irq < 16 then
    let line : Fin 16 := ⟨irq.toNat, by omega⟩
    let k := { k with
      irqTid := fun n => if n = line then tid self else k.irqTid n
      irqMask := k.irqMask &&& ~~~((1 : BitVec 16) <<< line.val) }
    (k.log (.irqRegister self line)).sysRet self 0
  else k.sysRet self (cword (-1))

def sysMapPhys (k : Kernel) (self : Slot) (tf : Trapframe) : Kernel :=
  if tid self ≠ 0 then k.sysRet self (cword (-1))
  else
    let (memory, r) := k.memory.vmmMap tf.rdi tf.rsi vmUserRw
    { k with memory := memory }.sysRet self (cword r)

def sysGrantCap (k : Kernel) (self : Slot) (tf : Trapframe) : Kernel :=
  let ep := cint tf.rsi
  if tid self ≠ 0 ∧ ¬ (k.threads self).ctable.hasEndpoint ep then k.sysRet self (cword (-1))
  else
    let (k, r) := k.capGrantEndpoint (threadById (cint tf.rdi)) ep
    k.sysRet self (cword r)

def doSyscall (k : Kernel) (self : Slot) (tf : Trapframe) (hw : Hardware) : Kernel :=
  let k := k.log (.syscall self tf)
  match Syscall.ofRax tf.rax with
  | .putc => k.sysRet self 0
  | .exit => k.die self .exited
  | .gettid => k.sysRet self (cword (tid self))
  | .send => k.sysSend self tf
  | .recv => k.sysRecv self tf hw
  | .spawn => k.sysSpawn self tf
  | .map => k.sysMap self tf
  | .setPager => k.sysSetPager self
  | .outb => k.sysPort self tf 0
  | .inb => k.sysPort self tf ((hw.port.setWidth 8).setWidth 64)
  | .inw => k.sysPort self tf (hw.port.setWidth 64)
  | .grantIo => k.sysGrantIo self tf
  | .uptime => k.sysRet self k.ticks
  | .meminfo =>
    k.sysRet self (BitVec.ofNat 64
      (if tf.rdi ≠ 0 then k.memory.pmm.totalFrames else k.memory.pmm.freeFrames))
  | .tinfo => k.sysTinfo self tf
  | .irqRegister => k.sysIrqRegister self tf
  | .mapPhys => k.sysMapPhys self tf
  | .grantCap => k.sysGrantCap self tf
  | .invalid => k.sysRet self (cword (-1))

def faultMsg (self : Slot) (addr : Word) : IpcMsg := ⟨msgFault, cword (tid self), addr, 0⟩

/- The verdict of the pager: 0 retries the instruction, anything else kills. -/
def faultVerdict (k : Kernel) (self : Slot) (reply : IpcMsg) : Kernel :=
  let k := k.log (.faultEnd self reply)
  if reply.data0 ≠ 0 then k.die self .killed else k

/- The second half of the forwarded fault; `g_pager_tid` is read again. -/
def faultRecv (k : Kernel) (self : Slot) (junk : IpcMsg) : Kernel :=
  match k.ipcRecvLocked self k.pagerTid junk .fault with
  | (k, some (_, reply)) => k.faultVerdict self reply
  | (k, none) => k

/- The result of the send is ignored. -/
def faultForward (k : Kernel) (self : Slot) (hw : Hardware) : Kernel :=
  let k := k.log (.fault self hw.cr2 k.pagerTid)
  match k.ipcSendLocked self k.pagerTid (faultMsg self hw.cr2) .fault with
  | (k, some _) => k.faultRecv self hw.junk
  | (k, none) => k

def fromUser (tf : Trapframe) : Bool := tf.cs &&& 3 = 3

def pageFault (k : Kernel) (tf : Trapframe) (hw : Hardware) : Kernel :=
  match k.current with
  | none => k.panicException
  | some self =>
    if fromUser tf && 0 ≤ k.pagerTid && tid self ≠ k.pagerTid then k.faultForward self hw
    else k.panicException

/- Bump the count of the registered driver and wake it if it waits in a receive. -/
def irqNotify (k : Kernel) (line : Fin 16) : Kernel :=
  match threadById (k.irqTid line) with
  | none => k
  | some d =>
    if (k.threads d).state ≠ .unused ∧ (k.threads d).state ≠ .dead then
      (k.upd d fun t =>
        let t := { t with irqPending := t.irqPending + 1 }
        if t.state = .blocked ∧ t.ipcState = .receiving then threadWake t else t).log (.irqPost line d)
    else k

def timerTick (k : Kernel) : Kernel := { k with ticks := k.ticks + 1 }.schedule .tick

def vecIrqBase : Nat := 32
def vecTimer : Nat := 32
def vecPf : Nat := 14
def syscallVector : Nat := 0x80

def isrHandler (k : Kernel) (tf : Trapframe) (hw : Hardware) : Kernel :=
  if tf.vec = vecTimer then k.timerTick
  else if tf.vec = syscallVector then
    match k.current with
    | none => k          -- the idle loop executes no `int 0x80`
    | some self => k.doSyscall self tf hw
  else if tf.vec = vecPf then k.pageFault tf hw
  else if tf.vec < vecIrqBase then k.panicException
  else if h : tf.vec - vecIrqBase < 16 then k.irqNotify ⟨tf.vec - vecIrqBase, h⟩
  else k

/- The thread is on the CPU again: nothing of it is saved. -/
def onCpu (k : Kernel) (i : Slot) : Kernel :=
  { k.upd i ({ · with saved := .running }) with mode := .user }

/- `context_switch` has returned into `current`. A dead thread would fall out of
its system call here. -/
def resume (k : Kernel) (junk : IpcMsg) : Kernel :=
  match k.current with
  | none => { k with mode := .user }
  | some i =>
    let k' := k.onCpu i
    match (k.threads i).saved with
    | .send caller =>
      let k' := k'.ipcSendResume i
      match caller with
      | .syscall => k'.sysRet i (cword 0)
      | .fault => k'.faultRecv i junk
    | .recv caller =>
      let (k', source, m) := k'.ipcRecvResume i junk
      match caller with
      | .syscall rsi => k'.sysRecvFinish i rsi source m
      | .fault => k'.faultVerdict i m
    | .vacant | .running | .trampoline _ | .tick | .exited | .killed => k'

end Kernel
end Mukern
