import Mukern.Paging

/-! The kernel's own data: the thread table of `sched.h`, the routing tables of
`trap.c` and the memory. A kernel stack that waits in `context_switch` is
represented by the point where it continues (`Context`), in the place of `rsp`. -/
namespace Mukern

/- Who called `ipc_send_locked`. -/
inductive SendCaller where
  | syscall
  | fault
  deriving DecidableEq, Repr

/- Who called `ipc_recv_locked`; `SYS_RECV` still needs its buffer pointer. -/
inductive RecvCaller where
  | syscall (rsi : Word)
  | fault
  deriving DecidableEq, Repr

inductive Context where
  | vacant                       -- no stack was ever planted
  | running                      -- on the CPU, nothing saved
  | trampoline (prog : Fin 12)   -- the fresh stack of `thread_create`
  | tick                         -- preempted by the timer
  | send (caller : SendCaller)   -- in `ipc_send_locked`, after `schedule()`
  | recv (caller : RecvCaller)   -- in `ipc_recv_locked`, after `schedule()`
  | exited                       -- in `SYS_EXIT`, after `schedule()`
  | killed                       -- in the page-fault path, after `schedule()`
  deriving DecidableEq, Repr

structure Thread where
  saved : Context
  state : ThreadState
  kstackTop : Word
  ipcState : IpcState
  ipcPeer : Int
  ipcCallTo : Int
  ipcFrom : Int
  irqPending : Nat
  ipcBuf : IpcMsg
  ctable : CTable

/- The part of the register snapshot that the kernel reads. -/
structure Trapframe where
  vec : Nat
  cs : Word
  rax : Word
  rdi : Word
  rsi : Word
  rdx : Word
  deriving DecidableEq, Repr

/- History of the run. Nothing in the kernel reads it: it is written where the
corresponding statement of the source executes, so that statements about runs
can name calls, hand-overs and creations. -/
inductive Event where
  | syscall (i : Slot) (tf : Trapframe)
  | sysRet (i : Slot) (rax : Word)
  | openCall (s : Slot) (dest : Int)
  | sendCall (s : Slot) (dest : Int) (m : IpcMsg)
  | sendRet (s : Slot) (r : Int)
  | recvCall (d : Slot) (src : Int)
  | recvRet (d : Slot) (r : Int) (m : IpcMsg)
  | handOver (s d : Slot)
  | create (i : Slot) (parent : Option Slot) (prog : Fin 12)
  | dead (i : Slot)
  | grantEndpoint (t : Slot) (target : Int)
  | grantIo (t : Slot) (base len : BitVec 16)
  | setPager (i : Slot)
  | irqRegister (i : Slot) (line : Fin 16)
  | irqPost (line : Fin 16) (d : Slot)
  | fault (f : Slot) (addr : Word) (pager : Int)
  | faultEnd (f : Slot) (reply : IpcMsg)
  | portIo (i : Slot) (port : BitVec 16)
  | copy (i : Slot) (va : Word) (write : Bool)
  deriving DecidableEq, Repr

/- `user` is Ring 3 code of the current thread (or the kernel working for it),
or the idle loop; `resume` is the moment after `context_switch` when the saved
context of `current` has yet to continue; `halted` is `panic_exception`. -/
inductive Mode where
  | user
  | resume
  | halted
  deriving DecidableEq, Repr

structure Kernel where
  threads : Slot → Thread
  current : Option Slot      -- `none` is the idle thread
  mode : Mode
  rsp0 : Word                -- `tss.rsp0`
  pagerTid : Int
  irqTid : Fin 16 → Int
  irqMask : BitVec 16
  ticks : Word
  stackBase : Word           -- address of `stacks[0]`
  memory : Memory
  history : List Event       -- newest first

namespace Kernel

def upd (k : Kernel) (i : Slot) (f : Thread → Thread) : Kernel :=
  { k with threads := fun j => if j = i then f (k.threads i) else k.threads j }

def log (k : Kernel) (e : Event) : Kernel := { k with history := e :: k.history }

/- The system call is over: back to Ring 3 with `rax`. -/
def sysRet (k : Kernel) (i : Slot) (rax : Word) : Kernel := k.log (.sysRet i rax)

def panicException (k : Kernel) : Kernel := { k with mode := .halted }

section
variable (k : Kernel) (i j : Slot) (f : Thread → Thread) (e : Event)

@[simp] theorem updThreads : (k.upd i f).threads j = if j = i then f (k.threads i) else k.threads j := rfl
@[simp] theorem updCurrent : (k.upd i f).current = k.current := rfl
@[simp] theorem updMode : (k.upd i f).mode = k.mode := rfl
@[simp] theorem updRsp0 : (k.upd i f).rsp0 = k.rsp0 := rfl
@[simp] theorem updPagerTid : (k.upd i f).pagerTid = k.pagerTid := rfl
@[simp] theorem updIrqTid : (k.upd i f).irqTid = k.irqTid := rfl
@[simp] theorem updMemory : (k.upd i f).memory = k.memory := rfl
@[simp] theorem updStackBase : (k.upd i f).stackBase = k.stackBase := rfl
@[simp] theorem updHistory : (k.upd i f).history = k.history := rfl

@[simp] theorem logThreads : (k.log e).threads = k.threads := rfl
@[simp] theorem logCurrent : (k.log e).current = k.current := rfl
@[simp] theorem logMode : (k.log e).mode = k.mode := rfl
@[simp] theorem logRsp0 : (k.log e).rsp0 = k.rsp0 := rfl
@[simp] theorem logPagerTid : (k.log e).pagerTid = k.pagerTid := rfl
@[simp] theorem logIrqTid : (k.log e).irqTid = k.irqTid := rfl
@[simp] theorem logMemory : (k.log e).memory = k.memory := rfl
@[simp] theorem logStackBase : (k.log e).stackBase = k.stackBase := rfl
@[simp] theorem logHistory : (k.log e).history = e :: k.history := rfl

end

end Kernel
end Mukern
