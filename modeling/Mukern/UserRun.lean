import Mukern.Coherence
import Mukern.UserCode

/-! The booted system: the kernel, and the program that runs in every slot. A step
is one call of the current thread, a choice its program leaves open, an interrupt,
or the return of a context switch. Messages go by value; everything else is the
kernel's own handler. -/
namespace Mukern
open Kernel

namespace Kernel

/- `SYS_SEND` of the message that the caller's buffer holds. -/
def sendValue (k : Kernel) (self : Slot) (tf : Trapframe) (m : IpcMsg) : Kernel × Option Int :=
  let k := k.log (.syscall self tf)
  let dest := cint tf.rdi
  if k.ipcSendAllowed self dest then
    match ((k.openCall self dest).log (.copy self tf.rsi false)).ipcSendLocked self dest m .syscall with
    | (k, some r) => (k.sysRet self (cword r), some r)
    | (k, none) => (k, none)
  else (k.sysRet self (cword (-1)), some (-1))

/- `SYS_RECV` after `ipc_recv_locked` has returned; the message is the result. -/
def recvReturn (k : Kernel) (self : Slot) (rsi : Word) (source : Int) : Kernel :=
  ((k.log (.copy self rsi true)).upd self (closeCall source)).sysRet self (cword source)

def recvValue (k : Kernel) (self : Slot) (tf : Trapframe) (junk : IpcMsg) : Kernel × Option (Int × IpcMsg) :=
  match (k.log (.syscall self tf)).ipcRecvLocked self (cint tf.rdi) junk (.syscall tf.rsi) with
  | (k, some (source, m)) => (k.recvReturn self tf.rsi source, some (source, m))
  | (k, none) => (k, none)

/- By value is what the handler does, as long as the buffer holds the message. -/
theorem sysSendValue {k : Kernel} {i : Slot} {tf : Trapframe} {m : IpcMsg}
    (holds : k.memory.readMsg tf.rsi = some m) :
    (k.log (.syscall i tf)).sysSend i tf = (k.sendValue i tf m).1 := by
  have same : (((k.log (.syscall i tf)).openCall i (cint tf.rdi)).log (.copy i tf.rsi false)).memory.readMsg tf.rsi =
    some m := holds
  unfold sysSend sendValue
  dsimp only
  rw [same]
  split
  · dsimp only
    split <;> simp [*]
  · rfl

theorem sysRecvFinishValue {k : Kernel} {i : Slot} {rsi : Word} {source : Int} {m : IpcMsg} {memory : Memory}
    (written : k.memory.writeMsg rsi m = some memory) :
    k.sysRecvFinish i rsi source m = { k.recvReturn i rsi source with memory := memory } := by
  have same : (k.log (.copy i rsi true)).memory.writeMsg rsi m = some memory := written
  unfold sysRecvFinish
  dsimp only
  rw [same]
  rfl

end Kernel

def progById (id : Int) : Option (Fin 12) :=
  if h : 0 ≤ id ∧ id < 12 then some ⟨id.toNat, progInRange h⟩ else none

structure Booted where
  kernel : Kernel
  prog : Slot → Fin 12
  code : Slot → Code

inductive Act where
  | tick
  | irq (line : Fin 16)
  | resume (junk : IpcMsg)
  | run (ptr : Word) (junk : IpcMsg)   -- `ptr` is the address of the caller's `ipc_msg`
  | pick (a b : Word)
  deriving DecidableEq, Repr

namespace Code

def trapframe (rax rdi rsi rdx : Word) : Trapframe := ⟨syscallVector,Input.userCs,rax,rdi,rsi,rdx⟩

/- The registers with which the next call enters the kernel. -/
def regs (ptr : Word) : Code → Trapframe
  | .exit | .pick _ | .again _ => trapframe 0 0 0 0
  | .send dest _ _ => trapframe 2 (cword dest) ptr 0
  | .recv src _ _ => trapframe 3 (cword src) ptr 0
  | .spawn prog _ => trapframe 4 prog 0 0
  | .map va _ => trapframe 5 va 0 0
  | .setPager _ => trapframe 6 0 0 0
  | .grantIo t base len _ => trapframe 11 (cword t) (base.setWidth 64) (len.setWidth 64)
  | .irqRegister line _ => trapframe 15 (BitVec.ofNat 64 line.val) 0 0
  | .mapPhys va pa _ => trapframe 16 va pa 0
  | .grantCap t ep _ => trapframe 17 (cword t) (cword ep) 0
  | .store _ _ => ⟨vecPf,Input.userCs,0,0,0,0⟩

def isPick : Code → Bool
  | .pick _ => true
  | _ => false

end Code

namespace Booted

def goOn (s : Booted) (i : Slot) (c : Code) : Booted :=
  { s with code := fun j => if j = i then c else s.code j }

/- The thread that `proc_spawn` created stands at the entry of its program. -/
def launch (s : Booted) (child prog : Int) : Booted :=
  match threadById child, progById prog with
  | some c, some p =>
    { s with
      prog := fun j => if j = c then p else s.prog j
      code := fun j => if j = c then Code.main p else s.code j }
  | _, _ => s

/- The next call of thread `i`. -/
def call (named : Word → Word) (s : Booted) (i : Slot) (ptr : Word) (junk : IpcMsg) : Booted :=
  let tf := (s.code i).regs ptr
  let trapped := { s with kernel := s.kernel.doSyscall i tf ⟨0,0,junk⟩ }
  match s.code i with
  | .send _ m next =>
    match s.kernel.sendValue i tf m with
    | (k, some r) => { s with kernel := k }.goOn i (next r)
    | (k, none) => { s with kernel := k }
  | .recv _ _ next =>
    match s.kernel.recvValue i tf junk with
    | (k, some (source, m)) => { s with kernel := k }.goOn i (next source m)
    | (k, none) => { s with kernel := k }
  | .spawn prog next =>
    let child := ((s.kernel.log (.syscall i tf)).procSpawn (some i) (cint prog)).2
    (trapped.goOn i (next child)).launch child (cint prog)
  | .store va next =>
    if (s.kernel.memory.userAccess va true).isSome then s.goOn i next
    else { s with kernel := s.kernel.pageFault tf ⟨va,0,junk⟩ }
  | .map _ next | .setPager next | .grantIo _ _ _ next | .irqRegister _ next | .mapPhys _ _ next
  | .grantCap _ _ next => trapped.goOn i next
  | .exit => trapped
  | .again loop => s.goOn i (Code.body named loop)
  | .pick _ => s

/- `context_switch` has returned; a send or a receive of the program returns with it. -/
def resume (s : Booted) (junk : IpcMsg) : Booted :=
  match s.kernel.current with
  | none => { s with kernel := s.kernel.resume junk }
  | some i =>
    match (s.kernel.threads i).saved, s.code i with
    | .send .syscall, .send _ _ next => { s with kernel := s.kernel.resume junk }.goOn i (next 0)
    | .recv (.syscall rsi), .recv _ _ next =>
      let (k, source, m) := (s.kernel.onCpu i).ipcRecvResume i junk
      { s with kernel := k.recvReturn i rsi source }.goOn i (next source m)
    | _, _ => { s with kernel := s.kernel.resume junk }

def Enabled (s : Booted) : Act → Prop
  | .tick => s.kernel.mode = .user
  | .irq line => s.kernel.mode = .user ∧ line ≠ 0
  | .resume _ => s.kernel.mode = .resume
  | .run _ _ => s.kernel.mode = .user ∧ ∃ i ∈ s.kernel.current, (s.code i).isPick = false
  | .pick _ _ => s.kernel.mode = .user ∧ ∃ i ∈ s.kernel.current, (s.code i).isPick = true

instance (s : Booted) (act : Act) : Decidable (s.Enabled act) := by
  cases act <;> unfold Enabled <;> infer_instance

def step (named : Word → Word) (s : Booted) : Act → Booted
  | .tick => { s with kernel := s.kernel.timerTick }
  | .irq line => { s with kernel := s.kernel.irqNotify line }
  | .resume junk => s.resume junk
  | .run ptr junk =>
    match s.kernel.current with
    | none => s
    | some i => s.call named i ptr junk
  | .pick a b =>
    match s.kernel.current with
    | none => s
    | some i =>
      match s.code i with
      | .pick next => s.goOn i (next a b)
      | _ => s

/- `kmain` has created init and enables interrupts. -/
def start (memory : Memory) (stackBase : Word) : Booted :=
  ⟨boot memory stackBase,fun _ => progInit,fun _ => Code.main progInit⟩

end Booted

/- The system whose shells ask for `named arg` where the source has `PROG_HELLO`. -/
def bootedWith (named : Word → Word) : Transition.System Booted Act where
  start s := ∃ memory stackBase, s = Booted.start memory stackBase
  enabled := Booted.Enabled
  next := Booted.step named

def booted : Transition.System Booted Act := bootedWith fun _ => BitVec.ofNat 64 progHello.val

/-! Every step is made of the moves of the kernel, so what the kernel keeps in all
its runs it keeps here. -/

section
variable {k k₀ k' : Kernel} {i : Slot} {input : Input} {tf : Trapframe} {m junk : IpcMsg} {named : Word → Word}

theorem movesSendValue (acting : Acting k₀ i) (call : IsCall input .send tf) :
    Moves k₀ input k₀ (k₀.sendValue i tf m).1 := by
  have entered : Moves k₀ input k₀ (k₀.log (.syscall i tf)) := .single (.enter acting)
  unfold sendValue
  dsimp only
  split
  · rename_i allowed
    have opened := entered.tail (.openCall acting allowed)
    have copied := opened.tail (.copy acting (copiedSend acting call allowed))
    have acting' : Acting (((k₀.log (.syscall i tf)).openCall i (cint tf.rdi)).log (.copy i tf.rsi false)) i := acting
    have called : ((((k₀.log (.syscall i tf)).openCall i (cint tf.rdi)).log
        (.copy i tf.rsi false)).threads i).ipcCallTo = cint tf.rdi := by
      simp [openCall]
    have sent := copied.tail (.send (m := m) acting called)
    split
    · rename_i k' r result
      rw [result] at sent
      exact sent.tail (.leave (actingSend acting' result))
    · rename_i k' result
      rwa [result] at sent
  · exact entered.tail (.leave acting)

theorem movesRecvReturn {rsi source} (acting : Acting k i) (moves : Moves k₀ input k₀ k)
    (buffer : copied k₀ input = some (rsi,true)) : Moves k₀ input k₀ (k.recvReturn i rsi source) := by
  have copied := moves.tail (.copy acting buffer)
  have closed := copied.tail (.closeCall source acting)
  exact closed.tail (.leave (actingUpd acting))

theorem movesRecvValue {hw : Hardware} (acting : Acting k₀ i) (vec : tf.vec = syscallVector)
    (number : Syscall.ofRax tf.rax = .recv) :
    Moves k₀ (.trap tf hw) k₀ (k₀.recvValue i tf hw.junk).1 := by
  have entered : Moves k₀ (.trap tf hw) k₀ (k₀.log (.syscall i tf)) := .single (.enter acting)
  have acting' : Acting (k₀.log (.syscall i tf)) i := acting
  have received := entered.tail (.recv (cint tf.rdi) hw.junk tf.rsi acting')
  unfold recvValue
  split
  · rename_i k' source m result
    have returned : k₀.received i (cint tf.rdi) hw.junk = some m := by
      have same := recvReceived (k₀.log (.syscall i tf)) i (cint tf.rdi) hw.junk (.syscall tf.rsi)
      rw [result] at same
      exact same.symm
    rw [result] at received
    exact movesRecvReturn (actingRecv acting' result) received (copiedRecv acting vec number (by simp [returned]))
  · rename_i k' result
    rwa [result] at received

theorem movesResumeValue {s : Booted} (mode : s.kernel.mode = .resume) :
    Moves s.kernel (.resume junk) s.kernel (s.resume junk).kernel := by
  unfold Booted.resume
  split
  · exact movesResume mode
  · rename_i i current
    split
    · exact movesResume mode
    · rename_i rsi next saved code
      have received : Moves s.kernel (.resume junk) s.kernel _ := .single (.resumeRecv junk mode current saved)
      have acting : Acting ((s.kernel.onCpu i).ipcRecvResume i junk).1 i := by
        unfold ipcRecvResume; dsimp only; split <;> exact ⟨rfl,current⟩
      exact movesRecvReturn acting received (copiedResume current saved)
    · exact movesResume mode

/- The trap with which the next call enters the kernel. -/
def Code.trap (c : Code) (ptr : Word) (junk : IpcMsg) : Input :=
  match c with
  | .store va _ => .trap (c.regs ptr) ⟨va,0,junk⟩
  | _ => .trap (c.regs ptr) ⟨0,0,junk⟩

theorem launchKernel {s : Booted} {child prog : Int} : (s.launch child prog).kernel = s.kernel := by
  unfold Booted.launch
  split <;> rfl

theorem movesCall {s : Booted} {ptr : Word} (acting : Acting s.kernel i) :
    Moves s.kernel ((s.code i).trap ptr junk) s.kernel (s.call named i ptr junk).kernel := by
  unfold Booted.call
  dsimp only
  cases code : s.code i with
  | send dest m next =>
    have sent : Moves s.kernel ((Code.send dest m next).trap ptr junk) s.kernel
        (s.kernel.sendValue i ((Code.send dest m next).regs ptr) m).1 :=
      movesSendValue acting ⟨⟨0,0,junk⟩,rfl,rfl,rfl⟩
    dsimp only
    split <;> rename_i result <;> rwa [result] at sent
  | recv src answering next =>
    let hw : Hardware := ⟨0,0,junk⟩
    have received : Moves s.kernel (.trap ((Code.recv src answering next).regs ptr) hw) s.kernel
        (s.kernel.recvValue i ((Code.recv src answering next).regs ptr) hw.junk).1 := movesRecvValue acting rfl rfl
    dsimp only
    split <;> rename_i result <;> rwa [result] at received
  | spawn prog next =>
    rw [launchKernel]
    exact movesSyscall acting rfl rfl
  | store va next =>
    dsimp only
    split
    · exact .refl
    · exact movesPageFault acting.1 rfl
  | again loop | pick next => exact .refl
  | _ => exact movesSyscall acting rfl rfl

/- The trap, or the return of the switch, that a step stands for. -/
def Booted.trapOf (s : Booted) : Act → Input
  | .tick | .pick _ _ => .tick
  | .irq line => .irq line.val
  | .resume junk => .resume junk
  | .run ptr junk => (s.kernel.current.map fun i => (s.code i).trap ptr junk).getD .tick

theorem bootedMoves {s : Booted} {act : Act} (enabled : s.Enabled act) :
    Moves s.kernel (s.trapOf act) s.kernel (s.step named act).kernel := by
  cases act with
  | tick => exact .single (.tick enabled)
  | irq line => exact .single (.irq enabled.1 rfl rfl)
  | resume junk => exact movesResumeValue enabled
  | run ptr junk =>
    obtain ⟨user,i,current,_⟩ := enabled
    have current : s.kernel.current = some i := current
    unfold Booted.step Booted.trapOf
    rw [current]
    exact movesCall ⟨user,current⟩
  | pick a b =>
    obtain ⟨user,i,current,_⟩ := enabled
    have current : s.kernel.current = some i := current
    unfold Booted.step
    rw [current]
    dsimp only
    split <;> exact .refl

/- The kernel of the booted system keeps the invariant of the thread table. -/
theorem bootedCoherent {ok : Booted → Act → Prop} {s : Booted} (h : Transition.Reach (bootedWith named) ok s) : Coherent s.kernel := by
  refine h.invariant (fun s => Coherent s.kernel) ?_ fun s act coherent enabled _ => movesCoherent coherent (bootedMoves enabled)
  rintro _ ⟨memory,stackBase,rfl⟩
  exact bootCoherent memory stackBase

end

/-! Runs in which every thread goes on until it sleeps, and every choice comes out
the same. -/

namespace Booted

def undisturbed (a b : Word) (s : Booted) : Act :=
  match s.kernel.mode, s.kernel.current with
  | .resume, _ => .resume Input.noise
  | _, none => .tick
  | _, some i => if (s.code i).isPick then .pick a b else .run 0 Input.noise

/- At most `n` steps, all of which meet `ok`. -/
def drive (named : Word → Word) (a b : Word) (ok : Booted → Act → Bool) : Nat → Booted → Booted
  | 0, s => s
  | n + 1, s =>
    let act := s.undisturbed a b
    if s.Enabled act ∧ ok s act = true then drive named a b ok n (s.step named act) else s

theorem driveReach {named : Word → Word} {s : Booted} (a b : Word) (ok : Booted → Act → Bool) (n : Nat)
    (h : Transition.Reach (bootedWith named) (fun s act => ok s act = true) s) :
    Transition.Reach (bootedWith named) (fun s act => ok s act = true) (drive named a b ok n s) := by
  induction n generalizing s with
  | zero => exact h
  | succ n ih =>
    unfold drive
    dsimp only
    split
    · rename_i steps
      exact ih (h.step steps.1 steps.2)
    · exact h

end Booted
end Mukern
