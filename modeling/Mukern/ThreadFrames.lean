import Mukern.UserRun

/-! The kernel schedules threads and passes messages by value without a look at memory. -/
namespace Mukern
open Kernel

/- The same threads on another memory. -/
def Kernel.on (k : Kernel) (m : Memory) : Kernel := { k with memory := m }

def Booted.on (s : Booted) (m : Memory) : Booted := { s with kernel := s.kernel.on m }

section
variable {k : Kernel} {m : Memory} {i j : Slot} {point : Context} {msg junk : IpcMsg} {dest src : Int} {tf : Trapframe}

theorem suspendOn : (k.on m).suspend point = (k.suspend point).on m := by
  cases current : k.current <;> simp [suspend,Kernel.on,current,upd]

theorem switchOn {next : Option Slot} : (k.on m).switchTo next = (k.switchTo next).on m := by
  cases next <;> cases current : k.current <;> simp [switchTo,leaveCpu,Kernel.on,current,enterCpu,kstackTopOf,upd]

theorem rescheduleOn : (k.on m).reschedule = k.reschedule.on m := by
  have same : (k.on m).pickNext = k.pickNext := rfl
  have current : (k.on m).current = k.current := rfl
  unfold reschedule
  rw [same,current]
  cases k.pickNext with
  | none =>
    dsimp only
    split
    · rfl
    · exact switchOn
  | some n =>
    dsimp only
    split
    · rfl
    · exact switchOn

theorem scheduleOn : (k.on m).schedule point = (k.schedule point).on m := by
  unfold schedule
  rw [suspendOn,rescheduleOn]

theorem sendOn {caller : SendCaller} : (k.on m).ipcSendLocked i dest msg caller =
    ((k.ipcSendLocked i dest msg caller).1.on m,(k.ipcSendLocked i dest msg caller).2) := by
  unfold ipcSendLocked
  dsimp only
  cases threadById dest with
  | none => rfl
  | some d =>
    have gone : ((k.on m).log (.sendCall i dest msg)).Gone d ↔ (k.log (.sendCall i dest msg)).Gone d := .rfl
    have ready : ((k.on m).log (.sendCall i dest msg)).receiverReady d (tid i) = (k.log (.sendCall i dest msg)).receiverReady d (tid i) := rfl
    have blocks : (((k.on m).log (.sendCall i dest msg)).stage i dest msg).schedule (.send caller) =
        (((k.log (.sendCall i dest msg)).stage i dest msg).schedule (.send caller)).on m :=
      scheduleOn (k := (k.log (.sendCall i dest msg)).stage i dest msg)
    dsimp only
    rw [ready,blocks]
    by_cases absent : (k.log (.sendCall i dest msg)).Gone d
    · rw [if_pos absent,if_pos (gone.mpr absent)]
      rfl
    · rw [if_neg absent,if_neg (mt gone.mp absent)]
      split <;> rfl

theorem recvOn {caller : RecvCaller} : (k.on m).ipcRecvLocked i src junk caller =
    ((k.ipcRecvLocked i src junk caller).1.on m,(k.ipcRecvLocked i src junk caller).2) := by
  have found : ((k.on m).log (.recvCall i src)).findWaitingSender i src = (k.log (.recvCall i src)).findWaitingSender i src := rfl
  have pending : ((k.on m).log (.recvCall i src)).threads = (k.log (.recvCall i src)).threads := rfl
  have blocks : (((k.on m).log (.recvCall i src)).await i src).schedule (.recv caller) =
      (((k.log (.recvCall i src)).await i src).schedule (.recv caller)).on m := scheduleOn (k := (k.log (.recvCall i src)).await i src)
  unfold ipcRecvLocked
  dsimp only
  rw [found,pending,blocks]
  split
  · rfl
  · split <;> rfl

theorem dieOn : (k.on m).die i point = (k.die i point).on m := scheduleOn (k := (k.upd i ({ · with state := .dead })).log (.dead i))

theorem verdictOn : (k.on m).faultVerdict i msg = (k.faultVerdict i msg).on m := by
  unfold faultVerdict
  dsimp only
  split
  · exact dieOn (k := k.log (.faultEnd i msg))
  · rfl

theorem faultRecvOn : (k.on m).faultRecv i junk = (k.faultRecv i junk).on m := by
  have pager : (k.on m).pagerTid = k.pagerTid := rfl
  unfold faultRecv
  rw [pager,recvOn]
  generalize k.ipcRecvLocked i k.pagerTid junk .fault = result
  obtain ⟨k',_ | ⟨source,reply⟩⟩ := result
  · rfl
  · exact verdictOn

theorem pageFaultOn {hw : Hardware} : (k.on m).pageFault tf hw = (k.pageFault tf hw).on m := by
  have current : (k.on m).current = k.current := rfl
  have pager : (k.on m).pagerTid = k.pagerTid := rfl
  unfold pageFault
  rw [current,pager]
  cases k.current with
  | none => rfl
  | some i =>
    dsimp only
    split
    swap
    · rfl
    have sent : ((k.on m).log (.fault i hw.cr2 k.pagerTid)).ipcSendLocked i k.pagerTid (faultMsg i hw.cr2) .fault =
        (((k.log (.fault i hw.cr2 k.pagerTid)).ipcSendLocked i k.pagerTid (faultMsg i hw.cr2) .fault).1.on m,
          ((k.log (.fault i hw.cr2 k.pagerTid)).ipcSendLocked i k.pagerTid (faultMsg i hw.cr2) .fault).2) :=
      sendOn (k := k.log (.fault i hw.cr2 k.pagerTid))
    unfold faultForward
    dsimp only [logPagerTid]
    rw [pager,sent]
    generalize (k.log (.fault i hw.cr2 k.pagerTid)).ipcSendLocked i k.pagerTid (faultMsg i hw.cr2) .fault = result
    obtain ⟨k',_ | r⟩ := result
    · rfl
    · exact faultRecvOn

theorem sendValueOn : (k.on m).sendValue i tf msg = ((k.sendValue i tf msg).1.on m,(k.sendValue i tf msg).2) := by
  have allowed : ((k.on m).log (.syscall i tf)).ipcSendAllowed i (cint tf.rdi) = (k.log (.syscall i tf)).ipcSendAllowed i (cint tf.rdi) := rfl
  have sent : ((((k.on m).log (.syscall i tf)).openCall i (cint tf.rdi)).log (.copy i tf.rsi false)).ipcSendLocked i (cint tf.rdi) msg .syscall =
      (((((k.log (.syscall i tf)).openCall i (cint tf.rdi)).log (.copy i tf.rsi false)).ipcSendLocked i (cint tf.rdi) msg .syscall).1.on m,
        ((((k.log (.syscall i tf)).openCall i (cint tf.rdi)).log (.copy i tf.rsi false)).ipcSendLocked i (cint tf.rdi) msg .syscall).2) :=
    sendOn (k := ((k.log (.syscall i tf)).openCall i (cint tf.rdi)).log (.copy i tf.rsi false))
  unfold sendValue
  dsimp only
  rw [allowed,sent]
  generalize (((k.log (.syscall i tf)).openCall i (cint tf.rdi)).log (.copy i tf.rsi false)).ipcSendLocked i (cint tf.rdi) msg .syscall = result
  obtain ⟨k',_ | r⟩ := result
  · split <;> rfl
  · split <;> rfl

theorem recvValueOn : (k.on m).recvValue i tf junk = ((k.recvValue i tf junk).1.on m,(k.recvValue i tf junk).2) := by
  have got : ((k.on m).log (.syscall i tf)).ipcRecvLocked i (cint tf.rdi) junk (.syscall tf.rsi) =
      (((k.log (.syscall i tf)).ipcRecvLocked i (cint tf.rdi) junk (.syscall tf.rsi)).1.on m,
        ((k.log (.syscall i tf)).ipcRecvLocked i (cint tf.rdi) junk (.syscall tf.rsi)).2) := recvOn (k := k.log (.syscall i tf))
  unfold recvValue
  rw [got]
  generalize (k.log (.syscall i tf)).ipcRecvLocked i (cint tf.rdi) junk (.syscall tf.rsi) = result
  obtain ⟨k',_ | r⟩ := result <;> rfl

theorem procSpawnOn {parent : Option Slot} {prog : Int} : (k.on m).procSpawn parent prog =
    ((k.procSpawn parent prog).1.on m,(k.procSpawn parent prog).2) := by
  have free : (k.on m).freeThread = k.freeThread := rfl
  unfold procSpawn
  split
  · unfold threadCreate
    rw [free]
    cases k.freeThread <;> rfl
  · rfl

theorem grantCapOn {t : Option Slot} {ep : Int} : (k.on m).capGrantEndpoint t ep = ((k.capGrantEndpoint t ep).1.on m,(k.capGrantEndpoint t ep).2) := by
  have table : (k.on m).threads = k.threads := rfl
  unfold capGrantEndpoint
  cases t with
  | none => rfl
  | some t =>
    dsimp only
    rw [table]
    split <;> rfl

theorem grantIoOn {t : Option Slot} {base len : BitVec 16} : (k.on m).capGrantIo t base len =
    ((k.capGrantIo t base len).1.on m,(k.capGrantIo t base len).2) := by
  have table : (k.on m).threads = k.threads := rfl
  unfold capGrantIo
  cases t with
  | none => rfl
  | some t =>
    dsimp only
    rw [table]
    split <;> rfl

theorem spawnCallOn : (k.on m).sysSpawn i tf = (k.sysSpawn i tf).on m := by
  unfold sysSpawn
  dsimp only
  rw [procSpawnOn]
  dsimp only
  split
  · rw [grantCapOn]
    rfl
  · rfl

theorem grantIoCallOn : (k.on m).sysGrantIo i tf = (k.sysGrantIo i tf).on m := by
  unfold sysGrantIo
  split
  · rfl
  · rw [grantIoOn]
    rfl

theorem grantCapCallOn : (k.on m).sysGrantCap i tf = (k.sysGrantCap i tf).on m := by
  have table : (k.on m).threads = k.threads := rfl
  unfold sysGrantCap
  dsimp only
  rw [table]
  split
  · rfl
  · rw [grantCapOn]
    rfl

theorem irqRegisterOn : (k.on m).sysIrqRegister i tf = (k.sysIrqRegister i tf).on m := by
  unfold sysIrqRegister
  dsimp only
  split <;> rfl

theorem recvResumeOn : (k.on m).ipcRecvResume i junk =
    ((k.ipcRecvResume i junk).1.on m,(k.ipcRecvResume i junk).2) := by
  have table : (k.on m).threads = k.threads := rfl
  unfold ipcRecvResume
  dsimp only
  rw [table]
  split <;> rfl

theorem resumeOn (quiet : ∀ i, k.current = some i → ∀ rsi, (k.threads i).saved ≠ .recv (.syscall rsi)) :
    (k.on m).resume junk = (k.resume junk).on m := by
  have current : (k.on m).current = k.current := rfl
  have table : (k.on m).threads = k.threads := rfl
  unfold resume
  rw [current]
  cases running : k.current with
  | none => rfl
  | some i =>
    dsimp only
    rw [table]
    cases saved : (k.threads i).saved with
    | send caller =>
      cases caller with
      | syscall => rfl
      | fault => exact faultRecvOn (k := (k.onCpu i).ipcSendResume i)
    | recv caller =>
      cases caller with
      | syscall rsi => exact absurd saved (quiet i running rsi)
      | fault =>
        have got : ((k.on m).onCpu i).ipcRecvResume i junk =
            (((k.onCpu i).ipcRecvResume i junk).1.on m,((k.onCpu i).ipcRecvResume i junk).2) := recvResumeOn (k := k.onCpu i)
        dsimp only
        rw [got]
        exact verdictOn
    | _ => rfl

end

/-! The same for the booted system. -/

namespace Code

def isRecv : Code → Bool
  | .recv _ _ _ => true
  | _ => false

/- The call reads or writes page tables. -/
def maps : Code → Bool
  | .map _ _ | .mapPhys _ _ _ | .store _ _ => true
  | _ => false

end Code

def Context.receives : Context → Bool
  | .recv (.syscall _) => true
  | _ => false

/- A step whose outcome is that of the threads alone. -/
def Booted.plain (s : Booted) : Act → Bool
  | .tick | .pick _ _ => true
  | .irq _ => false
  | .resume _ => s.kernel.current.all fun i => !(s.kernel.threads i).saved.receives || (s.code i).isRecv
  | .run _ _ => s.kernel.current.all fun i => !(s.code i).maps

section
variable {s : Booted} {m : Memory} {i : Slot} {junk : IpcMsg} {ptr : Word} {named : Word → Word} {act : Act}

theorem callOn (plain : (s.code i).maps = false) : (s.on m).call named i ptr junk = (s.call named i ptr junk).on m := by
  have code : (s.on m).code = s.code := rfl
  have kernel : (s.on m).kernel = s.kernel.on m := rfl
  have entered : ∀ tf, (s.kernel.on m).log (.syscall i tf) = (s.kernel.log (.syscall i tf)).on m := fun tf => rfl
  unfold Booted.call
  dsimp only
  rw [code,kernel]
  cases calls : s.code i with
  | send dest msg next =>
    dsimp only
    rw [sendValueOn]
    generalize s.kernel.sendValue i ((Code.send dest msg next).regs ptr) msg = result
    obtain ⟨k',_ | r⟩ := result <;> rfl
  | recv src mark next =>
    dsimp only
    rw [recvValueOn]
    generalize s.kernel.recvValue i ((Code.recv src mark next).regs ptr) junk = result
    obtain ⟨k',_ | r⟩ := result <;> rfl
  | spawn prog next =>
    have spawned : (s.kernel.on m).doSyscall i ((Code.spawn prog next).regs ptr) ⟨0,0,junk⟩ =
        (s.kernel.doSyscall i ((Code.spawn prog next).regs ptr) ⟨0,0,junk⟩).on m := spawnCallOn (k := s.kernel.log _)
    dsimp only
    rw [spawned,entered,procSpawnOn]
    unfold Booted.launch
    dsimp only
    split <;> rfl
  | grantIo t base len next =>
    have granted : (s.kernel.on m).doSyscall i ((Code.grantIo t base len next).regs ptr) ⟨0,0,junk⟩ =
        (s.kernel.doSyscall i ((Code.grantIo t base len next).regs ptr) ⟨0,0,junk⟩).on m := grantIoCallOn (k := s.kernel.log _)
    dsimp only
    rw [granted]
    rfl
  | irqRegister line next =>
    have registered : (s.kernel.on m).doSyscall i ((Code.irqRegister line next).regs ptr) ⟨0,0,junk⟩ =
        (s.kernel.doSyscall i ((Code.irqRegister line next).regs ptr) ⟨0,0,junk⟩).on m := irqRegisterOn (k := s.kernel.log _)
    dsimp only
    rw [registered]
    rfl
  | grantCap t ep next =>
    have granted : (s.kernel.on m).doSyscall i ((Code.grantCap t ep next).regs ptr) ⟨0,0,junk⟩ =
        (s.kernel.doSyscall i ((Code.grantCap t ep next).regs ptr) ⟨0,0,junk⟩).on m := grantCapCallOn (k := s.kernel.log _)
    dsimp only
    rw [granted]
    rfl
  | exit =>
    have died : (s.kernel.on m).doSyscall i (Code.exit.regs ptr) ⟨0,0,junk⟩ = (s.kernel.doSyscall i (Code.exit.regs ptr) ⟨0,0,junk⟩).on m :=
      dieOn (k := s.kernel.log _)
    dsimp only
    rw [died]
    rfl
  | setPager next | pick next | again loop => rfl
  | map va next | mapPhys va pa next | store va next =>
    rw [calls] at plain
    cases plain

theorem stepOn (plain : s.plain act) : (s.on m).step named act = (s.step named act).on m := by
  have current : (s.on m).kernel.current = s.kernel.current := rfl
  have code : (s.on m).code = s.code := rfl
  have kernel : (s.on m).kernel = s.kernel.on m := rfl
  cases act with
  | irq line => cases plain
  | tick =>
    have ticked : (s.kernel.on m).timerTick = s.kernel.timerTick.on m := scheduleOn (k := { s.kernel with ticks := s.kernel.ticks + 1 })
    unfold Booted.step
    dsimp only
    rw [kernel,ticked]
    rfl
  | pick a b =>
    unfold Booted.step
    dsimp only
    rw [current]
    cases s.kernel.current with
    | none => rfl
    | some i =>
      dsimp only
      rw [code]
      cases s.code i <;> rfl
  | run ptr junk =>
    unfold Booted.step
    dsimp only
    rw [current]
    unfold Booted.plain at plain
    cases running : s.kernel.current with
    | none => rfl
    | some i =>
      rw [running] at plain
      exact callOn (by simpa using plain)
  | resume junk =>
    have table : (s.on m).kernel.threads = s.kernel.threads := rfl
    unfold Booted.step Booted.resume
    dsimp only
    rw [current]
    unfold Booted.plain at plain
    cases running : s.kernel.current with
    | none =>
      have resumed : (s.kernel.on m).resume junk = (s.kernel.resume junk).on m := resumeOn fun i there => by cases running.symm.trans there
      dsimp only
      rw [kernel,resumed]
      rfl
    | some i =>
      rw [running] at plain
      have plain : (!(s.kernel.threads i).saved.receives || (s.code i).isRecv) = true := plain
      dsimp only
      rw [table,code,kernel]
      by_cases receives : (s.kernel.threads i).saved.receives = true
      · rw [receives] at plain
        cases saved : (s.kernel.threads i).saved with
        | recv caller =>
          cases caller with
          | syscall rsi =>
            cases calls : s.code i with
            | recv src mark next =>
              have got : ((s.kernel.on m).onCpu i).ipcRecvResume i junk =
                  (((s.kernel.onCpu i).ipcRecvResume i junk).1.on m,((s.kernel.onCpu i).ipcRecvResume i junk).2) := recvResumeOn (k := s.kernel.onCpu i)
              dsimp only
              rw [got]
              rfl
            | _ =>
              rw [calls] at plain
              cases plain
          | fault =>
            rw [saved] at receives
            cases receives
        | _ =>
          rw [saved] at receives
          cases receives
      · have resumed : (s.kernel.on m).resume junk = (s.kernel.resume junk).on m := by
          refine resumeOn fun j there rsi saved => receives ?_
          cases running.symm.trans there
          rw [saved]
          rfl
        rw [resumed]
        cases saved : (s.kernel.threads i).saved with
        | send caller => cases caller <;> cases s.code i <;> rfl
        | recv caller =>
          cases caller with
          | syscall rsi =>
            rw [saved] at receives
            exact absurd rfl receives
          | fault => rfl
        | _ => rfl

end
end Mukern
