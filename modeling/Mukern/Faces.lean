import Mukern.Authority
import Mukern.Presence
import Mukern.Transfer
import Mukern.UserRun

/-! What other threads can rely on in a thread's record: whether it lives, where it
stands in the rendezvous, whether the kernel is in the page-fault path for it, its
authority and its interrupts. One lemma for each operation of the kernel. -/
namespace Mukern
open Kernel Rendezvous

def inFault (t : Thread) : Bool := t.saved = .send .fault || t.saved = .recv .fault

structure Face where
  presence : Presence
  wire : Phase Int IpcMsg
  fault : Bool
  table : CTable
  callTo : Int
  pending : Nat

def face (t : Thread) : Face := ⟨presence t,wire t,inFault t,t.ctable,t.ipcCallTo,t.irqPending⟩

def SendCaller.faults (caller : SendCaller) : Bool := caller = .fault
def RecvCaller.faults (caller : RecvCaller) : Bool := caller = .fault

/- What a call of `ipc_send_locked` changes. -/
inductive SendEffect (k : Kernel) (i : Slot) (dest : Int) (m : IpcMsg) (caller : SendCaller) (k' : Kernel) : Option Int → Prop where
  | refused (nobody : ∀ d, dest = tid d → k.Gone d) (faces : ∀ j, face (k'.threads j) = face (k.threads j)) :
      SendEffect k i dest m caller k' (some (-1))
  | met (d : Slot) (named : dest = tid d) (ready : k.receiverReady d (tid i))
      (faces : ∀ j, face (k'.threads j) = if j = d then { face (k.threads d) with wire := .received (tid i) m } else face (k.threads j)) :
      SendEffect k i dest m caller k' (some 0)
  | staged (d : Slot) (named : dest = tid d)
      (faces : ∀ j, face (k'.threads j) =
        if j = i then { face (k.threads i) with wire := .sending dest m, fault := caller.faults } else face (k.threads j)) :
      SendEffect k i dest m caller k' none

/- What a call of `ipc_recv_locked` changes. -/
inductive RecvEffect (k : Kernel) (i : Slot) (src : Int) (junk : IpcMsg) (caller : RecvCaller) (k' : Kernel) :
    Option (Int × IpcMsg) → Prop where
  | irq (pending : (k.threads i).irqPending ≠ 0)
      (faces : ∀ j, face (k'.threads j) =
        if j = i then { face (k.threads i) with pending := (k.threads i).irqPending - 1 } else face (k.threads j)) :
      RecvEffect k i src junk caller k' (some (ipcIrqSender,irqMsg junk))
  | taken (snd : Slot) (waiting : k.waitingSender i snd src)
      (faces : ∀ j, face (k'.threads j) = if j = snd then { face (k.threads snd) with wire := .sent } else face (k.threads j)) :
      RecvEffect k i src junk caller k' (some (tid snd,(k.threads snd).ipcBuf))
  | awaits (faces : ∀ j, face (k'.threads j) =
        if j = i then { face (k.threads i) with wire := .receiving src, fault := caller.faults } else face (k.threads j)) :
      RecvEffect k i src junk caller k' none

section
variable {k k' : Kernel} {i j : Slot} {point : Context}

theorem faceUpd (f : Thread → Thread) (keep : face (f (k.threads i)) = face (k.threads i)) :
    face ((k.upd i f).threads j) = face (k.threads j) := by
  rw [updThreads]
  split
  · rename_i same
    rw [same,keep]
  · rfl

theorem faceSwitch (switch : Switch k point k') :
    face (k'.threads j) = if k.current = some j then face { k.threads j with saved := point } else face (k.threads j) := by
  split
  · rename_i current
    rw [switch.prev j current]
    unfold face
    have live : presence (parked point (k.threads j)) = presence { k.threads j with saved := point } := by
      unfold presence
      rw [parkedState]
      cases (k.threads j).state <;> rfl
    rw [live]
    simp [wire,inFault]
  · rename_i away
    by_cases next : k'.current = some j
    · obtain ⟨runnable,same⟩ := switch.next j next
      rw [same]
      simp [face,presence,runnable,wire,inFault]
    · rw [switch.other j away next]

/- The acting thread writes its own record and leaves the CPU. -/
theorem faceLeave {f : Thread → Thread} (acting : Acting k i) (asleep : (f (k.threads i)).state ≠ .runnable) :
    face (((k.upd i f).schedule point).threads j) =
      if j = i then face { f (k.threads i) with saved := point } else face (k.threads j) := by
  rw [faceSwitch (scheduleSwitch point (parkableLeave acting asleep)),updCurrent,acting.2]
  by_cases same : j = i
  · subst same
    simp
  · simp [same,Ne.symm same]

theorem faceActing (coherent : Coherent k) (acting : Acting k i) :
    wire (k.threads i) = .idle ∧ inFault (k.threads i) = false ∧ presence (k.threads i) = .live := by
  refine ⟨wireActing coherent acting,by simp [inFault,(acting.onCpu coherent).1],?_⟩
  rw [presence,acting.state coherent]

/- What a thread that sleeps is asleep in. -/
theorem wireBlocked (coherent : Coherent k) (blocked : (k.threads i).state = .blocked) :
    (∃ dest m, wire (k.threads i) = .sending dest m) ∨ ∃ src, wire (k.threads i) = .receiving src := by
  obtain ⟨sending,c,saved⟩ | ⟨receiving,_,c,saved⟩ := coherent.blocked blocked
  · exact .inl ⟨_,_,by rw [wire,saved]; exact if_pos sending⟩
  · exact .inr ⟨_,by rw [wire,saved]; exact if_pos receiving⟩

theorem faceBlocked (blocked : (k.threads i).state = .blocked) : (face (k.threads i)).presence = .live := by
  simp [face,presence,blocked]

theorem faceDeliver {d : Slot} {m : IpcMsg} (coherent : Coherent k) (ready : k.receiverReady d (tid i)) :
    face ((k.deliver i d m).threads j) =
      if j = d then { face (k.threads d) with wire := .received (tid i) m } else face (k.threads j) := by
  obtain ⟨_,⟨c,saved⟩,_⟩ := wireReady coherent ready
  unfold deliver
  rw [logThreads,updThreads]
  split
  · simp [face,presenceWake,wire,inFault,saved]
    rfl
  · rfl

theorem facePickUp {snd : Slot} {want : Int} (coherent : Coherent k) (waiting : k.waitingSender i snd want) :
    face ((k.pickUp i snd).threads j) =
      if j = snd then { face (k.threads snd) with wire := .sent } else face (k.threads j) := by
  obtain ⟨_,⟨c,saved⟩,_⟩ := wireWaiting coherent waiting
  unfold pickUp
  rw [logThreads,updThreads]
  split
  · simp [face,presenceWake,wire,inFault,saved]
    rfl
  · rfl

theorem sendEffect (coherent : Coherent k) (acting : Acting k i) (dest : Int) (m : IpcMsg) (caller : SendCaller) :
    SendEffect k i dest m caller (k.ipcSendLocked i dest m caller).1 (k.ipcSendLocked i dest m caller).2 := by
  have outcome := ipcSendOutcome k i dest m caller
  generalize k.ipcSendLocked i dest m caller = result at outcome
  cases outcome with
  | refused nobody => exact .refused nobody fun _ => rfl
  | met d named ready => exact .met d named ready fun j => faceDeliver (k := k.log (.sendCall i dest m)) (coherent.log _) ready
  | staged d named present busy =>
    refine .staged d named fun j => ?_
    have live := (faceActing coherent acting).2.2
    refine (faceLeave (k := k.log (.sendCall i dest m)) acting (by simp)).trans ?_
    split
    · unfold face
      rw [live]
      simp [presence,wire,inFault,SendCaller.faults]
    · rfl

theorem recvEffect (coherent : Coherent k) (acting : Acting k i) (src : Int) (junk : IpcMsg) (caller : RecvCaller) :
    RecvEffect k i src junk caller (k.ipcRecvLocked i src junk caller).1 (k.ipcRecvLocked i src junk caller).2 := by
  have outcome := ipcRecvOutcome k i src junk caller
  generalize k.ipcRecvLocked i src junk caller = result at outcome
  cases outcome with
  | irq pending =>
    refine .irq pending fun j => ?_
    rw [logThreads,updThreads]
    split <;> rfl
  | taken snd quiet waiting =>
    exact .taken snd waiting fun j => facePickUp (k := k.log (.recvCall i src)) (coherent.log _) waiting
  | awaits quiet nobody =>
    refine .awaits fun j => ?_
    have live := (faceActing coherent acting).2.2
    refine (faceLeave (k := k.log (.recvCall i src)) acting (by simp)).trans ?_
    split
    · unfold face
      rw [live]
      simp [presence,wire,inFault,RecvCaller.faults]
    · rfl

theorem faceOpen {dest : Int} :
    face ((k.openCall i dest).threads j) = if j = i then { face (k.threads i) with callTo := dest } else face (k.threads j) := by
  unfold openCall
  rw [logThreads,updThreads]
  split <;> rfl

/- The return of a receive writes the open call only. -/
theorem faceReturn (rsi : Word) (source : Int) : ∃ callTo, ∀ j, face ((k.recvReturn i rsi source).threads j) =
    if j = i then { face (k.threads i) with callTo := callTo } else face (k.threads j) := by
  refine ⟨(closeCall source (k.threads i)).ipcCallTo,fun j => ?_⟩
  unfold recvReturn sysRet
  rw [logThreads,updThreads]
  split
  · rw [logThreads]
    unfold closeCall
    split <;> rfl
  · rfl

theorem faceTick (coherent : Coherent k) (user : k.mode = .user) : face (k.timerTick.threads j) = face (k.threads j) := by
  have parkable : ∀ p, { k with ticks := k.ticks + 1 }.current = some p → (k.threads p).state ≠ .runnable := by
    intro p current
    have running : (k.threads p).state = .running := coherent.currentRunning.mpr current
    simp [running]
  unfold timerTick
  rw [faceSwitch (scheduleSwitch .tick parkable)]
  split
  · rename_i current
    obtain ⟨idle,outside,_⟩ := faceActing coherent ⟨user,current⟩
    unfold face
    rw [idle,outside]
    rfl
  · rfl

/- An interrupt bumps the count of the driver that registered for the line. -/
theorem faceIrq {line : Fin 16} : (∀ j, face ((k.irqNotify line).threads j) = face (k.threads j)) ∨
    ∃ d, k.irqTid line = tid d ∧ ∀ j, face ((k.irqNotify line).threads j) =
      if j = d then { face (k.threads d) with pending := (k.threads d).irqPending + 1 } else face (k.threads j) := by
  unfold irqNotify
  split
  · exact .inl fun _ => rfl
  · rename_i d found
    split
    · refine .inr ⟨d,threadByIdSome.mp found,fun j => ?_⟩
      rw [logThreads,updThreads]
      split
      · dsimp only
        split
        · simp [face,presenceWake,wire,inFault]
          rfl
        · rfl
      · rfl
    · exact .inl fun _ => rfl

theorem faceDie (acting : Acting k i) (final : point = .exited ∨ point = .killed) : face ((k.die i point).threads j) =
    if j = i then { face (k.threads i) with presence := .dead, wire := .idle, fault := false } else face (k.threads j) := by
  unfold die
  have left : face ((((k.log (.dead i)).upd i ({ · with state := .dead })).schedule point).threads j) =
      if j = i then face { k.threads i with state := .dead, saved := point } else face (k.threads j) := faceLeave acting (by simp)
  refine left.trans ?_
  split
  · obtain rfl | rfl := final <;> rfl
  · rfl

theorem faceGrant {t s : Slot} {ep : Int} : face ((k.capGrantEndpoint (some t) ep).1.threads s) =
    if s = t then { face (k.threads t) with table := ((k.threads t).ctable.grantEndpoint ep).1 } else face (k.threads s) := by
  simp only [capGrantEndpoint]
  split <;> simp only [logThreads,updThreads] <;> split <;> rfl

theorem faceGrantIo {t s : Slot} {base len : BitVec 16} : face ((k.capGrantIo (some t) base len).1.threads s) =
    if s = t then { face (k.threads t) with table := ((k.threads t).ctable.grantIo base len).1 } else face (k.threads s) := by
  simp only [capGrantIo]
  split <;> simp only [logThreads,updThreads] <;> split <;> rfl

/- A fresh thread. -/
def Face.born : Face := ⟨.live,.idle,false,capClear,-1,0⟩

theorem facePlant {c : Slot} {parent : Option Slot} {prog : Fin 12} (found : k.freeThread = some c) :
    face ((k.threadCreate parent prog).1.threads j) = if j = c then Face.born else face (k.threads j) := by
  unfold threadCreate
  rw [found]
  dsimp only
  rw [logThreads,updThreads]
  split <;> rfl

/- Nothing of a thread is saved while it runs; its calls return by clearing `ipc_state`. -/
theorem faceOnCpu (plain : wire (k.threads i) = .idle) (outside : inFault (k.threads i) = false) :
    face ((k.onCpu i).threads j) = face (k.threads j) := by
  refine faceUpd ({ · with saved := .running }) ?_
  unfold face
  rw [plain,outside]
  rfl

theorem faceResumeSend : face (((k.onCpu i).ipcSendResume i).threads j) =
    if j = i then { face (k.threads i) with wire := .idle, fault := false } else face (k.threads j) := by
  unfold ipcSendResume onCpu
  rw [logThreads,updThreads]
  split
  · simp only [updThreads,if_true]
    rfl
  · rename_i other
    simp [other]

theorem faceResumeRecv (junk : IpcMsg) (receives : ∃ c, (k.threads i).saved = .recv c) :
    (∃ src, wire (k.threads i) = .receiving src ∧ ((k.onCpu i).ipcRecvResume i junk).2 = (ipcIrqSender,irqMsg junk) ∧
      ∀ j, face (((k.onCpu i).ipcRecvResume i junk).1.threads j) =
        if j = i then { face (k.threads i) with wire := .idle, fault := false, pending := (k.threads i).irqPending - 1 } else face (k.threads j)) ∨
    ∃ source m, wire (k.threads i) = .received source m ∧ ((k.onCpu i).ipcRecvResume i junk).2 = (source,m) ∧
      ∀ j, face (((k.onCpu i).ipcRecvResume i junk).1.threads j) =
        if j = i then { face (k.threads i) with wire := .idle, fault := false } else face (k.threads j) := by
  obtain ⟨c,saved⟩ := receives
  by_cases receiving : (k.threads i).ipcState = .receiving
  · refine .inl ⟨(k.threads i).ipcPeer,by simp [wire,saved,receiving],?_,fun j => ?_⟩
    · simp [ipcRecvResume,onCpu,receiving]
    · simp only [ipcRecvResume,onCpu,updThreads,if_true,receiving,logThreads]
      split <;> rfl
  · refine .inr ⟨(k.threads i).ipcFrom,(k.threads i).ipcBuf,by simp [wire,saved,receiving],?_,fun j => ?_⟩
    · simp [ipcRecvResume,onCpu,receiving]
    · simp only [ipcRecvResume,onCpu,updThreads,if_true,receiving,logThreads,if_false]
      split <;> rfl

end
end Mukern
