import Mukern.Moves

/-! The invariant of the thread table: what a thread's scheduler state, IPC state
and suspended context say about each other, and that no sender and receiver that
could meet are both asleep. -/
namespace Mukern
open Kernel

/- The suspended context may continue now. A receiver that an interrupt has woken
is still RECEIVING; the pending count tells it so. -/
def Resumable (t : Thread) : Prop :=
  match t.saved with
  | .trampoline _ | .tick | .send _ => t.ipcState = .none
  | .recv _ => t.ipcState = .none ∨ t.ipcState = .receiving ∧ 0 < t.irqPending
  | .vacant | .running | .exited | .killed => False

def Offline (t : Thread) : Prop :=
  match t.state with
  | .unused => t.saved = .vacant ∧ t.ipcState = .none
  | .dead => (t.saved = .exited ∨ t.saved = .killed) ∧ t.ipcState = .none
  | .blocked =>
    t.ipcState = .sending ∧ (∃ c, t.saved = .send c) ∨
      t.ipcState = .receiving ∧ t.irqPending = 0 ∧ ∃ c, t.saved = .recv c
  | .runnable => Resumable t
  | .running => False

def Placed (k : Kernel) (j : Slot) (t : Thread) : Prop :=
  if k.current = some j then
    t.state = .running ∧
      if k.mode = .resume then Resumable t else t.saved = .running ∧ t.ipcState = .none
  else Offline t

/- A sender and a receiver that wait for each other. -/
def Missed (k : Kernel) (s r : Slot) : Prop :=
  ((k.threads s).state = .blocked ∧ (k.threads s).ipcState = .sending ∧ (k.threads s).ipcPeer = tid r) ∧
    (k.threads r).state = .blocked ∧ (k.threads r).ipcState = .receiving ∧
      ((k.threads r).ipcPeer = ipcAny ∨ (k.threads r).ipcPeer = tid s)

structure Coherent (k : Kernel) : Prop where
  placed : ∀ j, Placed k j (k.threads j)
  rsp0 : k.rsp0 = k.kstackTopOf k.current
  apart : ∀ s r, ¬ Missed k s r

section
variable {k k' : Kernel} {i j : Slot} {t : Thread}

theorem Placed.offline (h : Placed k j t) (away : k.current ≠ some j) : Offline t := by
  simpa only [Placed,if_neg away] using h

theorem Placed.running (h : Placed k j t) (current : k.current = some j) : t.state = .running := by
  simp only [Placed,if_pos current] at h
  exact h.1

theorem Placed.resumable (h : Placed k j t) (current : k.current = some j) (mode : k.mode = .resume) :
    Resumable t := by
  simp only [Placed,if_pos current,if_pos mode] at h
  exact h.2

theorem Placed.onCpu (h : Placed k j t) (current : k.current = some j) (mode : k.mode ≠ .resume) :
    t.saved = .running ∧ t.ipcState = .none := by
  simp only [Placed,if_pos current,if_neg mode] at h
  exact h.2

theorem Coherent.currentRunning (h : Coherent k) :
    (k.threads j).state = .running ↔ k.current = some j := by
  constructor
  · intro running
    by_contra away
    have := (h.placed j).offline away
    simp [Offline,running] at this
  · exact (h.placed j).running

theorem Coherent.offline (h : Coherent k) (stopped : (k.threads j).state ≠ .running) :
    Offline (k.threads j) :=
  (h.placed j).offline (fun current => stopped (h.currentRunning.mpr current))

theorem Coherent.blocked (h : Coherent k) (blocked : (k.threads j).state = .blocked) :
    (k.threads j).ipcState = .sending ∧ (∃ c, (k.threads j).saved = .send c) ∨
      (k.threads j).ipcState = .receiving ∧ (k.threads j).irqPending = 0 ∧
        ∃ c, (k.threads j).saved = .recv c := by
  have := h.offline (j := j) (by simp [blocked])
  simpa [Offline,blocked] using this

theorem resumableIpc (h : Resumable t) :
    t.ipcState = .none ∨ t.ipcState = .receiving ∧ 0 < t.irqPending := by
  unfold Resumable at h
  cases saved : t.saved <;> simp only [saved] at h
  case recv => exact h
  all_goals exact .inl h

theorem Coherent.awake (h : Coherent k) (awake : (k.threads j).state ≠ .blocked) :
    (k.threads j).ipcState = .none ∨ (k.threads j).ipcState = .receiving ∧ 0 < (k.threads j).irqPending := by
  by_cases current : k.current = some j
  · by_cases mode : k.mode = .resume
    · exact resumableIpc ((h.placed j).resumable current mode)
    · exact .inl ((h.placed j).onCpu current mode).2
  · have offline := (h.placed j).offline current
    unfold Offline at offline
    cases state : (k.threads j).state <;> simp only [state] at offline
    case unused => exact .inl offline.2
    case dead => exact .inl offline.2
    case runnable => exact resumableIpc offline
    case blocked => exact absurd state awake

/- Everything that coherence reads of a thread. -/
def shape (t : Thread) : Context × ThreadState × Word × IpcState × Int × Nat :=
  (t.saved,t.state,t.kstackTop,t.ipcState,t.ipcPeer,t.irqPending)

theorem Coherent.quiet (h : Coherent k) (same : ∀ j, shape (k'.threads j) = shape (k.threads j))
    (current : k'.current = k.current) (mode : k'.mode = .resume ↔ k.mode = .resume)
    (rsp0 : k'.rsp0 = k.rsp0) : Coherent k' := by
  have fields : ∀ j, (k'.threads j).saved = (k.threads j).saved ∧
      (k'.threads j).state = (k.threads j).state ∧ (k'.threads j).kstackTop = (k.threads j).kstackTop ∧
      (k'.threads j).ipcState = (k.threads j).ipcState ∧ (k'.threads j).ipcPeer = (k.threads j).ipcPeer ∧
      (k'.threads j).irqPending = (k.threads j).irqPending := by
    intro j
    simpa only [shape,Prod.mk.injEq] using same j
  constructor
  · intro j
    obtain ⟨saved,state,_,ipcState,_,irqPending⟩ := fields j
    have placed := h.placed j
    simpa only [Placed,Offline,Resumable,current,mode,saved,state,ipcState,irqPending] using placed
  · have top : k'.kstackTopOf k.current = k.kstackTopOf k.current := by
      cases k.current with
      | none => rfl
      | some i => exact (fields i).2.2.1
    rw [rsp0,current,top,h.rsp0]
  · intro s r missed
    obtain ⟨_,state,_,ipcState,ipcPeer,_⟩ := fields s
    obtain ⟨_,state',_,ipcState',ipcPeer',_⟩ := fields r
    refine h.apart s r ?_
    simpa only [Missed,state,ipcState,ipcPeer,state',ipcState',ipcPeer'] using missed

/- One thread changes; no pair may be missed afterwards. -/
theorem Coherent.upd {f : Thread → Thread} (h : Coherent k) (placed : Placed k i (f (k.threads i)))
    (top : k.current = some i → (f (k.threads i)).kstackTop = (k.threads i).kstackTop)
    (apart : ∀ s r, ¬ Missed (k.upd i f) s r) : Coherent (k.upd i f) := by
  refine ⟨?_,?_,apart⟩
  · intro j
    by_cases at' : j = i
    · subst at'
      simpa [Placed] using placed
    · simpa [Placed,at'] using h.placed j
  · rw [updRsp0,updCurrent,h.rsp0]
    cases current : k.current with
    | none => rfl
    | some p =>
      by_cases at' : p = i
      · subst at'
        simp [kstackTopOf,top current]
      · simp [kstackTopOf,at']

/- A thread that is not left asleep cannot be missed. -/
theorem apartAwake {f : Thread → Thread} (apart : ∀ s r, ¬ Missed k s r)
    (awake : (f (k.threads i)).state ≠ .blocked) : ∀ s r, ¬ Missed (k.upd i f) s r := by
  intro s r missed
  have sender : s ≠ i := by
    rintro rfl
    exact awake (by simpa using missed.1.1)
  have receiver : r ≠ i := by
    rintro rfl
    exact awake (by simpa using missed.2.1)
  refine apart s r ?_
  simpa [Missed,sender,receiver] using missed

theorem apartSame {f : Thread → Thread} (apart : ∀ s r, ¬ Missed k s r)
    (state : (f (k.threads i)).state = (k.threads i).state)
    (ipcState : (f (k.threads i)).ipcState = (k.threads i).ipcState)
    (ipcPeer : (f (k.threads i)).ipcPeer = (k.threads i).ipcPeer) : ∀ s r, ¬ Missed (k.upd i f) s r := by
  have same : ∀ j, ((k.upd i f).threads j).state = (k.threads j).state ∧
      ((k.upd i f).threads j).ipcState = (k.threads j).ipcState ∧
      ((k.upd i f).threads j).ipcPeer = (k.threads j).ipcPeer := by
    intro j
    by_cases at' : j = i
    · subst at'
      simpa using ⟨state,ipcState,ipcPeer⟩
    · simp [at']
  intro s r missed
  refine apart s r ?_
  simpa only [Missed,same s,same r] using missed

theorem Coherent.log (h : Coherent k) (e : Event) : Coherent (k.log e) :=
  h.quiet (fun _ => rfl) rfl Iff.rfl rfl

theorem switchCoherent {point : Context} (switch : Switch k point k')
    (rest : ∀ j, k.current ≠ some j → Offline (k.threads j))
    (prev : ∀ p, k.current = some p → Offline (parked point (k.threads p)))
    (rsp0 : k.rsp0 = k.kstackTopOf k.current) (apart : ∀ s r, ¬ Missed k s r) : Coherent k' := by
  refine ⟨?_,switch.rsp0 rsp0,?_⟩
  · intro j
    by_cases next : k'.current = some j
    · obtain ⟨runnable,same⟩ := switch.next j next
      have away : k.current ≠ some j := fun at' => switch.away j at' next
      have resumable : Resumable (k.threads j) := by simpa [Offline,runnable] using rest j away
      rw [same]
      simp only [Placed,if_pos next,if_pos switch.mode]
      exact ⟨trivial,resumable⟩
    · simp only [Placed,if_neg next]
      by_cases at' : k.current = some j
      · rw [switch.prev j at']
        exact prev j at'
      · rw [switch.other j at' next]
        exact rest j at'
  · intro s r missed
    have asleep : ∀ j, (k'.threads j).state = .blocked → k.threads j = { k'.threads j with saved := (k.threads j).saved } := by
      intro j blocked
      obtain ⟨saved,state,same,kept⟩ := switchThread switch j
      have : state = .blocked := by rw [same] at blocked; exact blocked
      subst this
      obtain old | ⟨new,_⟩ := kept
      · rw [same,old]
      · simp at new
    refine apart s r ?_
    have sender := asleep s missed.1.1
    have receiver := asleep r missed.2.1
    rw [Missed,sender,receiver]
    exact missed

theorem Acting.state (acting : Acting k i) (h : Coherent k) : (k.threads i).state = .running :=
  h.currentRunning.mpr acting.2

theorem Acting.onCpu (acting : Acting k i) (h : Coherent k) :
    (k.threads i).saved = .running ∧ (k.threads i).ipcState = .none :=
  (h.placed i).onCpu acting.2 (by simp [acting.1])

theorem Acting.away (acting : Acting k i) (other : j ≠ i) : k.current ≠ some j := by
  rw [acting.2]
  exact fun same => other (Option.some.inj same).symm

/- The acting thread writes its own record and goes to sleep, or dies, at `point`. -/
theorem Coherent.leave {point : Context} (h : Coherent k) (acting : Acting k i) (f : Thread → Thread)
    (top : (f (k.threads i)).kstackTop = (k.threads i).kstackTop)
    (asleep : (f (k.threads i)).state ≠ .runnable)
    (offline : Offline (parked point (f (k.threads i))))
    (apart : ∀ s r, ¬ Missed (k.upd i f) s r) : Coherent ((k.upd i f).schedule point) := by
  refine switchCoherent (scheduleSwitch point ?_) ?_ ?_ ?_ apart
  · intro p current
    cases acting.2.symm.trans current
    simpa using asleep
  · intro j away
    have other : j ≠ i := by
      rintro rfl
      exact away acting.2
    simpa [other] using (h.placed j).offline (acting.away other)
  · intro p current
    cases acting.2.symm.trans current
    simpa using offline
  · rw [updRsp0,h.rsp0,updCurrent,acting.2]
    simp [kstackTopOf,top]

theorem dieCoherent {point : Context} (h : Coherent k) (acting : Acting k i)
    (final : point = .exited ∨ point = .killed) : Coherent (k.die i point) := by
  have onCpu := acting.onCpu h
  refine (h.log (.dead i)).leave acting ({ · with state := .dead }) rfl (by simp) ?_ (apartAwake h.apart (by simp))
  simpa [Offline,parked,offCpu,onCpu] using final

theorem stageCoherent {dest : Int} {m : IpcMsg} {caller : SendCaller} {d : Slot} (h : Coherent k)
    (acting : Acting k i) (named : dest = tid d) (busy : k.receiverReady d (tid i) = false) :
    Coherent ((k.stage i dest m).schedule (.send caller)) := by
  refine h.leave acting _ rfl (by simp) (by simp [Offline,parked,offCpu]) ?_
  intro s r missed
  have receiver : r ≠ i := by
    rintro rfl
    simpa using missed.2.2.1
  by_cases sender : s = i
  · subst sender
    obtain ⟨⟨_,_,peer⟩,asleep,receiving,wants⟩ := missed
    have meant : d = r := by simpa [named] using peer
    subst meant
    simp [receiver] at asleep receiving wants
    simp [receiverReady,asleep,receiving] at busy
    exact wants.elim busy.1 busy.2
  · exact h.apart s r (by simpa [Missed,sender,receiver] using missed)

theorem awaitCoherent {src : Int} {caller : RecvCaller} (h : Coherent k) (acting : Acting k i)
    (quiet : (k.threads i).irqPending = 0) (nobody : ∀ snd, k.waitingSender i snd src = false) :
    Coherent ((k.await i src).schedule (.recv caller)) := by
  refine h.leave acting _ rfl (by simp) (by simp [Offline,parked,offCpu,quiet]) ?_
  intro s r missed
  have sender : s ≠ i := by
    rintro rfl
    simpa using missed.1.2.1
  by_cases receiver : r = i
  · subst receiver
    obtain ⟨⟨blocked,sending,peer⟩,_,_,wants⟩ := missed
    have missing := nobody s
    simp [sender] at blocked sending peer
    simp [waitingSender,blocked,sending,peer] at missing
    simp at wants
    exact wants.elim missing.1 missing.2
  · exact h.apart s r (by simpa [Missed,sender,receiver] using missed)

theorem wakeCoherent {f : Thread → Thread} (h : Coherent k) (blocked : (k.threads j).state = .blocked)
    (state : (f (k.threads j)).state = .runnable) (resumable : Resumable (f (k.threads j))) :
    Coherent (k.upd j f) := by
  have away : k.current ≠ some j := fun current => by simp [h.currentRunning.mpr current] at blocked
  refine h.upd ?_ (fun current => absurd current away) (apartAwake h.apart (by simp [state]))
  simpa [Placed,away,Offline,state] using resumable

theorem deliverCoherent {d : Slot} {m : IpcMsg} (h : Coherent k)
    (ready : k.receiverReady d (tid i)) : Coherent (k.deliver i d m) := by
  simp [receiverReady] at ready
  obtain ⟨⟨blocked,receiving⟩,_⟩ := ready
  obtain ⟨sending,_⟩ | ⟨_,_,_,saved⟩ := h.blocked blocked
  · simp [sending] at receiving
  · exact (wakeCoherent h blocked (by simp [blocked]) (by simp [Resumable,saved])).log _

theorem pickUpCoherent {snd : Slot} {want : Int} (h : Coherent k) (waiting : k.waitingSender i snd want) :
    Coherent (k.pickUp i snd) := by
  simp [waitingSender] at waiting
  obtain ⟨⟨⟨blocked,sending⟩,_⟩,_⟩ := waiting
  obtain ⟨_,_,saved⟩ | ⟨receiving,_⟩ := h.blocked blocked
  · exact (wakeCoherent h blocked (by simp [blocked]) (by simp [Resumable,saved])).log _
  · simp [sending] at receiving

theorem sendCoherent {dest : Int} {m : IpcMsg} {caller : SendCaller} (h : Coherent k) (acting : Acting k i) :
    Coherent (k.ipcSendLocked i dest m caller).1 := by
  have called := h.log (.sendCall i dest m)
  have outcome := ipcSendOutcome k i dest m caller
  generalize k.ipcSendLocked i dest m caller = result at outcome
  cases outcome with
  | refused nobody => exact called.log _
  | met d named ready => exact (deliverCoherent called ready).log _
  | staged d named present busy => exact stageCoherent called acting named busy

theorem recvCoherent {src : Int} {junk : IpcMsg} {caller : RecvCaller} (h : Coherent k)
    (acting : Acting k i) : Coherent (k.ipcRecvLocked i src junk caller).1 := by
  have called := h.log (.recvCall i src)
  have outcome := ipcRecvOutcome k i src junk caller
  generalize k.ipcRecvLocked i src junk caller = result at outcome
  cases outcome with
  | irq pending =>
    refine Coherent.log (called.upd ?_ (fun _ => rfl) (apartAwake h.apart (by simp [acting.state h]))) _
    simpa [Placed,acting.1,acting.2] using ⟨acting.state h,acting.onCpu h⟩
  | taken snd quiet waiting => exact (pickUpCoherent called waiting).log _
  | awaits quiet nobody => exact awaitCoherent called acting quiet nobody

theorem createCoherent {parent : Option Slot} {prog : Fin 12} (h : Coherent k) :
    Coherent (k.threadCreate parent prog).1 := by
  unfold threadCreate
  split
  · rename_i n found
    have away : k.current ≠ some n := fun current => by
      have := h.currentRunning.mpr current
      obtain unused | dead := freeThreadDead found <;> simp_all
    refine Coherent.log (h.upd ?_ (fun current => absurd current away) (apartAwake h.apart (by simp [plant]))) _
    simp [Placed,away,Offline,Resumable,plant]
  · exact h

theorem bumpResumable (h : Resumable t) : Resumable { t with irqPending := t.irqPending + 1 } := by
  unfold Resumable at *
  cases saved : t.saved <;> simp only [saved] at h ⊢
  case recv c => exact h.imp id (fun receiving => ⟨receiving.1,Nat.succ_pos _⟩)
  all_goals exact h

theorem bumpOffline (h : Offline t) (deaf : ¬ (t.state = .blocked ∧ t.ipcState = .receiving)) :
    Offline { t with irqPending := t.irqPending + 1 } := by
  unfold Offline at *
  cases state : t.state <;> simp only [state] at h deaf ⊢
  case runnable => exact bumpResumable h
  case blocked =>
    obtain sending | ⟨receiving,_⟩ := h
    · exact .inl sending
    · exact absurd ⟨trivial,receiving⟩ deaf
  all_goals exact h

theorem irqCoherent {line : Fin 16} (h : Coherent k) (user : k.mode = .user) :
    Coherent (k.irqNotify line) := by
  unfold irqNotify
  split
  · exact h
  · rename_i d _
    split
    · refine Coherent.log ?_ _
      by_cases listening : (k.threads d).state = .blocked ∧ (k.threads d).ipcState = .receiving
      · obtain ⟨sending,_⟩ | ⟨receiving,_,_,saved⟩ := h.blocked listening.1
        · simp [listening.2] at sending
        · exact wakeCoherent h listening.1 (by simp [listening]) (by simp [listening,Resumable,saved])
      · refine h.upd ?_ (fun _ => by simp only [if_neg listening]) ?_
        · simp only [if_neg listening]
          by_cases current : k.current = some d
          · simpa [Placed,current,user] using ⟨(h.placed d).running current,(h.placed d).onCpu current (by simp [user])⟩
          · simpa only [Placed,if_neg current] using bumpOffline ((h.placed d).offline current) listening
        · exact apartSame h.apart (by simp only [if_neg listening]) (by simp only [if_neg listening])
            (by simp only [if_neg listening])
    · exact h

/- The switched-to thread runs on, with whatever its own code has written. -/
theorem resumeCoherent (h : Coherent k) (current : k.current = some i)
    (others : ∀ j, j ≠ i → k'.threads j = k.threads j) (same : k'.current = k.current)
    (mode : k'.mode = .user) (rsp0 : k'.rsp0 = k.rsp0)
    (own : (k'.threads i).state = (k.threads i).state ∧ (k'.threads i).kstackTop = (k.threads i).kstackTop ∧
      (k'.threads i).saved = .running ∧ (k'.threads i).ipcState = .none) : Coherent k' := by
  obtain ⟨state,top,saved,ipcState⟩ := own
  have running : (k'.threads i).state = .running := state.trans (h.currentRunning.mpr current)
  constructor
  · intro j
    by_cases at' : j = i
    · subst at'
      simp [Placed,same,current,mode,running,saved,ipcState]
    · have away : k.current ≠ some j := by
        rw [current]
        exact fun same => at' (Option.some.inj same).symm
      simpa only [Placed,same,if_neg away,others j at'] using (h.placed j).offline away
  · rw [rsp0,h.rsp0,same,current]
    exact top.symm
  · intro s r missed
    have sender : s ≠ i := by
      rintro rfl
      simpa [running] using missed.1.1
    have receiver : r ≠ i := by
      rintro rfl
      simpa [running] using missed.2.1
    refine h.apart s r ?_
    simpa only [Missed,others s sender,others r receiver] using missed

theorem Coherent.quietUpd {f : Thread → Thread} (h : Coherent k) (keep : ∀ t, shape (f t) = shape t) :
    Coherent (k.upd i f) := by
  refine h.quiet (fun j => ?_) rfl Iff.rfl rfl
  by_cases at' : j = i
  · subst at'
    simp [keep]
  · simp [at']

theorem grantCoherent {target : Option Slot} {ep : Int} (h : Coherent k) :
    Coherent (k.capGrantEndpoint target ep).1 := by
  unfold capGrantEndpoint
  split
  · exact h
  · dsimp only
    split
    · refine Coherent.log ?_ _
      exact h.quietUpd (fun _ => rfl)
    · exact h.quietUpd (fun _ => rfl)

theorem grantIoCoherent {target : Option Slot} {base len : BitVec 16} (h : Coherent k) :
    Coherent (k.capGrantIo target base len).1 := by
  unfold capGrantIo
  split
  · exact h
  · dsimp only
    split
    · refine Coherent.log ?_ _
      exact h.quietUpd (fun _ => rfl)
    · exact h.quietUpd (fun _ => rfl)

theorem tickCoherent (h : Coherent k) (user : k.mode = .user) : Coherent k.timerTick := by
  have counted : Coherent { k with ticks := k.ticks + 1 } := h.quiet (fun _ => rfl) rfl Iff.rfl rfl
  refine switchCoherent (scheduleSwitch .tick ?_) (fun j => (counted.placed j).offline) ?_ counted.rsp0 counted.apart
  · intro p current
    have running := (h.placed p).running current
    simp [running]
  · intro p current
    have running := (counted.placed p).running current
    have onCpu := (counted.placed p).onCpu current (by simp [user])
    simp only [Offline,parkedState,if_pos running,Resumable,parkedSaved,parkedIpcState]
    exact onCpu.2

theorem resumeRecvCoherent {junk : IpcMsg} (h : Coherent k) (current : k.current = some i) :
    Coherent ((k.onCpu i).ipcRecvResume i junk).1 := by
  unfold ipcRecvResume
  dsimp only
  split
  · refine resumeCoherent h current ?_ rfl rfl rfl ?_
    · intro j other
      simp [onCpu,other]
    · simp [onCpu]
  · refine resumeCoherent h current ?_ rfl rfl rfl ?_
    · intro j other
      simp [onCpu,other]
    · simp [onCpu]

theorem moveCoherent {k₀ : Kernel} {input : Input} (h₀ : Coherent k₀) (h : Coherent k)
    (move : Move k₀ input k k') : Coherent k' := by
  cases move with
  | enter acting => exact h.log _
  | leave acting => exact h.log _
  | port acting call held => exact h.log _
  | copy acting source => exact h.log _
  | memory memory => exact h.quiet (fun _ => rfl) rfl Iff.rfl rfl
  | openCall acting allowed =>
    refine Coherent.log ?_ _
    exact h.quietUpd (fun _ => rfl)
  | closeCall source acting =>
    refine h.quietUpd fun t => ?_
    unfold closeCall
    split <;> rfl
  | send acting called => exact sendCoherent h acting
  | recv src junk rsi acting => exact recvCoherent h acting
  | create prog acting call named => exact createCoherent h
  | grantChild child acting created => exact grantCoherent h
  | grantCap acting call held => exact grantCoherent h
  | grantIo acting call => exact grantIoCoherent h
  | setPager acting call => exact h.quiet (fun _ => rfl) rfl Iff.rfl rfl
  | irqRegister acting call named => exact h.quiet (fun _ => rfl) rfl Iff.rfl rfl
  | exit acting call => exact dieCoherent h acting (.inl rfl)
  | fault forwards => exact h.log _
  | faultSend forwards => exact sendCoherent h forwards.acting
  | faultRecv junk acting sent => exact recvCoherent h acting
  | faultEnd acting answered => exact h.log _
  | kill acting verdict nonzero => exact dieCoherent h acting (.inr rfl)
  | tick user => exact tickCoherent h user
  | irq user call vec => exact irqCoherent h user
  | resumeIdle mode current =>
    refine ⟨fun j => ?_,h.rsp0,h.apart⟩
    have placed := h.placed j
    simpa [Placed,current] using placed
  | resumePlain mode current saved =>
    rename_i i
    refine resumeCoherent h current (fun j other => by simp [onCpu,other]) rfl rfl rfl ?_
    have resumable := (h.placed i).resumable current mode
    obtain none : (k.threads i).ipcState = .none := by
      cases at' : (k.threads i).saved <;> simp_all [Resumable]
    simp [onCpu,none]
  | resumeSend mode current saved =>
    exact resumeCoherent h current (fun j other => by simp [onCpu,ipcSendResume,other]) rfl rfl rfl
      (by simp [onCpu,ipcSendResume])
  | resumeRecv junk mode current saved => exact resumeRecvCoherent h current
  | panic live => exact h.quiet (fun _ => rfl) rfl (by simp [live,panicException]) rfl

theorem schedInitCoherent (memory : Memory) (stackBase : Word) : Coherent (schedInit memory stackBase) := by
  refine ⟨fun j => ?_,rfl,fun s r missed => ?_⟩
  · simp [Placed,schedInit,Offline,threadZero]
  · simp [Missed,schedInit,threadZero] at missed

theorem bootCoherent (memory : Memory) (stackBase : Word) : Coherent (boot memory stackBase) := by
  unfold boot procSpawn
  split
  · exact createCoherent (schedInitCoherent memory stackBase)
  · exact schedInitCoherent memory stackBase

theorem movesCoherent {k₀ : Kernel} {input : Input} (h₀ : Coherent k₀) (moves : Moves k₀ input k₀ k) :
    Coherent k := by
  induction moves with
  | refl => exact h₀
  | tail _ move ih => exact moveCoherent h₀ ih move

theorem reachCoherent {ok : Kernel → Input → Prop} (h : Transition.Reach machine ok k) : Coherent k :=
  reachMoves bootCoherent (fun _ _ _ _ _ h₀ _ h move => moveCoherent h₀ h move) h

/- Invariants of runs whose steps rest on coherence. -/
theorem reachUnder {ok : Kernel → Input → Prop} (inv : Kernel → Prop)
    (base : ∀ memory stackBase, inv (boot memory stackBase))
    (keep : ∀ k₀ input k k', ok k₀ input → Coherent k₀ → inv k₀ → Moves k₀ input k₀ k →
      Coherent k → inv k → Move k₀ input k k' → inv k')
    (h : Transition.Reach machine ok k) : inv k := by
  refine h.invariantUnder inv (fun _ => reachCoherent) ?_ ?_
  · rintro _ ⟨memory,stackBase,rfl⟩
    exact base memory stackBase
  · intro k₀ input coherent holds enabled meets
    have walk : ∀ k, Moves k₀ input k₀ k → inv k := by
      intro k moves
      induction moves with
      | refl => exact holds
      | tail before move ih =>
        exact keep k₀ input _ _ meets coherent holds before (movesCoherent coherent before) ih move
    exact walk _ (stepMoves enabled)

end
end Mukern
