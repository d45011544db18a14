import Mukern.Lifetime

/-! Whether a slot was ever used, is occupied, or is dead. Only `thread_create` and
the two ways to die change that. -/
namespace Mukern
open Kernel

inductive Presence where
  | never
  | live
  | dead
  deriving DecidableEq, Repr

def presence (t : Thread) : Presence :=
  match t.state with
  | .unused => .never
  | .dead => .dead
  | .runnable | .running | .blocked => .live

/- A move either creates no thread or is the one `thread_create` of a `SYS_SPAWN`. -/
inductive Creates (k₀ : Kernel) (input : Input) (k k' : Kernel) : Prop where
  | none (new : List Event) (older : k'.history = new ++ k.history)
      (uncreated : ∀ d, ∀ e ∈ new, e.creates d = false)
  | thread (n caller : Slot) (tf : Trapframe) (prog : Fin 12) (found : k.freeThread = some n)
      (acting : Acting k₀ caller) (call : IsCall input .spawn tf) (named : cint tf.rdi = (prog.val : Int))
      (before : k = k₀.log (.syscall caller tf))
      (after : k' = (k.upd n (plant · (k.stackTop n) prog)).log (.create n (some caller) prog))

section
variable {k₀ k k' : Kernel} {input : Input} {i j : Slot}

theorem presenceGone : k.Gone i ↔ presence (k.threads i) ≠ .live := by
  unfold Gone presence
  cases (k.threads i).state <;> simp

theorem presenceNever {t : Thread} : presence t = .never ↔ t.state = .unused := by
  unfold presence
  cases t.state <;> simp

theorem presenceState {t t' : Thread} (same : t'.state = t.state) : presence t' = presence t := by
  unfold presence
  rw [same]

theorem presenceUpdAt (f : Thread → Thread) (keep : presence (f (k.threads i)) = presence (k.threads i)) :
    presence ((k.upd i f).threads j) = presence (k.threads j) := by
  rw [updThreads]
  split
  · rename_i same
    rw [same,keep]
  · rfl

theorem presenceUpd (f : Thread → Thread) (keep : ∀ t, presence (f t) = presence t) :
    presence ((k.upd i f).threads j) = presence (k.threads j) := presenceUpdAt f (keep _)

theorem presenceWake {t : Thread} : presence (threadWake t) = presence t := by
  unfold presence
  rw [wakeState]
  cases t.state <;> rfl

theorem presenceSchedule (point : Context) (parkable : ∀ p, k.current = some p → (k.threads p).state ≠ .runnable) :
    presence ((k.schedule point).threads j) = presence (k.threads j) := by
  obtain ⟨saved,state,same,kept⟩ := switchThread (scheduleSwitch point parkable) j
  rw [same]
  obtain rfl | ⟨after,before⟩ := kept
  · rfl
  · unfold presence
    rcases after with rfl | rfl <;> rcases before with runnable | running <;> simp [*]

/- The acting thread blocks and leaves the CPU. -/
theorem presenceBlock {f : Thread → Thread} (point : Context) (coherent : Coherent k) (acting : Acting k i)
    (blocks : (f (k.threads i)).state = .blocked) :
    presence (((k.upd i f).schedule point).threads j) = presence (k.threads j) := by
  refine (presenceSchedule point (parkableLeave acting (by simp [blocks]))).trans (presenceUpdAt f ?_)
  unfold presence
  rw [blocks,acting.state coherent]

theorem presenceDeliver {d m} : presence ((k.deliver i d m).threads j) = presence (k.threads j) := by
  unfold deliver
  rw [logThreads]
  exact presenceUpd _ fun _ => presenceWake

theorem presencePickUp {snd} : presence ((k.pickUp i snd).threads j) = presence (k.threads j) := by
  unfold pickUp
  rw [logThreads]
  exact presenceUpd _ fun _ => presenceWake

theorem presenceSend {dest m caller} (coherent : Coherent k) (acting : Acting k i) :
    presence ((k.ipcSendLocked i dest m caller).1.threads j) = presence (k.threads j) := by
  have outcome := ipcSendOutcome k i dest m caller
  generalize k.ipcSendLocked i dest m caller = result at outcome
  cases outcome with
  | refused nobody => rfl
  | met d named ready => exact presenceDeliver (k := k.log (.sendCall i dest m))
  | staged d named present busy =>
    exact presenceBlock (.send caller) (coherent.log (.sendCall i dest m)) acting rfl

theorem presenceRecv {src junk caller} (coherent : Coherent k) (acting : Acting k i) :
    presence ((k.ipcRecvLocked i src junk caller).1.threads j) = presence (k.threads j) := by
  have outcome := ipcRecvOutcome k i src junk caller
  generalize k.ipcRecvLocked i src junk caller = result at outcome
  cases outcome with
  | irq pending =>
    rw [logThreads]
    exact presenceUpd _ fun _ => rfl
  | taken snd quiet waiting => exact presencePickUp (k := k.log (.recvCall i src)) (i := i)
  | awaits quiet nobody =>
    exact presenceBlock (.recv caller) (coherent.log (.recvCall i src)) acting rfl

theorem presenceDie (point : Context) (acting : Acting k i) :
    presence ((k.die i point).threads j) = if j = i then .dead else presence (k.threads j) := by
  have died := presenceSchedule (k := (k.log (.dead i)).upd i ({ · with state := .dead })) (j := j)
    point (parkableLeave (k := k.log (.dead i)) (f := ({ · with state := .dead })) acting (by simp))
  refine died.trans ?_
  rw [updThreads]
  split <;> rfl

theorem presenceGrant {target ep} : presence ((k.capGrantEndpoint target ep).1.threads j) = presence (k.threads j) := by
  unfold capGrantEndpoint
  split
  · rfl
  · dsimp only
    split
    · rw [logThreads]
      exact presenceUpd _ fun _ => rfl
    · exact presenceUpd _ fun _ => rfl

theorem presenceGrantIo {target base len} :
    presence ((k.capGrantIo target base len).1.threads j) = presence (k.threads j) := by
  unfold capGrantIo
  split
  · rfl
  · dsimp only
    split
    · rw [logThreads]
      exact presenceUpd _ fun _ => rfl
    · exact presenceUpd _ fun _ => rfl

theorem presenceIrq {line} : presence ((k.irqNotify line).threads j) = presence (k.threads j) := by
  unfold irqNotify
  split
  · rfl
  · split
    · rw [logThreads]
      refine presenceUpd _ fun t => ?_
      dsimp only
      split
      · exact presenceWake
      · rfl
    · rfl

theorem presenceTick (coherent : Coherent k) : presence (k.timerTick.threads j) = presence (k.threads j) := by
  refine presenceSchedule (k := { k with ticks := k.ticks + 1 }) .tick ?_
  intro p current
  have running : (k.threads p).state = .running := coherent.currentRunning.mpr current
  simp [running]

theorem presenceOnCpu : presence ((k.onCpu i).threads j) = presence (k.threads j) :=
  presenceUpd ({ · with saved := .running }) fun _ => rfl

theorem presenceResumeSend : presence (((k.onCpu i).ipcSendResume i).threads j) = presence (k.threads j) :=
  (presenceUpd ({ · with ipcState := .none }) fun _ => rfl).trans (presenceOnCpu (i := i))

theorem presenceResumeRecv {junk} :
    presence (((k.onCpu i).ipcRecvResume i junk).1.threads j) = presence (k.threads j) := by
  refine Eq.trans ?_ (presenceOnCpu (i := i))
  unfold ipcRecvResume
  dsimp only
  split
  · rw [logThreads]
    exact presenceUpd _ fun _ => rfl
  · rw [logThreads]
    exact presenceUpd _ fun _ => rfl

inductive Appears (k k' : Kernel) (j : Slot) : Prop where
  | same (same : presence (k'.threads j) = presence (k.threads j))
  | dies (acting : Acting k j) (dead : presence (k'.threads j) = .dead) (died : k'.history = .dead j :: k.history)
  | born {parent prog} (created : k'.history = .create j parent prog :: k.history)
      (live : presence (k'.threads j) = .live)

theorem appearsDie {point} (acting : Acting k i) : Appears k (k.die i point) j := by
  have presence := presenceDie (j := j) point acting
  split at presence
  · rename_i own
    subst own
    exact .dies acting presence (scheduleHistory _ point)
  · exact .same presence

theorem appearsCreate {parent prog} : Appears k (k.threadCreate parent prog).1 j := by
  unfold threadCreate
  split
  · rename_i n found
    by_cases own : j = n
    · subst own
      refine .born rfl ?_
      simp [presence,plant]
    · refine .same ?_
      simp [own]
  · exact .same rfl

theorem moveAppears (coherent : Coherent k) (move : Move k₀ input k k') : Appears k k' j := by
  cases move with
  | openCall acting allowed => exact .same (presenceUpd ({ · with ipcCallTo := _ }) fun _ => rfl)
  | closeCall source acting =>
    refine .same (presenceUpd _ fun t => presenceState ?_)
    unfold closeCall
    split <;> rfl
  | send acting called => exact .same (presenceSend coherent acting)
  | recv src junk rsi acting => exact .same (presenceRecv coherent acting)
  | create prog acting call named => exact appearsCreate
  | grantChild child acting created => exact .same presenceGrant
  | grantCap acting call held => exact .same presenceGrant
  | grantIo acting call => exact .same presenceGrantIo
  | exit acting call => exact appearsDie (k := k₀.log _) acting
  | faultSend forwards => exact .same (presenceSend coherent forwards.acting)
  | faultRecv junk acting sent => exact .same (presenceRecv coherent acting)
  | kill acting verdict nonzero => exact appearsDie acting
  | tick user => exact .same (presenceTick coherent)
  | irq user call vec => exact .same presenceIrq
  | resumePlain mode current saved => exact .same presenceOnCpu
  | resumeSend mode current saved => exact .same presenceResumeSend
  | resumeRecv junk mode current saved => exact .same presenceResumeRecv
  | _ => exact .same rfl

theorem moveCreates (coherent : Coherent k) (move : Move k₀ input k k') : Creates k₀ input k k' := by
  obtain ⟨es,older,justified⟩ := moveGrows coherent move
  by_cases created : ∃ n parent prog, .create n parent prog ∈ es
  · obtain ⟨n,parent,prog,member⟩ := created
    obtain ⟨found,caller,tf,rfl,acting,call,named,before,after⟩ := justified _ member
    rw [threadCreate,found] at after
    exact .thread n caller tf prog found acting call named before after
  · refine .none es older fun d e member => ?_
    cases e with
    | create n parent prog => exact absurd ⟨n,parent,prog,member⟩ created
    | _ => rfl

/- Nobody comes back to life but by `thread_create`. -/
theorem moveGone {new : List Event} (coherent : Coherent k) (move : Move k₀ input k k')
    (older : k'.history = new ++ k.history) (uncreated : ∀ d, ∀ e ∈ new, e.creates d = false) (gone : k.Gone j) :
    k'.Gone j := by
  rw [presenceGone] at *
  cases moveAppears (j := j) coherent move with
  | same same => rwa [same]
  | dies acting dead died => simp [dead]
  | @born parent prog created live =>
    have same : new = [.create j parent prog] := List.append_cancel_right (older.symm.trans created)
    have creates := uncreated j (.create j parent prog) (by simp [same])
    simp [Event.creates] at creates

end
end Mukern
