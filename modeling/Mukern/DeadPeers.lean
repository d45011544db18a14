import Mukern.PagerAnswer

/-! Who waits for a thread that dies. `ipc_send_locked` looks at its destination once,
when it is called; `SYS_EXIT` and the verdict of the pager wake nobody, and the
page-fault path goes on to its receive when the pager is dead. -/
namespace Mukern
open Kernel

/- A death of the thread in slot `d` after the newest receive call of `j`. -/
def diedSince (j d : Slot) : List Event → Bool
  | [] => false
  | .recvCall r _ :: older => if r = j then false else diedSince j d older
  | .dead i :: older => i = d || diedSince j d older
  | _ :: older => diedSince j d older

/- No blocked sender names a slot without a thread, no receiver was waiting for a thread
when it died, and no faulting thread waits for a pager that is gone. -/
structure Attended (k : Kernel) : Prop where
  sending : ∀ j d, (k.threads j).state = .blocked → (k.threads j).ipcState = .sending → (k.threads j).ipcPeer = tid d → ¬ k.Gone d
  receiving : ∀ j d, (k.threads j).state = .blocked → (k.threads j).ipcState = .receiving → (k.threads j).ipcPeer = tid d →
    diedSince j d k.history = false
  faulting : ∀ j d, (k.threads j).state = .blocked → (k.threads j).saved = .recv .fault → (k.threads j).ipcPeer = tid d → ¬ k.Gone d

/- Thread `j` is blocked in a send to `i`, or in a receive from `i` alone. -/
def Kernel.waitsOn (k : Kernel) (j i : Slot) : Bool := (k.threads j).state = .blocked && (k.threads j).ipcPeer = tid i

def Kernel.mourned (k : Kernel) (i : Slot) (spared : Slot → Bool) : Bool :=
  (List.finRange 16).any fun j => k.waitsOn j i && !spared j

def Kernel.pagerGone (k : Kernel) : Bool :=
  match threadById k.pagerTid with
  | none => false
  | some p => k.Gone p

/- A step in which a thread dies while another waits for it, or in which a faulting
thread starts to wait for a dead pager. Spared is the pager that takes part in the
exchange just before the thread dies. -/
def Abandons (k : Kernel) : Input → Bool
  | .resume junk =>
    match k.current with
    | none => false
    | some i =>
      match (k.threads i).saved with
      | .send .fault =>
        match k.received i k.pagerTid junk with
        | none => k.pagerGone
        | some reply => reply.data0 ≠ 0 &&
            k.mourned i fun j => (k.threads i).irqPending = 0 && k.waitingSender i j k.pagerTid
      | .recv .fault =>
        (if (k.threads i).ipcState = .receiving then junk else (k.threads i).ipcBuf).data0 ≠ 0 && k.mourned i fun _ => false
      | _ => false
  | .trap tf hw =>
    match k.current with
    | none => false
    | some i =>
      if tf.vec = syscallVector then Syscall.ofRax tf.rax = .exit && k.mourned i fun _ => false
      else if tf.vec = vecPf && fromUser tf && 0 ≤ k.pagerTid && tid i ≠ k.pagerTid && k.forwardReturns i then
        if (k.threads i).irqPending = 0 then k.pagerGone
        else hw.junk.data0 ≠ 0 && k.mourned i fun j => tid j = k.pagerTid
      else false
  | .store _ _ => false

/- What the waiting of a thread consists in. -/
def waiting (t : Thread) : Option (IpcState × Int × Bool) :=
  if t.state = .blocked then some (t.ipcState,t.ipcPeer,t.saved = .recv .fault) else none

/- Nobody starts to wait and nobody dies. -/
structure Unbereaved (k k' : Kernel) : Prop where
  waits : ∀ j, waiting (k'.threads j) = none ∨ waiting (k'.threads j) = waiting (k.threads j)
  gone : ∀ d, k'.Gone d → k.Gone d
  grows : ∃ es, k'.history = es ++ k.history ∧ ∀ d, .dead d ∉ es

section
variable {k k' k'' : Kernel} {input : Input} {i j d : Slot} {h es : List Event} {e : Event} {t : Thread} {point : Context}

theorem diedCons (alive : e ≠ .dead d) (died : diedSince j d (e :: h) = true) : diedSince j d h = true := by
  unfold diedSince at died
  split at died
  · cases died
  · rename_i same
    cases same
    split at died
    · cases died
    · exact died
  · rename_i same
    cases same
    rcases Bool.or_eq_true_iff.mp died with own | older
    · exact absurd (by simpa using own) fun own => alive (congrArg Event.dead own)
    · exact older
  · rename_i same
    cases same
    exact died

theorem diedGrow (alive : .dead d ∉ es) (died : diedSince j d (es ++ h) = true) : diedSince j d h = true := by
  induction es with
  | nil => exact died
  | cons e es ih =>
    simp only [List.mem_cons,not_or] at alive
    exact ih alive.2 (diedCons (Ne.symm alive.1) died)

theorem Unbereaved.refl (k : Kernel) : Unbereaved k k := ⟨fun _ => .inr rfl,fun _ => id,[],rfl,by simp⟩

theorem Unbereaved.trans (first : Unbereaved k k') (second : Unbereaved k' k'') : Unbereaved k k'' := by
  obtain ⟨es,older,alive⟩ := first.grows
  obtain ⟨es',older',alive'⟩ := second.grows
  refine ⟨fun j => ?_,fun d gone => first.gone d (second.gone d gone),es' ++ es,by rw [older',older,List.append_assoc],?_⟩
  · rcases second.waits j with none | same
    · exact .inl none
    · rw [same]
      exact first.waits j
  · intro d member
    rcases List.mem_append.mp member with new | old
    · exact alive' d new
    · exact alive d old

theorem waitingSome {t' : Thread} (same : waiting t' = waiting t) (blocked : t'.state = .blocked) : t.state = .blocked ∧
    t.ipcState = t'.ipcState ∧ t.ipcPeer = t'.ipcPeer ∧ (t'.saved = .recv .fault → t.saved = .recv .fault) := by
  unfold waiting at same
  rw [if_pos blocked] at same
  split at same
  · rename_i there
    simp only [Option.some.injEq,Prod.mk.injEq,decide_eq_decide] at same
    exact ⟨there,same.1.symm,same.2.1.symm,same.2.2.mp⟩
  · cases same

theorem Attended.keep (attended : Attended k) (quiet : Unbereaved k k') : Attended k' := by
  obtain ⟨es,older,alive⟩ := quiet.grows
  have before : ∀ j, (k'.threads j).state = .blocked → waiting (k'.threads j) = waiting (k.threads j) := by
    intro j blocked
    rcases quiet.waits j with none | same
    · rw [waiting,if_pos blocked] at none
      cases none
    · exact same
  refine ⟨?_,?_,?_⟩
  · intro j d blocked sending peer gone
    obtain ⟨blocked',ipc,peer',_⟩ := waitingSome (before j blocked) blocked
    exact attended.sending j d blocked' (ipc.trans sending) (peer'.trans peer) (quiet.gone d gone)
  · intro j d blocked receiving peer
    obtain ⟨blocked',ipc,peer',_⟩ := waitingSome (before j blocked) blocked
    have none := attended.receiving j d blocked' (ipc.trans receiving) (peer'.trans peer)
    rw [older]
    by_contra died
    rw [diedGrow (alive d) (by simpa using died)] at none
    cases none
  · intro j d blocked saved peer gone
    obtain ⟨blocked',_,peer',saved'⟩ := waitingSome (before j blocked) blocked
    exact attended.faulting j d blocked' (saved' saved) (peer'.trans peer) (quiet.gone d gone)

theorem quietLog (alive : ∀ d, e ≠ .dead d) : Unbereaved k (k.log e) :=
  ⟨fun _ => .inr rfl,fun _ => id,[e],rfl,fun d member => alive d (List.mem_singleton.mp member).symm⟩

theorem Unbereaved.log (quiet : Unbereaved k k') (alive : ∀ d, e ≠ .dead d) : Unbereaved k (k'.log e) :=
  quiet.trans (quietLog alive)

theorem quietSame (waits : ∀ j, waiting (k'.threads j) = none ∨ waiting (k'.threads j) = waiting (k.threads j))
    (present : ∀ j, presence (k'.threads j) = presence (k.threads j)) (same : k'.history = k.history) : Unbereaved k k' := by
  refine ⟨waits,fun d gone => ?_,[],same,by simp⟩
  rw [presenceGone,← present d]
  exact presenceGone.mp gone

theorem quietUpd {f : Thread → Thread} (waits : waiting (f (k.threads i)) = none ∨ waiting (f (k.threads i)) = waiting (k.threads i))
    (present : presence (f (k.threads i)) = presence (k.threads i)) : Unbereaved k (k.upd i f) := by
  refine quietSame (fun j => ?_) (fun j => presenceUpdAt f present) rfl
  rw [updThreads]
  split
  · rename_i own
    rw [own]
    exact waits
  · exact .inr rfl

theorem waitingAwake (awake : t.state ≠ .blocked) : waiting t = none := if_neg awake

theorem waitingWake : waiting (threadWake t) = none := by
  refine waitingAwake ?_
  rw [wakeState]
  split
  · simp
  · assumption

variable (point) in
/- The acting thread leaves the CPU; all others wait as before. -/
theorem waitingLeave {f : Thread → Thread} (acting : Acting k i) (asleep : (f (k.threads i)).state ≠ .runnable) (other : j ≠ i) :
    waiting (((k.upd i f).schedule point).threads j) = waiting (k.threads j) := by
  have switch := scheduleSwitch point (parkableLeave acting asleep)
  have rest : (k.upd i f).threads j = k.threads j := if_neg other
  by_cases next : ((k.upd i f).schedule point).current = some j
  · obtain ⟨runnable,same⟩ := switch.next j next
    rw [same]
    rw [rest] at runnable
    rw [waitingAwake (by simp),waitingAwake (by simp [runnable])]
  · rw [switch.other j (acting.away other) next,rest]

theorem waitingOwn {f : Thread → Thread} (acting : Acting k i) (asleep : (f (k.threads i)).state ≠ .runnable) :
    ((k.upd i f).schedule point).threads i = parked point (f (k.threads i)) := by
  have switch := scheduleSwitch point (parkableLeave acting asleep)
  rw [switch.prev i acting.2,updThreads,if_pos rfl]

theorem quietDeliver {m : IpcMsg} : Unbereaved k (k.deliver i d m) := by
  unfold deliver
  refine Unbereaved.log (quietUpd (.inl waitingWake) presenceWake) ?_
  simp

theorem quietPickUp : Unbereaved k (k.pickUp i d) := by
  unfold pickUp
  refine Unbereaved.log (quietUpd (.inl waitingWake) presenceWake) ?_
  simp

theorem quietGrant {target : Option Slot} {ep : Int} : Unbereaved k (k.capGrantEndpoint target ep).1 := by
  unfold capGrantEndpoint
  split
  · exact .refl k
  · dsimp only
    split
    · exact Unbereaved.log (quietUpd (.inr rfl) rfl) (by simp)
    · exact quietUpd (.inr rfl) rfl

theorem quietGrantIo {target : Option Slot} {base len : BitVec 16} : Unbereaved k (k.capGrantIo target base len).1 := by
  unfold capGrantIo
  split
  · exact .refl k
  · dsimp only
    split
    · exact Unbereaved.log (quietUpd (.inr rfl) rfl) (by simp)
    · exact quietUpd (.inr rfl) rfl

theorem quietCreate {parent : Option Slot} {prog : Fin 12} : Unbereaved k (k.threadCreate parent prog).1 := by
  unfold threadCreate
  split
  · rename_i n found
    refine ⟨fun j => ?_,fun d gone => ?_,[.create n parent prog],rfl,by simp⟩
    · rw [logThreads,updThreads]
      split
      · exact .inl (waitingAwake (by simp [plant]))
      · exact .inr rfl
    · by_cases own : d = n
      · rw [own]
        exact freeThreadDead found
      · simpa [Gone,own] using gone
  · exact .refl k

theorem quietIrq {line : Fin 16} : Unbereaved k (k.irqNotify line) := by
  unfold irqNotify
  split
  · exact .refl k
  · split
    · refine Unbereaved.log (quietUpd ?_ ?_) (by simp)
      · dsimp only
        split
        · exact .inl waitingWake
        · exact .inr rfl
      · dsimp only
        split
        · exact presenceWake
        · rfl
    · exact .refl k

theorem quietTick (coherent : Coherent k) : Unbereaved k k.timerTick := by
  have parkable : ∀ p, k.current = some p → (k.threads p).state ≠ .runnable := by
    intro p current
    simp [coherent.currentRunning.mpr current]
  have switch : Switch { k with ticks := k.ticks + 1 } .tick k.timerTick := scheduleSwitch .tick parkable
  refine quietSame (fun j => ?_) (fun j => presenceTick coherent) switch.history
  by_cases prev : k.current = some j
  · left
    rw [switch.prev j prev]
    refine waitingAwake ?_
    simp [coherent.currentRunning.mpr prev]
  · by_cases next : k.timerTick.current = some j
    · left
      rw [(switch.next j next).2]
      exact waitingAwake (by simp)
    · right
      rw [switch.other j prev next]

theorem quietOnCpu (coherent : Coherent k) (current : k.current = some i) : Unbereaved k (k.onCpu i) := by
  have running := coherent.currentRunning.mpr current
  exact Unbereaved.trans (quietUpd (f := ({ · with saved := .running })) (.inl (waitingAwake (by simp [running]))) rfl)
    ⟨fun _ => .inr rfl,fun _ => id,[],rfl,by simp⟩

/- A thread blocks in a send to an occupied slot, or in a receive. -/
theorem Attended.block {f : Thread → Thread} (attended : Attended k) (coherent : Coherent k) (acting : Acting k i)
    (blocks : (f (k.threads i)).state = .blocked)
    (sends : (f (k.threads i)).ipcState = .sending → ∀ d, (f (k.threads i)).ipcPeer = tid d → ¬ k.Gone d)
    (receives : (f (k.threads i)).ipcState = .receiving → ∀ d, diedSince i d k.history = false)
    (faults : point = .recv .fault → ∀ d, (f (k.threads i)).ipcPeer = tid d → ¬ k.Gone d) :
    Attended ((k.upd i f).schedule point) := by
  have asleep : (f (k.threads i)).state ≠ .runnable := by simp [blocks]
  have own : ((k.upd i f).schedule point).threads i = parked point (f (k.threads i)) := waitingOwn acting asleep
  have present : ∀ d, ((k.upd i f).schedule point).Gone d → k.Gone d := by
    intro d gone
    rw [presenceGone,presenceBlock point coherent acting blocks] at gone
    exact presenceGone.mpr gone
  have history : ((k.upd i f).schedule point).history = k.history := (scheduleSwitch point (parkableLeave acting asleep)).history
  have rest : ∀ j, j ≠ i → (((k.upd i f).schedule point).threads j).state = .blocked → _ := fun j other =>
    waitingSome (waitingLeave point acting asleep other)
  refine ⟨?_,?_,?_⟩
  · intro j d blocked sending peer gone
    by_cases at' : j = i
    · subst at'
      rw [own] at sending peer
      exact sends (by simpa using sending) d (by simpa using peer) (present d gone)
    · obtain ⟨blocked',ipc,peer',_⟩ := rest j at' blocked
      exact attended.sending j d blocked' (ipc.trans sending) (peer'.trans peer) (present d gone)
  · intro j d blocked receiving peer
    rw [history]
    by_cases at' : j = i
    · subst at'
      rw [own] at receiving
      exact receives (by simpa using receiving) d
    · obtain ⟨blocked',ipc,peer',_⟩ := rest j at' blocked
      exact attended.receiving j d blocked' (ipc.trans receiving) (peer'.trans peer)
  · intro j d blocked saved peer gone
    by_cases at' : j = i
    · subst at'
      rw [own] at saved peer
      exact faults (by simpa using saved) d (by simpa using peer) (present d gone)
    · obtain ⟨blocked',_,peer',saved'⟩ := rest j at' blocked
      exact attended.faulting j d blocked' (saved' saved) (peer'.trans peer) (present d gone)

/- A thread dies for whom nobody waits. -/
theorem Attended.die (attended : Attended k) (acting : Acting k i) (alone : ∀ j, j ≠ i → k.waitsOn j i = false) :
    Attended (k.die i point) := by
  have acting' : Acting (k.log (.dead i)) i := acting
  have asleep : ({ (k.log (.dead i)).threads i with state := .dead } : Thread).state ≠ .runnable := by simp
  have own : (k.die i point).threads i = parked point { k.threads i with state := .dead } :=
    waitingOwn (f := ({ · with state := .dead })) acting' asleep
  have history : (k.die i point).history = .dead i :: k.history :=
    (scheduleSwitch point (parkableLeave (f := ({ · with state := .dead })) acting' asleep)).history
  have away : ∀ j, ((k.die i point).threads j).state = .blocked → j ≠ i := by
    rintro j blocked rfl
    rw [own] at blocked
    simp at blocked
  have rest : ∀ j, ((k.die i point).threads j).state = .blocked → _ := fun j blocked =>
    waitingSome (waitingLeave (f := ({ · with state := .dead })) point acting' asleep (away j blocked)) blocked
  have other : ∀ j d, ((k.die i point).threads j).state = .blocked → ((k.die i point).threads j).ipcPeer = tid d → d ≠ i := by
    rintro j d blocked peer rfl
    obtain ⟨blocked',_,peer',_⟩ := rest j blocked
    have waits := alone j (away j blocked)
    simp only [waitsOn,Bool.and_eq_false_iff,decide_eq_false_iff_not] at waits
    exact waits.elim (fun awake => awake blocked') fun apart => apart (peer'.trans peer)
  have present : ∀ d, d ≠ i → (k.die i point).Gone d → k.Gone d := by
    intro d apart gone
    rw [presenceGone,presenceDie point acting,if_neg apart] at gone
    exact presenceGone.mpr gone
  refine ⟨?_,?_,?_⟩
  · intro j d blocked sending peer gone
    obtain ⟨blocked',ipc,peer',_⟩ := rest j blocked
    exact attended.sending j d blocked' (ipc.trans sending) (peer'.trans peer) (present d (other j d blocked peer) gone)
  · intro j d blocked receiving peer
    obtain ⟨blocked',ipc,peer',_⟩ := rest j blocked
    have apart := other j d blocked peer
    simp only [history,diedSince,Bool.or_eq_false_iff,decide_eq_false_iff_not]
    exact ⟨Ne.symm apart,attended.receiving j d blocked' (ipc.trans receiving) (peer'.trans peer)⟩
  · intro j d blocked saved peer gone
    obtain ⟨blocked',_,peer',saved'⟩ := rest j blocked
    exact attended.faulting j d blocked' (saved' saved) (peer'.trans peer) (present d (other j d blocked peer) gone)

theorem attendedSend {dest : Int} {m : IpcMsg} {caller : SendCaller} (attended : Attended k) (coherent : Coherent k)
    (acting : Acting k i) : Attended (k.ipcSendLocked i dest m caller).1 := by
  have called : Attended (k.log (.sendCall i dest m)) := attended.keep (quietLog (by simp))
  have outcome := ipcSendOutcome k i dest m caller
  generalize k.ipcSendLocked i dest m caller = result at outcome
  cases outcome with
  | refused nobody => exact called.keep (quietLog (by simp))
  | met d named ready => exact called.keep (quietDeliver.trans (quietLog (by simp)))
  | staged d named present busy =>
    refine called.block (coherent.log _) acting rfl (fun _ e same => ?_) nofun nofun
    cases tidInj (named.symm.trans same)
    exact present

theorem attendedRecv {src : Int} {junk : IpcMsg} {caller : RecvCaller} (attended : Attended k) (coherent : Coherent k)
    (acting : Acting k i) (live : caller = .fault → k.received i src junk = none → ∀ d, src = tid d → ¬ k.Gone d) :
    Attended (k.ipcRecvLocked i src junk caller).1 := by
  have called : Attended (k.log (.recvCall i src)) := attended.keep (quietLog (by simp))
  have outcome := ipcRecvOutcome k i src junk caller
  have returned := recvReceived k i src junk caller
  generalize k.ipcRecvLocked i src junk caller = result at outcome returned
  cases outcome with
  | irq pending =>
    refine called.keep (Unbereaved.log (quietUpd (.inr rfl) rfl) (by simp))
  | taken snd quiet waiting => exact called.keep (quietPickUp.trans (quietLog (by simp)))
  | awaits quiet nobody =>
    refine called.block (coherent.log _) acting rfl nofun (fun _ d => ?_) fun same d peer => ?_
    · simp [diedSince]
    · cases same
      exact live rfl returned.symm d peer

theorem attendedVerdict {reply : IpcMsg} (attended : Attended k) (acting : Acting k i)
    (alone : reply.data0 ≠ 0 → ∀ j, j ≠ i → k.waitsOn j i = false) : Attended (k.faultVerdict i reply) := by
  have ended : Attended (k.log (.faultEnd i reply)) := attended.keep (quietLog (by simp))
  unfold faultVerdict
  dsimp only
  split
  · rename_i nonzero
    exact ended.die acting (alone nonzero)
  · exact ended

/- Whoever still waits for `i` when its receive has returned did so before, and is not
the sender that was picked up. -/
theorem recvWaitsOn {junk source : _} {m : IpcMsg} {caller : RecvCaller} (pager : 0 ≤ k.pagerTid)
    (received : k.ipcRecvLocked i k.pagerTid junk caller = (k',some (source,m))) (waits : k'.waitsOn j i = true) :
    k.waitsOn j i = true ∧ ¬ ((k.threads i).irqPending = 0 ∧ k.waitingSender i j k.pagerTid = true) := by
  have outcome := ipcRecvOutcome k i k.pagerTid junk caller
  rw [received] at outcome
  cases outcome with
  | irq pending =>
    refine ⟨?_,fun spared => pending spared.1⟩
    by_cases own : j = i
    · subst own
      simpa [waitsOn] using waits
    · simpa [waitsOn,own] using waits
  | taken snd quiet waiting =>
    have blocked : (k.threads snd).state = .blocked := by
      simp [waitingSender] at waiting
      exact waiting.1.1.1
    by_cases taken : j = snd
    · subst taken
      simp [waitsOn,pickUp,blocked] at waits
    · refine ⟨by simpa [waitsOn,pickUp,taken] using waits,fun spared => taken ?_⟩
      have named : ∀ t, k.waitingSender i t k.pagerTid = true → k.pagerTid = tid t := by
        intro t waits
        simp [waitingSender] at waits
        refine waits.2.resolve_left fun any => ?_
        rw [any] at pager
        exact absurd pager (by decide)
      exact tidInj ((named j spared.2).symm.trans (named snd waiting))

theorem attendedFaultRecv {junk : IpcMsg} (attended : Attended k) (coherent : Coherent k) (acting : Acting k i)
    (pager : 0 ≤ k.pagerTid) (live : k.received i k.pagerTid junk = none → k.pagerGone = false)
    (alone : ∀ m, k.received i k.pagerTid junk = some m → m.data0 ≠ 0 → ∀ j, k.waitsOn j i = true →
      (k.threads i).irqPending = 0 ∧ k.waitingSender i j k.pagerTid = true) : Attended (k.faultRecv i junk) := by
  have present : RecvCaller.fault = .fault → k.received i k.pagerTid junk = none → ∀ d, k.pagerTid = tid d → ¬ k.Gone d := by
    intro _ none d named
    have there := live none
    rw [pagerGone,named,threadByIdTid] at there
    simpa using there
  have after := attendedRecv attended coherent acting present
  have returned := recvReceived k i k.pagerTid junk .fault
  unfold faultRecv
  split
  · rename_i k' source reply result
    rw [result] at after returned
    refine attendedVerdict after (actingRecv acting result) fun nonzero j _ => ?_
    by_contra waits
    obtain ⟨before,spared⟩ := recvWaitsOn pager result (by simpa using waits)
    exact spared (alone reply returned.symm nonzero j before)
  · rename_i k' result
    rwa [result] at after

theorem mournedNone {spared : Slot → Bool} (safe : k.mourned i spared = false) (waits : k.waitsOn j i = true) : spared j = true := by
  simp only [mourned,List.any_eq_false,Bool.and_eq_true,not_and,Bool.not_eq_true,Bool.not_eq_false'] at safe
  exact safe j (List.mem_finRange j) waits

theorem quietFinish {rsi : Word} {source : Int} {m : IpcMsg} : Unbereaved k (k.sysRecvFinish i rsi source m) := by
  have copied : Unbereaved k (k.log (.copy i rsi true)) := quietLog (by simp)
  unfold sysRecvFinish
  dsimp only
  split
  · exact copied.trans ⟨fun _ => .inr rfl,fun _ => id,[],rfl,by simp⟩
  · rename_i memory _
    have written : Unbereaved (k.log (.copy i rsi true)) { k.log (.copy i rsi true) with memory := memory } :=
      ⟨fun _ => .inr rfl,fun _ => id,[],rfl,by simp⟩
    refine Unbereaved.log ((copied.trans written).trans (quietUpd ?_ ?_)) (by simp)
    · right
      dsimp only
      split <;> rfl
    · dsimp only
      split <;> rfl

theorem quietSendResume (coherent : Coherent k) (current : k.current = some i) : Unbereaved k ((k.onCpu i).ipcSendResume i) := by
  have running : ((k.onCpu i).threads i).state = .running := by
    simp [onCpu,coherent.currentRunning.mpr current]
  refine Unbereaved.log ((quietOnCpu coherent current).trans (quietUpd ?_ rfl)) (by simp)
  exact .inl (waitingAwake (by simp [running]))

theorem quietRecvResume {junk : IpcMsg} (coherent : Coherent k) (current : k.current = some i) :
    Unbereaved k ((k.onCpu i).ipcRecvResume i junk).1 := by
  have running : ((k.onCpu i).threads i).state = .running := by
    simp [onCpu,coherent.currentRunning.mpr current]
  unfold ipcRecvResume
  dsimp only
  split
  · refine Unbereaved.log ((quietOnCpu coherent current).trans (quietUpd ?_ rfl)) (by simp)
    exact .inl (waitingAwake (by simp [running]))
  · refine Unbereaved.log ((quietOnCpu coherent current).trans (quietUpd ?_ rfl)) (by simp)
    exact .inl (waitingAwake (by simp [running]))

theorem quietFields (threads : k'.threads = k.threads) (history : k'.history = k.history) : Unbereaved k k' := by
  refine quietSame (fun j => .inr ?_) (fun j => ?_) history
  · rw [threads]
  · rw [threads]

theorem attendedSysSend {tf : Trapframe} (attended : Attended k) (coherent : Coherent k) (acting : Acting k i) :
    Attended (k.sysSend i tf) := by
  unfold sysSend
  dsimp only
  split
  · have opened : Unbereaved k ((k.openCall i (cint tf.rdi)).log (.copy i tf.rsi false)) := by
      refine Unbereaved.log (Unbereaved.log (quietUpd ?_ ?_) ?_) ?_
      · exact .inr rfl
      · rfl
      · simp
      · simp
    have coherent' : Coherent ((k.openCall i (cint tf.rdi)).log (.copy i tf.rsi false)) := by
      refine Coherent.log (Coherent.log ?_ _) _
      exact coherent.quietUpd fun _ => rfl
    have acting' : Acting ((k.openCall i (cint tf.rdi)).log (.copy i tf.rsi false)) i := acting
    split
    · exact attended.keep (opened.trans (quietFields rfl rfl))
    · rename_i m _
      have sent : Attended (((k.openCall i (cint tf.rdi)).log (.copy i tf.rsi false)).ipcSendLocked i (cint tf.rdi) m .syscall).1 :=
        attendedSend (attended.keep opened) coherent' acting'
      split
      · rename_i k' r result
        rw [result] at sent
        exact sent.keep (quietLog (by simp))
      · rename_i k' result
        rwa [result] at sent
  · exact attended.keep (quietLog (by simp))

theorem attendedSysRecv {tf : Trapframe} {hw : Hardware} (attended : Attended k) (coherent : Coherent k) (acting : Acting k i) :
    Attended (k.sysRecv i tf hw) := by
  have after : Attended (k.ipcRecvLocked i (cint tf.rdi) hw.junk (.syscall tf.rsi)).1 :=
    attendedRecv attended coherent acting nofun
  unfold sysRecv
  split
  · rename_i k' source m result
    rw [result] at after
    exact after.keep quietFinish
  · rename_i k' result
    rwa [result] at after

theorem quietSpawn {tf : Trapframe} : Unbereaved k (k.sysSpawn i tf) := by
  have created : Unbereaved k (k.procSpawn (some i) (cint tf.rdi)).1 := by
    unfold procSpawn
    split
    · exact quietCreate
    · exact .refl k
  unfold sysSpawn
  split
  rename_i k' child result
  rw [result] at created
  dsimp only
  split
  · exact (created.trans quietGrant).log (by simp)
  · exact created.log (by simp)

/- System calls in which nobody blocks or dies. -/
theorem quietSyscall {tf : Trapframe} {hw : Hardware} (exits : Syscall.ofRax tf.rax ≠ .exit) (sends : Syscall.ofRax tf.rax ≠ .send)
    (receives : Syscall.ofRax tf.rax ≠ .recv) : Unbereaved k (k.doSyscall i tf hw) := by
  have entered : Unbereaved k (k.log (.syscall i tf)) := quietLog (by simp)
  have left : ∀ {k' : Kernel} (rax), Unbereaved (k.log (.syscall i tf)) k' → Unbereaved k (k'.sysRet i rax) := fun rax there =>
    (entered.trans there).log (by simp)
  have plain := fun rax => left rax (.refl (k.log (.syscall i tf)))
  unfold doSyscall
  dsimp only
  cases decoded : Syscall.ofRax tf.rax with
  | exit => exact absurd decoded exits
  | send => exact absurd decoded sends
  | recv => exact absurd decoded receives
  | spawn => exact entered.trans quietSpawn
  | map =>
    simp only [sysMap]
    split
    · exact left _ (quietFields rfl rfl)
    · exact left _ (quietFields rfl rfl)
  | setPager => exact left _ (Unbereaved.log (quietFields rfl rfl) (by simp))
  | outb | inb | inw =>
    simp only [sysPort]
    split
    · exact left _ (quietLog (by simp))
    · exact plain _
  | grantIo =>
    simp only [sysGrantIo]
    split
    · exact plain _
    · exact left _ quietGrantIo
  | irqRegister =>
    simp only [sysIrqRegister]
    split
    · exact left _ (Unbereaved.log (quietFields rfl rfl) (by simp))
    · exact plain _
  | mapPhys =>
    simp only [sysMapPhys]
    split
    · exact plain _
    · exact left _ (quietFields rfl rfl)
  | grantCap =>
    simp only [sysGrantCap]
    split
    · exact plain _
    · exact left _ quietGrant
  | _ => exact plain _

theorem attendedSyscall {tf : Trapframe} {hw : Hardware} (attended : Attended k) (coherent : Coherent k) (acting : Acting k i)
    (alone : Syscall.ofRax tf.rax = .exit → ∀ j, k.waitsOn j i = false) : Attended (k.doSyscall i tf hw) := by
  have entered : Attended (k.log (.syscall i tf)) := attended.keep (quietLog (by simp))
  have coherent' : Coherent (k.log (.syscall i tf)) := coherent.log _
  have acting' : Acting (k.log (.syscall i tf)) i := acting
  cases decoded : Syscall.ofRax tf.rax with
  | exit =>
    simp only [doSyscall,decoded]
    exact entered.die acting' fun j _ => alone decoded j
  | send =>
    simp only [doSyscall,decoded]
    exact attendedSysSend entered coherent' acting'
  | recv =>
    simp only [doSyscall,decoded]
    exact attendedSysRecv entered coherent' acting'
  | _ => exact attended.keep (quietSyscall (by simp [decoded]) (by simp [decoded]) (by simp [decoded]))

theorem pagerGoneSame (present : ∀ j, presence (k'.threads j) = presence (k.threads j)) (pager : k'.pagerTid = k.pagerTid) :
    k'.pagerGone = k.pagerGone := by
  unfold pagerGone
  rw [pager]
  split
  · rfl
  · rename_i p _
    rw [decide_eq_decide,presenceGone,presenceGone,present]

/- What the receive of the page-fault path returns at once, and from whom. -/
theorem receivedOf {junk m : IpcMsg} {src : Int} (returned : k.received i src junk = some m) :
    (k.threads i).irqPending ≠ 0 ∧ m = irqMsg junk ∨ (k.threads i).irqPending = 0 ∧ ∃ snd, k.waitingSender i snd src = true := by
  unfold received at returned
  split at returned
  · rename_i pending
    cases returned
    exact .inl ⟨pending,rfl⟩
  · rename_i quiet
    obtain ⟨snd,found,_⟩ := Option.map_eq_some_iff.mp returned
    exact .inr ⟨not_not.mp quiet,snd,List.find?_some (p := fun t => k.waitingSender i t src) found⟩

theorem receivedNone {junk : IpcMsg} {src : Int} (returned : k.received i src junk = none) : (k.threads i).irqPending = 0 := by
  unfold received at returned
  split at returned
  · cases returned
  · rename_i quiet
    exact not_not.mp quiet

theorem waitingNamed {snd : Slot} {src : Int} (specific : 0 ≤ src) (waits : k.waitingSender i snd src = true) :
    (k.threads snd).state = .blocked ∧ src = tid snd := by
  simp [waitingSender] at waits
  refine ⟨waits.1.1.1,waits.2.resolve_left fun any => ?_⟩
  rw [any] at specific
  exact absurd specific (by decide)

/- The receive after a forwarded fault whose send has returned: pager `d` is not blocked. -/
theorem attendedAsked {junk : IpcMsg} (attended : Attended k') (coherent : Coherent k') (acting : Acting k' i)
    (named : k.pagerTid = tid d) (pager : k'.pagerTid = k.pagerTid) (self : i ≠ d)
    (rest : ∀ j, j ≠ d → k'.threads j = k.threads j) (awake : (k'.threads d).state ≠ .blocked)
    (present : ∀ j, presence (k'.threads j) = presence (k.threads j))
    (safe : (if (k.threads i).irqPending = 0 then k.pagerGone
      else junk.data0 ≠ 0 && k.mourned i fun j => tid j = k.pagerTid) = false) : Attended (k'.faultRecv i junk) := by
  have specific : 0 ≤ k'.pagerTid := by
    rw [pager,named]
    exact tidNonneg d
  refine attendedFaultRecv attended coherent acting specific (fun none => ?_) fun m some nonzero j waits => ?_
  · have quiet := receivedNone none
    rw [rest i self] at quiet
    exact (pagerGoneSame present pager).trans ((if_pos quiet).symm.trans safe)
  · rcases receivedOf some with ⟨pending,rfl⟩ | ⟨_,snd,waiting⟩
    · rw [rest i self] at pending
      have harmless := (if_neg pending).symm.trans safe
      have harmful : junk.data0 ≠ 0 := nonzero
      simp only [harmful,ne_eq,not_false_eq_true,decide_true,Bool.true_and] at harmless
      have blocked : (k'.threads j).state = .blocked := by
        unfold waitsOn at waits
        simp at waits
        exact waits.1
      have other : j ≠ d := by
        rintro rfl
        exact awake blocked
      have before : k.waitsOn j i = true := by
        rw [waitsOn,← rest j other]
        exact waits
      have spared := of_decide_eq_true (mournedNone harmless before)
      exact absurd (tidInj (spared.trans named)) other
    · obtain ⟨blocked,sender⟩ := waitingNamed specific waiting
      rw [pager,named] at sender
      rw [← tidInj sender] at blocked
      exact absurd blocked awake

/- A fault is forwarded to pager `d`. -/
theorem attendedForward {hw : Hardware} (attended : Attended k) (coherent : Coherent k) (acting : Acting k i)
    (named : k.pagerTid = tid d) (other : tid i ≠ k.pagerTid)
    (safe : k.forwardReturns i = true → (if (k.threads i).irqPending = 0 then k.pagerGone
      else hw.junk.data0 ≠ 0 && k.mourned i fun j => tid j = k.pagerTid) = false) : Attended (k.faultForward i hw) := by
  have self : i ≠ d := by
    rintro rfl
    exact other named.symm
  have forwarded : Attended (k.log (.fault i hw.cr2 k.pagerTid)) := attended.keep (quietLog (by simp))
  have coherent₁ : Coherent (k.log (.fault i hw.cr2 k.pagerTid)) := coherent.log _
  have acting₁ : Acting (k.log (.fault i hw.cr2 k.pagerTid)) i := acting
  have sent : Attended ((k.log (.fault i hw.cr2 k.pagerTid)).ipcSendLocked i k.pagerTid (faultMsg i hw.cr2) .fault).1 :=
    attendedSend forwarded coherent₁ acting₁
  have sentCoherent : Coherent ((k.log (.fault i hw.cr2 k.pagerTid)).ipcSendLocked i k.pagerTid (faultMsg i hw.cr2) .fault).1 :=
    sendCoherent coherent₁ acting₁
  have outcome := ipcSendOutcome (k.log (.fault i hw.cr2 k.pagerTid)) i k.pagerTid (faultMsg i hw.cr2) .fault
  have returns : k.forwardReturns i = (decide (k.Gone d) || k.receiverReady d (tid i)) := by
    rw [forwardReturns,named,threadByIdTid]
  unfold faultForward
  dsimp only [logPagerTid]
  generalize (k.log (.fault i hw.cr2 k.pagerTid)).ipcSendLocked i k.pagerTid (faultMsg i hw.cr2) .fault = result
    at outcome sent sentCoherent
  cases outcome with
  | refused nobody =>
    have gone : k.Gone d := nobody d named
    have awake : (k.threads d).state ≠ .blocked := by
      rcases gone with unused | dead
      · simp [unused]
      · simp [dead]
    exact attendedAsked sent sentCoherent acting₁ named rfl self (fun _ _ => rfl) awake (fun _ => rfl)
      (safe (returns.trans (by simp [gone])))
  | met e meant ready =>
    cases tidInj (named.symm.trans meant)
    have ready' : k.receiverReady d (tid i) = true := ready
    have blocked : (k.threads d).state = .blocked := by
      unfold receiverReady at ready'
      simp at ready'
      exact ready'.1.1
    refine attendedAsked sent sentCoherent acting₁ named rfl self (fun j apart => if_neg apart) ?_ (fun j => ?_)
      (safe (returns.trans (by simp [ready'])))
    · simp [deliver,blocked]
    · exact presenceDeliver (k := (k.log (.fault i hw.cr2 k.pagerTid)).log (.sendCall i k.pagerTid (faultMsg i hw.cr2)))
  | staged e meant there busy => exact sent

/- The thread on the CPU waits for nobody, whatever its record says of the past. -/
theorem waitsOnRest (current : k.current = some i) (coherent : Coherent k) (rest : ∀ j, j ≠ i → k'.threads j = k.threads j)
    (running : (k'.threads i).state = .running) : k'.waitsOn j d = k.waitsOn j d ∧ ∀ src, k'.waitingSender d j src = k.waitingSender d j src := by
  by_cases own : j = i
  · subst own
    have before := coherent.currentRunning.mpr current
    simp [waitsOn,waitingSender,running,before]
  · simp [waitsOn,waitingSender,rest j own]

/- What a receive finds does not depend on the records of the threads that are awake. -/
theorem receivedSame {junk : IpcMsg} (waits : ∀ j src, k'.waitingSender i j src = k.waitingSender i j src)
    (pending : (k'.threads i).irqPending = (k.threads i).irqPending) (buffers : ∀ j, (k'.threads j).ipcBuf = (k.threads j).ipcBuf)
    (src : Int) : k'.received i src junk = k.received i src junk := by
  have found : k'.findWaitingSender i src = k.findWaitingSender i src := by
    unfold findWaitingSender
    congr 1
    funext j
    exact waits j src
  simp only [received,pending,found,buffers]

theorem attendedResumeSend {junk : IpcMsg} (attended : Attended k) (coherent : Coherent k) (peers : PathPeers k)
    (mode : k.mode = .resume) (current : k.current = some i) (saved : (k.threads i).saved = .send .fault)
    (safe : Abandons k (.resume junk) = false) : Attended (((k.onCpu i).ipcSendResume i).faultRecv i junk) := by
  have running : ((k.onCpu i).threads i).state = .running := by
    simp [onCpu,coherent.currentRunning.mpr current]
  have resumed := quietSendResume coherent current
  have coherent' : Coherent ((k.onCpu i).ipcSendResume i) :=
    have move : Move k (.resume junk) k ((k.onCpu i).ipcSendResume i) := .resumeSend mode current saved
    moveCoherent coherent coherent move
  have specific : 0 ≤ k.pagerTid := (peers.peers i (.send .fault) (k.threads i).ipcPeer (by simp [faultPoint,saved])).1
  have acting : Acting ((k.onCpu i).ipcSendResume i) i := ⟨rfl,current⟩
  have rest : ∀ j, j ≠ i → ((k.onCpu i).ipcSendResume i).threads j = k.threads j := by
    intro j other
    simp [ipcSendResume,onCpu,other]
  have own : (((k.onCpu i).ipcSendResume i).threads i).state = .running := by
    simpa [ipcSendResume] using running
  have kept : ∀ j, (((k.onCpu i).ipcSendResume i).threads j).ipcBuf = (k.threads j).ipcBuf ∧
      (((k.onCpu i).ipcSendResume i).threads j).irqPending = (k.threads j).irqPending := by
    intro j
    by_cases at' : j = i
    · subst at'
      simp [ipcSendResume,onCpu]
    · rw [rest j at']
      exact ⟨rfl,rfl⟩
  have waits : ∀ j src, ((k.onCpu i).ipcSendResume i).waitingSender i j src = k.waitingSender i j src := fun j =>
    (waitsOnRest (d := i) current coherent rest own).2
  have same : ∀ src, ((k.onCpu i).ipcSendResume i).received i src junk = k.received i src junk :=
    receivedSame waits (kept i).2 fun j => (kept j).1
  have present : ∀ j, presence (((k.onCpu i).ipcSendResume i).threads j) = presence (k.threads j) := fun _ => presenceResumeSend
  simp only [Abandons,current,saved] at safe
  refine attendedFaultRecv (attended.keep resumed) coherent' acting specific (fun none => ?_) fun m some nonzero j waiting => ?_
  · have none' : k.received i k.pagerTid junk = .none := (same k.pagerTid).symm.trans none
    rw [none'] at safe
    exact (pagerGoneSame present rfl).trans safe
  · have some' : k.received i k.pagerTid junk = .some m := (same k.pagerTid).symm.trans some
    rw [some'] at safe
    simp only [ne_eq,nonzero,not_false_eq_true,decide_true,Bool.true_and] at safe
    have spared := mournedNone safe ((waitsOnRest (d := i) current coherent rest own).1.symm.trans waiting)
    simp only [Bool.and_eq_true,decide_eq_true_eq] at spared
    exact ⟨(kept i).2.trans spared.1,(waits j k.pagerTid).trans spared.2⟩

theorem attendedResumeRecv {junk : IpcMsg} (attended : Attended k) (coherent : Coherent k) (current : k.current = some i)
    (saved : (k.threads i).saved = .recv .fault) (safe : Abandons k (.resume junk) = false) :
    Attended (((k.onCpu i).ipcRecvResume i junk).1.faultVerdict i ((k.onCpu i).ipcRecvResume i junk).2.2) := by
  have acting : Acting ((k.onCpu i).ipcRecvResume i junk).1 i := by
    unfold ipcRecvResume
    dsimp only
    split <;> exact ⟨rfl,current⟩
  have rest : ∀ j, j ≠ i → ((k.onCpu i).ipcRecvResume i junk).1.threads j = k.threads j := by
    intro j other
    unfold ipcRecvResume
    dsimp only
    split <;> simp [onCpu,other]
  have verdict : ((k.onCpu i).ipcRecvResume i junk).2.2.data0 =
      (if (k.threads i).ipcState = .receiving then junk else (k.threads i).ipcBuf).data0 := by
    simp only [ipcRecvResume,onCpu,updThreads,if_true]
    split
    · rfl
    · rfl
  simp only [Abandons,current,saved,← verdict] at safe
  refine attendedVerdict (attended.keep (quietRecvResume coherent current)) acting fun nonzero j other => ?_
  simp only [ne_eq,nonzero,not_false_eq_true,decide_true,Bool.true_and] at safe
  by_contra waits
  have before : k.waitsOn j i = true := by
    simpa [waitsOn,rest j other] using waits
  exact absurd (mournedNone safe before) (by simp)

theorem attendedResume {junk : IpcMsg} (attended : Attended k) (coherent : Coherent k) (peers : PathPeers k) (mode : k.mode = .resume)
    (safe : Abandons k (.resume junk) = false) : Attended (k.resume junk) := by
  cases current : k.current with
  | none =>
    simp only [resume,current]
    exact attended.keep (quietFields rfl rfl)
  | some i =>
    have onCpu := quietOnCpu coherent current
    have running : ((k.onCpu i).threads i).state = .running := by
      simp [Kernel.onCpu,coherent.currentRunning.mpr current]
    cases saved : (k.threads i).saved with
    | send caller =>
      cases caller with
      | syscall =>
        have resumed : Unbereaved k ((k.onCpu i).ipcSendResume i) := by
          refine Unbereaved.log (onCpu.trans (quietUpd ?_ rfl)) (by simp)
          exact .inl (waitingAwake (by simp [running]))
        simp only [resume,current,saved]
        exact attended.keep (resumed.log (by simp))
      | fault =>
        have resumed := attendedResumeSend attended coherent peers mode current saved safe
        simpa only [resume,current,saved] using resumed
    | recv caller =>
      cases caller with
      | syscall rsi =>
        simp only [resume,current,saved]
        exact attended.keep ((quietRecvResume coherent current).trans quietFinish)
      | fault =>
        have resumed := attendedResumeRecv attended coherent current saved safe
        simpa only [resume,current,saved] using resumed
    | _ =>
      simp only [resume,current,saved]
      exact attended.keep onCpu

theorem attendedStep (attended : Attended k) (coherent : Coherent k) (peers : PathPeers k) (enabled : k.Enabled input)
    (safe : Abandons k input = false) : Attended (k.step input) := by
  cases input with
  | resume junk => exact attendedResume attended coherent peers enabled safe
  | store va b =>
    simp only [step]
    split
    · exact attended.keep (quietFields rfl rfl)
    · exact attended
  | trap tf hw =>
    obtain ⟨user,_⟩ := enabled
    simp only [step,isrHandler]
    split
    · exact attended.keep (quietTick coherent)
    · split
      · rename_i vec
        cases current : k.current with
        | none => exact attended
        | some i =>
          refine attendedSyscall attended coherent ⟨user,current⟩ fun exits j => ?_
          simp only [Abandons,current,if_pos vec,exits,decide_true,Bool.true_and] at safe
          by_contra waits
          exact absurd (mournedNone safe (by simpa using waits)) (by simp)
      · rename_i notTimer notCall
        split
        · rename_i vec
          unfold pageFault
          cases current : k.current with
          | none => exact attended.keep (quietFields rfl rfl)
          | some i =>
            dsimp only
            split
            · rename_i forwarded
              obtain ⟨⟨ring3,low⟩,other⟩ : (fromUser tf = true ∧ 0 ≤ k.pagerTid) ∧ tid i ≠ k.pagerTid := by
                simpa using forwarded
              obtain ⟨d,named⟩ : ∃ d, k.pagerTid = tid d := by
                refine peers.registered.resolve_left fun unset => ?_
                rw [unset] at low
                exact absurd low (by decide)
              refine attendedForward attended coherent ⟨user,current⟩ named other fun returns => ?_
              have notCall' : vecPf ≠ syscallVector := by decide
              simpa [Abandons,current,notCall',vec,ring3,low,other,returns] using safe
            · exact attended.keep (quietFields rfl rfl)
        · split
          · exact attended.keep (quietFields rfl rfl)
          · split
            · exact attended.keep quietIrq
            · exact attended

/- In a run that abandons nobody, nobody waits on the dead. -/
theorem nobodyAbandoned (h : Transition.Reach machine (fun k input => Abandons k input = false) k) : Attended k := by
  have known : ∀ k, Transition.Reach machine (fun k input => Abandons k input = false) k → Coherent k ∧ PathPeers k :=
    fun _ there => ⟨reachCoherent there,reachPeers there⟩
  refine h.invariantUnder Attended known ?_ ?_
  · rintro _ ⟨memory,stackBase,rfl⟩
    have empty : Attended (schedInit memory stackBase) := ⟨nofun,nofun,nofun⟩
    unfold boot procSpawn
    split
    · exact empty.keep quietCreate
    · exact empty
  · intro k input known attended enabled safe
    exact attendedStep attended known.1 known.2 enabled safe

/- Thread 1 exits while init runs on. -/
theorem nobodyAbandonedExit :
    Attended (Transition.run machine Script.start [.tick,.go,.call 4 1 0 0,.tick,.go,.call 0 0 0 0,.go]) :=
  nobodyAbandoned (Transition.Reach.run (S := machine) (.start ⟨Script.memory,0x110000,rfl⟩) (by decide +kernel))

/- Thread 1 sends to init, which exits. -/
def Script.orphaned : List Input :=
  [.tick,.go,.call 4 1 0 0,.tick,.go,.call 2 0 Script.userPage 0,.go,.call 0 0 0 0]

theorem orphanedSender : ∃ k, Reachable k ∧ ¬ Attended k := by
  refine ⟨Transition.run machine Script.start Script.orphaned,Script.reach (by decide +kernel),fun attended => ?_⟩
  exact attended.sending 1 0 (by decide +kernel) (by decide +kernel) (by decide +kernel) (by decide +kernel)

end
end Mukern
