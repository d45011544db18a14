import Mukern.DeadPeers
import Mukern.FaultIsolation

/-! The order in which a receive from IPC_ANY meets the threads that wait to send.
`find_waiting_sender` looks through the thread table from slot 0: there is no queue,
and a sender in a lower slot comes first however often it has been served. -/
namespace Mukern
open Kernel

/- The source named by the last call of `ipc_recv_locked` for `r`. -/
def lastSource (r : Slot) : List Event → Option Int
  | [] => none
  | .recvCall i src :: older => if i = r then some src else lastSource r older
  | _ :: older => lastSource r older

/- What the receives of `r` from IPC_ANY have returned, the latest first. -/
def servedAny (r : Slot) : List Event → List Int
  | [] => []
  | .recvRet i source _ :: older => if i = r ∧ lastSource r older = some ipcAny then source :: servedAny r older else servedAny r older
  | _ :: older => servedAny r older

/- `r` sleeps, or has been woken, in a receive from IPC_ANY. -/
def OnAny (k : Kernel) (r : Slot) : Prop := (∃ c, (k.threads r).saved = .recv c) ∧ lastSource r k.history = some ipcAny

def Event.receives (r : Slot) : Event → Bool
  | .recvCall i _ => i = r
  | .recvRet i _ _ => i = r
  | _ => false

/- From `k` to `k'` the receives of `r` from IPC_ANY return only what comes before `s`,
apart from one that had begun before. -/
def InTurn (s r : Slot) (k k' : Kernel) : Prop :=
  ∃ served, servedAny r k'.history = served ++ servedAny r k.history ∧ (OnAny k' r → OnAny k r ∧ served = []) ∧
    (¬ OnAny k r → ∀ f ∈ served, f < tid s) ∧ ∀ f ∈ served.dropLast, f < tid s

section
variable {k₀ k k' k'' : Kernel} {input : Input} {i j s r : Slot} {e : Event} {p h : List Event}

theorem lastSourceQuiet (quiet : ∀ e ∈ p, e.receives r = false) : lastSource r (p ++ h) = lastSource r h := by
  induction p with
  | nil => rfl
  | cons e p ih =>
    have rest := ih fun e member => quiet e (List.mem_cons_of_mem _ member)
    have first := quiet e List.mem_cons_self
    cases e with
    | recvCall i src =>
      have other : i ≠ r := by simpa [Event.receives] using first
      simpa [lastSource,other] using rest
    | _ => exact rest

theorem servedQuiet (quiet : ∀ e ∈ p, e.receives r = false) : servedAny r (p ++ h) = servedAny r h := by
  induction p with
  | nil => rfl
  | cons e p ih =>
    have rest := ih fun e member => quiet e (List.mem_cons_of_mem _ member)
    have first := quiet e List.mem_cons_self
    cases e with
    | recvRet i source m =>
      have other : i ≠ r := by simpa [Event.receives] using first
      simpa [servedAny,other] using rest
    | _ => exact rest

theorem InTurn.refl (k : Kernel) : InTurn s r k k := ⟨[],rfl,fun onAny => ⟨onAny,rfl⟩,by simp,by simp⟩

theorem InTurn.trans (first : InTurn s r k k') (second : InTurn s r k' k'') : InTurn s r k k'' := by
  obtain ⟨served,returned,closed,fresh,late⟩ := first
  obtain ⟨served',returned',closed',fresh',late'⟩ := second
  refine ⟨served' ++ served,by rw [returned',returned,List.append_assoc],?_,?_,?_⟩
  · intro onAny
    obtain ⟨between,none'⟩ := closed' onAny
    obtain ⟨before,none⟩ := closed between
    exact ⟨before,by simp [none',none]⟩
  · intro deaf f member
    rcases List.mem_append.mp member with new | old
    · exact fresh' (fun between => deaf (closed between).1) f new
    · exact fresh deaf f old
  · cases served with
    | nil =>
      intro f member
      exact late' f (by simpa using member)
    | cons g served =>
      have deaf : ¬ OnAny k' r := fun between => by simpa using (closed between).2
      intro f member
      rw [List.dropLast_append_of_ne_nil (by simp)] at member
      rcases List.mem_append.mp member with new | old
      · exact fresh' deaf f new
      · exact late f old

/- Nothing that concerns the receives of `r` happens. -/
theorem quietTurn (older : k'.history = p ++ k.history) (quiet : ∀ e ∈ p, e.receives r = false)
    (saved : ∀ c, (k'.threads r).saved = .recv c → (k.threads r).saved = .recv c) : InTurn s r k k' := by
  refine ⟨[],by rw [older,servedQuiet quiet]; rfl,?_,by simp,by simp⟩
  rintro ⟨⟨c,waits⟩,source⟩
  rw [older,lastSourceQuiet quiet] at source
  exact ⟨⟨⟨c,saved c waits⟩,source⟩,rfl⟩

theorem InTurn.log (turn : InTurn s r k k') (quiet : e.receives r = false) : InTurn s r k (k'.log e) :=
  turn.trans (quietTurn (p := [e]) rfl (by simpa using quiet) fun _ => id)

theorem InTurn.upd {f : Thread → Thread} (turn : InTurn s r k k')
    (saved : ∀ t c, (f t).saved = .recv c → t.saved = .recv c) : InTurn s r k (k'.upd i f) := by
  refine turn.trans (quietTurn (p := []) rfl (by simp) fun c waits => ?_)
  rw [updThreads] at waits
  split at waits
  · rename_i own
    rw [own]
    exact saved _ c waits
  · exact waits

theorem savedSwitch {point : Context} (switch : Switch k point k') {c} (waits : (k'.threads r).saved = .recv c) :
    (k.current = some r ∧ point = .recv c) ∨ (k.threads r).saved = .recv c := by
  by_cases prev : k.current = some r
  · rw [switch.prev r prev,parkedSaved] at waits
    exact .inl ⟨prev,waits⟩
  · by_cases next : k'.current = some r
    · obtain ⟨_,same⟩ := switch.next r next
      rw [same] at waits
      exact .inr waits
    · rw [switch.other r prev next] at waits
      exact .inr waits

theorem turnSwitch {point : Context} (switch : Switch k point k') (elsewhere : k.current = some r → ∀ c, point ≠ .recv c) : InTurn s r k k' := by
  refine quietTurn (p := []) switch.history (by simp) fun c waits => ?_
  rcases savedSwitch switch waits with ⟨current,parks⟩ | same
  · exact absurd parks (elsewhere current c)
  · exact same

theorem turnCurrent {point : Context} {f : Thread → Thread} (acting : Acting k i) (asleep : (f (k.threads i)).state ≠ .runnable)
    (saved : ∀ t c, (f t).saved = .recv c → t.saved = .recv c) (plain : r = i → ∀ c, point ≠ .recv c) :
    InTurn s r k ((k.upd i f).schedule point) := by
  have updated : InTurn s r k (k.upd i f) := InTurn.upd (.refl k) saved
  refine updated.trans (turnSwitch (scheduleSwitch point (parkableLeave acting asleep)) fun current => plain ?_)
  exact (Option.some.inj (acting.2.symm.trans current)).symm

theorem turnSend {dest m caller} (acting : Acting k i) : InTurn s r k (k.ipcSendLocked i dest m caller).1 := by
  have called : InTurn s r k (k.log (.sendCall i dest m)) := (InTurn.refl k).log rfl
  have outcome := ipcSendOutcome k i dest m caller
  generalize k.ipcSendLocked i dest m caller = result at outcome
  cases outcome with
  | refused nobody => exact called.log rfl
  | met d named ready =>
    refine .log (.log (called.upd fun t c waits => ?_) rfl) rfl
    simpa using waits
  | staged d named present busy =>
    have asleep : ThreadState.blocked ≠ .runnable := by simp
    exact called.trans (turnCurrent (f := ({ · with ipcBuf := m, ipcState := .sending, ipcPeer := dest, state := .blocked })) (actingLog acting) asleep (fun _ _ waits => waits) fun _ c => by simp)

theorem turnDie {point : Context} (acting : Acting k i) (plain : ∀ c, point ≠ .recv c) : InTurn s r k (k.die i point) := by
  have dead : ThreadState.dead ≠ .runnable := by simp
  have logged : InTurn s r k (k.log (.dead i)) := (InTurn.refl k).log rfl
  exact logged.trans (turnCurrent (f := ({ · with state := .dead })) (actingLog acting) dead (fun _ _ waits => waits) fun _ => plain)

theorem turnGrant {t ep} : InTurn s r k (k.capGrantEndpoint t ep).1 := by
  unfold capGrantEndpoint
  split
  · exact .refl k
  · dsimp only
    split
    · exact .log (.upd (.refl k) fun _ _ waits => waits) rfl
    · exact .upd (.refl k) fun _ _ waits => waits

theorem turnGrantIo {t base len} : InTurn s r k (k.capGrantIo t base len).1 := by
  unfold capGrantIo
  split
  · exact .refl k
  · dsimp only
    split
    · exact .log (.upd (.refl k) fun _ _ waits => waits) rfl
    · exact .upd (.refl k) fun _ _ waits => waits

theorem turnCreate {parent prog} : InTurn s r k (k.threadCreate parent prog).1 := by
  unfold threadCreate
  split
  · exact .log (.upd (.refl k) fun _ _ waits => by cases waits) rfl
  · exact .refl k

theorem turnIrq {line} : InTurn s r k (k.irqNotify line) := by
  unfold irqNotify
  split
  · exact .refl k
  · split
    · refine .log (.upd (.refl k) fun t c waits => ?_) rfl
      dsimp only at waits
      split at waits
      · simpa using waits
      · exact waits
    · exact .refl k

theorem turnTick (coherent : Coherent k) : InTurn s r k k.timerTick := by
  have parkable : ∀ p, k.current = some p → (k.threads p).state ≠ .runnable := by
    intro p current
    simp [coherent.currentRunning.mpr current]
  have switch : Switch { k with ticks := k.ticks + 1 } .tick k.timerTick := scheduleSwitch .tick parkable
  have same : InTurn s r k { k with ticks := k.ticks + 1 } := quietTurn (p := []) rfl (by simp) fun _ => id
  exact same.trans (turnSwitch switch fun _ c => by simp)

theorem turnOnCpu : InTurn s r k (k.onCpu i) := by
  have saved : InTurn s r k (k.upd i ({ · with saved := .running })) := .upd (.refl k) fun _ _ waits => by cases waits
  exact saved

/- The scan from slot 0 stops at `s` or before. -/
theorem scanFirst {m : Slot} (found : k.findWaitingSender r ipcAny = some m) (waits : k.waitingSender r s ipcAny) : m ≤ s := by
  obtain ⟨_,i,before,at',earlier⟩ := List.find?_eq_some_iff_getElem.mp found
  simp only [List.getElem_finRange] at at' earlier
  by_contra above
  have below : s.val < i := by
    subst at'
    exact not_le.mp above
  have refused := earlier s.val below
  simp [waits] at refused

/- A receive of `r` that returns at once. -/
theorem turnReturned {src source : Int} {m : IpcMsg} (awake : (k'.threads r).saved = .running)
    (older : k'.history = .recvRet r source m :: (p ++ .recvCall r src :: k.history)) (quiet : ∀ e ∈ p, e.receives r = false)
    (first : src = ipcAny → source < tid s) : InTurn s r k k' := by
  have deaf' : ¬ OnAny k' r := fun ⟨⟨c,waits⟩,_⟩ => by simp [awake] at waits
  have named : lastSource r (p ++ .recvCall r src :: k.history) = some src := by
    rw [lastSourceQuiet quiet]
    simp [lastSource]
  have rest : servedAny r (p ++ .recvCall r src :: k.history) = servedAny r k.history := servedQuiet quiet
  by_cases any : src = ipcAny
  · refine ⟨[source],?_,fun onAny => absurd onAny deaf',fun _ => by simpa using first any,by simp⟩
    subst any
    rw [older]
    simp [servedAny,named,rest]
  · refine ⟨[],?_,fun onAny => absurd onAny deaf',by simp,by simp⟩
    rw [older]
    simp [servedAny,named,any,rest]

/- A receive of `r` while `s` waits for `r`, before it and after it. -/
theorem turnRecv {src junk caller} (coherent : Coherent k) (acting : Acting k i) (waits : k.waitingSender r s ipcAny)
    (waits' : (k.ipcRecvLocked i src junk caller).1.waitingSender r s ipcAny) : InTurn s r k (k.ipcRecvLocked i src junk caller).1 := by
  have onCpu := (acting.onCpu coherent).1
  have blocks : ThreadState.blocked ≠ .runnable := by simp
  by_cases own : i = r
  · subst own
    by_cases quiet : (k.threads i).irqPending = 0
    · cases found : k.findWaitingSender i src with
      | some m =>
        rw [recvTaken quiet found] at waits' ⊢
        refine turnReturned (p := [.handOver m i]) ?_ rfl (by simp [Event.receives]) fun any => ?_
        · simp only [pickUp,logThreads,updThreads]
          split
          · rename_i same
            rw [wakeSaved,← same]
            exact onCpu
          · exact onCpu
        · subst any
          have other : m ≠ s := by
            rintro rfl
            simp [waitingSender,pickUp] at waits'
          have below : m < s := lt_of_le_of_ne (scanFirst found waits) other
          have order : m.val < s.val := below
          simp only [tid]
          omega
      | none =>
        rw [recvAwaits quiet found] at waits' ⊢
        have particular : src ≠ ipcAny := by
          rintro rfl
          have nobody := List.find?_eq_none.mp found s (List.mem_finRange s)
          exact nobody waits
        have history : (((k.log (.recvCall i src)).await i src).schedule (.recv caller)).history = .recvCall i src :: k.history :=
          scheduleHistory _ _
        refine ⟨[],by rw [history]; rfl,fun onAny => ?_,by simp,by simp⟩
        have source := onAny.2
        rw [history] at source
        simp [lastSource,particular] at source
    · rw [recvIrq quiet] at waits' ⊢
      refine turnReturned (p := []) (by simp [onCpu]) rfl (by simp) fun _ => ?_
      have := tidNonneg s
      simp only [ipcIrqSender]
      omega
  · have called : InTurn s r k (k.log (.recvCall i src)) := (InTurn.refl k).log (by simpa [Event.receives] using own)
    have outcome := ipcRecvOutcome k i src junk caller
    generalize k.ipcRecvLocked i src junk caller = result at outcome
    cases outcome with
    | irq pending => exact .log (called.upd fun _ _ waits => waits) (by simpa [Event.receives] using own)
    | taken m quiet waiting =>
      refine .log (.log (called.upd fun t c waits => ?_) rfl) (by simpa [Event.receives] using own)
      simpa using waits
    | awaits quiet nobody =>
      exact called.trans (turnCurrent (f := ({ · with ipcState := .receiving, ipcPeer := src, state := .blocked })) (actingLog acting) blocks
        (fun _ _ waits => waits) fun same => absurd same.symm own)

/- A receive of `r` that had begun before returns. -/
theorem turnResumed {caller junk} (saved : (k.threads i).saved = .recv caller) : InTurn s r k ((k.onCpu i).ipcRecvResume i junk).1 := by
  obtain ⟨source,m,history,awake⟩ : ∃ source m, ((k.onCpu i).ipcRecvResume i junk).1.history = .recvRet i source m :: k.history ∧
      ∀ j, (((k.onCpu i).ipcRecvResume i junk).1.threads j).saved = if j = i then .running else (k.threads j).saved := by
    have woken : ∀ j, ((k.onCpu i).threads j).saved = if j = i then .running else (k.threads j).saved := by
      intro j
      simp only [Kernel.onCpu,updThreads]
      split <;> rfl
    unfold ipcRecvResume
    dsimp only
    split
    · refine ⟨_,_,rfl,fun j => ?_⟩
      rw [← woken j,logThreads,updThreads]
      split <;> simp [*]
    · refine ⟨_,_,rfl,fun j => ?_⟩
      rw [← woken j,logThreads,updThreads]
      split <;> simp [*]
  by_cases own : i = r
  · subst own
    have deaf : ¬ OnAny ((k.onCpu i).ipcRecvResume i junk).1 i := by
      rintro ⟨⟨c,waits⟩,_⟩
      simp [awake] at waits
    by_cases any : lastSource i k.history = some ipcAny
    · have onAny : OnAny k i := ⟨⟨caller,saved⟩,any⟩
      exact ⟨[source],by simp [history,servedAny,any],fun after => absurd after deaf,fun before => absurd onAny before,by simp⟩
    · exact ⟨[],by simp [history,servedAny,any],fun after => absurd after deaf,by simp,by simp⟩
  · refine quietTurn (p := [.recvRet i source m]) history (by simpa [Event.receives] using own) fun c waits => ?_
    rwa [awake,if_neg (Ne.symm own)] at waits

theorem moveTurn (coherent : Coherent k) (waits : k.waitingSender r s ipcAny) (waits' : k'.waitingSender r s ipcAny)
    (move : Move k₀ input k k') : InTurn s r k k' := by
  cases move with
  | enter acting | leave acting | port acting call held | copy acting source | fault forwards | faultEnd acting answered =>
    exact (InTurn.refl _).log rfl
  | memory memory | resumeIdle mode current | panic live => exact quietTurn (p := []) rfl (by simp) fun _ => id
  | openCall acting allowed => exact .log (.upd (.refl k) fun _ _ waits => waits) rfl
  | closeCall source acting =>
    refine .upd (.refl k) fun t c saved => ?_
    unfold closeCall at saved
    split at saved <;> exact saved
  | send acting called => exact turnSend acting
  | recv src junk rsi acting => exact turnRecv coherent acting waits waits'
  | create prog acting call named => exact turnCreate
  | grantChild child acting created => exact turnGrant
  | grantCap acting call held => exact turnGrant
  | grantIo acting call => exact turnGrantIo
  | @setPager i tf acting call =>
    exact quietTurn (p := [.setPager i]) rfl (by simp [Event.receives]) fun _ => id
  | @irqRegister i tf line mask acting call named =>
    exact quietTurn (p := [.irqRegister i line]) rfl (by simp [Event.receives]) fun _ => id
  | exit acting call => exact turnDie acting fun _ => by simp
  | faultSend forwards => exact turnSend (actingLog forwards.acting)
  | faultRecv junk acting sent => exact turnRecv coherent acting waits waits'
  | kill acting verdict nonzero => exact turnDie acting fun _ => by simp
  | tick user => exact turnTick coherent
  | irq user call vec => exact turnIrq
  | resumePlain mode current saved => exact turnOnCpu
  | resumeSend mode current saved => exact .log (.upd turnOnCpu fun _ _ waits => waits) rfl
  | resumeRecv junk mode current saved => exact turnResumed saved

/- A thread starts to wait by a move of its own. -/
theorem moveWaiting (coherent : Coherent k) (away : ¬ Acting k s) (move : Move k₀ input k k') :
    waiting (k'.threads s) = none ∨ waiting (k'.threads s) = waiting (k.threads s) := by
  have elsewhere : ∀ {i}, Acting k i → s ≠ i := fun acting same => away (same ▸ acting)
  have sends : ∀ {i dest m caller}, Acting k i → waiting ((k.ipcSendLocked i dest m caller).1.threads s) = none ∨
      waiting ((k.ipcSendLocked i dest m caller).1.threads s) = waiting (k.threads s) := by
    intro i dest m caller acting
    have outcome := ipcSendOutcome k i dest m caller
    generalize k.ipcSendLocked i dest m caller = result at outcome
    cases outcome with
    | refused nobody => exact .inr rfl
    | met d named ready => exact quietDeliver.waits s
    | staged d named present busy => exact .inr (waitingLeave (f := ({ · with ipcBuf := m, ipcState := .sending, ipcPeer := dest, state := .blocked })) _ (actingLog acting) (by simp) (elsewhere acting))
  have receives : ∀ {i src junk caller}, Acting k i → waiting ((k.ipcRecvLocked i src junk caller).1.threads s) = none ∨
      waiting ((k.ipcRecvLocked i src junk caller).1.threads s) = waiting (k.threads s) := by
    intro i src junk caller acting
    have outcome := ipcRecvOutcome k i src junk caller
    generalize k.ipcRecvLocked i src junk caller = result at outcome
    cases outcome with
    | irq pending => exact .inr (by simp [elsewhere acting])
    | taken m quiet waits => exact (quietPickUp (i := i)).waits s
    | awaits quiet nobody => exact .inr (waitingLeave (f := ({ · with ipcState := .receiving, ipcPeer := src, state := .blocked })) _ (actingLog acting) (by simp) (elsewhere acting))
  have dies : ∀ {i point}, Acting k i → waiting ((k.die i point).threads s) = none ∨ waiting ((k.die i point).threads s) = waiting (k.threads s) :=
    fun acting => .inr (waitingLeave (k := k.log _) (f := ({ · with state := .dead })) _ acting (by simp) (elsewhere acting))
  cases move with
  | enter acting | leave acting | port acting call held | copy acting source | fault forwards | faultEnd acting answered
  | memory memory | resumeIdle mode current | panic live | setPager acting call | irqRegister acting call named => exact .inr rfl
  | openCall acting allowed => exact .inr (by simp [openCall,elsewhere acting])
  | closeCall source acting => exact .inr (by simp [elsewhere acting])
  | send acting called => exact sends acting
  | recv src junk rsi acting => exact receives acting
  | create prog acting call named => exact quietCreate.waits s
  | grantChild child acting created => exact quietGrant.waits s
  | grantCap acting call held => exact quietGrant.waits s
  | grantIo acting call => exact quietGrantIo.waits s
  | exit acting call => exact dies acting
  | faultSend forwards => exact sends forwards.acting
  | faultRecv junk acting sent => exact receives acting
  | kill acting verdict nonzero => exact dies acting
  | tick user => exact (quietTick coherent).waits s
  | irq user call vec => exact quietIrq.waits s
  | resumePlain mode current saved => exact (quietOnCpu coherent current).waits s
  | resumeSend mode current saved => exact (quietSendResume coherent current).waits s
  | resumeRecv junk mode current saved => exact (quietRecvResume coherent current).waits s

theorem queuedBack (same : waiting (k'.threads s) = none ∨ waiting (k'.threads s) = waiting (k.threads s))
    (waits : k'.waitingSender r s ipcAny) : k.waitingSender r s ipcAny := by
  simp only [waitingSender,Bool.and_eq_true,decide_eq_true_eq] at waits ⊢
  obtain ⟨⟨⟨blocked,sending⟩,peer⟩,any⟩ := waits
  rcases same with none | same
  · simp [waiting,blocked] at none
  · obtain ⟨blocked',sending',peer',_⟩ := waitingSome same blocked
    exact ⟨⟨⟨blocked',sending'.trans sending⟩,peer'.trans peer⟩,any⟩

/- `s` waits for `r` before and after the step. -/
theorem stepTurn (coherent : Coherent k₀) (enabled : k₀.Enabled input) (waits : k₀.waitingSender r s ipcAny)
    (waits' : (k₀.step input).waitingSender r s ipcAny) : InTurn s r k₀ (k₀.step input) := by
  have asleep : k₀.current ≠ some s := by
    intro current
    simp only [waitingSender,Bool.and_eq_true,decide_eq_true_eq] at waits
    have running := coherent.currentRunning.mpr current
    simp [waits.1.1.1] at running
  have all : ∀ k, Moves k₀ input k₀ k → k.waitingSender r s ipcAny → InTurn s r k₀ k := by
    intro k moves
    induction moves with
    | refl => exact fun _ => .refl k₀
    | tail before move ih =>
      intro waits'
      have coherent' := movesCoherent coherent before
      have away : ¬ Acting _ s := fun acting => asleep ((movesCurrent before acting.1).symm.trans acting.2)
      have between := queuedBack (moveWaiting coherent' away move) waits'
      exact (ih between).trans (moveTurn coherent' between waits' move)
  exact all _ (stepMoves enabled) waits'

theorem runTurn (h : Reachable k) (waits : k.waitingSender r s ipcAny) {script : List Input}
    (admits : Transition.Admits machine (fun k input => (k.step input).waitingSender r s ipcAny) k script) :
    InTurn s r k (Transition.run machine k script) ∧ (Transition.run machine k script).waitingSender r s ipcAny := by
  induction script generalizing k with
  | nil => exact ⟨.refl k,waits⟩
  | cons input script ih =>
    obtain ⟨enabled,waits',rest⟩ := admits
    obtain ⟨turn,still⟩ := ih (h.step enabled trivial) waits' rest
    exact ⟨(stepTurn (reachCoherent h) enabled waits waits').trans turn,still⟩

/- As long as `s` waits to send to `r`, every receive of `r` from IPC_ANY is served at
once, with an interrupt or with a sender in a lower slot; only a receive that had begun
before may still return another. -/
theorem sendingOrder (h : Reachable k) (waits : k.waitingSender r s ipcAny) {script : List Input}
    (admits : Transition.Admits machine (fun k input => (k.step input).waitingSender r s ipcAny) k script) :
    let k' := Transition.run machine k script
    (∃ served, servedAny r k'.history = served ++ servedAny r k.history ∧ (∀ f ∈ served.dropLast, f < tid s) ∧
      (¬ OnAny k r → ∀ f ∈ served, f < tid s)) ∧
    ¬ ((k'.threads r).state = .blocked ∧ (k'.threads r).ipcState = .receiving ∧ (k'.threads r).ipcPeer = ipcAny) := by
  have reached : Reachable (Transition.run machine k script) := h.run (admits.mono fun _ _ _ => trivial)
  obtain ⟨⟨served,returned,_,fresh,late⟩,still⟩ := runTurn h waits admits
  refine ⟨⟨served,returned,late,fresh⟩,fun ⟨blocked,receiving,any⟩ => ?_⟩
  simp only [waitingSender,Bool.and_eq_true,decide_eq_true_eq] at still
  exact (reachCoherent reached).apart s r ⟨⟨still.1.1.1,still.1.1.2,still.1.2⟩,blocked,receiving,.inl any⟩

/- Init spawns threads 1 and 2, and both send to it. -/
def Script.twoSenders : List Input :=
  [.tick,.go,.call 4 1 0 0,.call 4 2 0 0,.tick,.go,.call 2 0 Script.userPage 0,.go,.call 2 0 Script.userPage 0,.go]

/- Init receives from any thread, thread 1 sends again, and init receives again. -/
def Script.sendsAgain : List Input :=
  [.call 3 (-1) Script.userPage 0,.tick,.go,.call 2 0 Script.userPage 0,.go,.call 3 (-1) Script.userPage 0]

theorem sendingOrderTwice : ∃ served, servedAny 0 (Transition.run machine (Transition.run machine Script.start Script.twoSenders) Script.sendsAgain).history =
    served ++ servedAny 0 (Transition.run machine Script.start Script.twoSenders).history ∧ ∀ f ∈ served.dropLast, f < tid 2 := by
  have waits : (Transition.run machine Script.start Script.twoSenders).waitingSender 0 2 ipcAny := by decide +kernel
  have still : Transition.Admits machine (fun k input => (k.step input).waitingSender 0 2 ipcAny)
      (Transition.run machine Script.start Script.twoSenders) Script.sendsAgain := by decide +kernel
  obtain ⟨⟨served,returned,late,_⟩,_⟩ := sendingOrder (Script.reach (by decide +kernel)) waits still
  exact ⟨served,returned,late⟩

/- Thread 2 waits to send to init all the time, and init receives from thread 1 twice. -/
theorem overtaken : ∃ (s r : Slot) (k : Kernel) (script : List Input), Reachable k ∧ k.waitingSender r s ipcAny ∧
    Transition.Admits machine (fun k input => (k.step input).waitingSender r s ipcAny) k script ∧
    ∃ served, servedAny r (Transition.run machine k script).history = served ++ servedAny r k.history ∧ tid s ∉ served ∧
      ∃ other : Slot, other ≠ s ∧ 1 < served.count (tid other) :=
  ⟨2,0,Transition.run machine Script.start Script.twoSenders,Script.sendsAgain,Script.reach (by decide +kernel),by decide +kernel,
    by decide +kernel,[tid 1,tid 1],by decide +kernel,by decide,1,by decide,by decide⟩

end
end Mukern
