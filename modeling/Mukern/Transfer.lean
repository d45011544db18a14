import Mukern.Lifetime
import Mukern.Library.Rendezvous

/-! The kernel's IPC is a rendezvous: the record of every thread, read as a phase of
the protocol, is where the run of sends, receives and hand-overs has led. Message
transfer is therefore exactly once and faithful. -/
namespace Mukern
open Kernel Rendezvous

def naming : Naming Slot Int := ⟨tid,fun want s => want = ipcAny ∨ want = tid s⟩

def Event.action : Event → Option (Action Slot Int IpcMsg)
  | .sendCall s dest m => some (.call s dest m)
  | .sendRet s r => some (if r = 0 then .done s else .refuse s)
  | .handOver s d => some (.handOver s d)
  | .recvCall d src => some (.listen d src)
  | .recvRet d r m => some (if r = ipcIrqSender then .signal d else .take d r m)
  | _ => none

def actions (h : List Event) : List (Action Slot Int IpcMsg) := h.filterMap Event.action

/- The protocol phase that a thread's record stands for. -/
def wire (t : Thread) : Phase Int IpcMsg :=
  match t.saved with
  | .send _ => if t.ipcState = .sending then .sending t.ipcPeer t.ipcBuf else .sent
  | .recv _ => if t.ipcState = .receiving then .receiving t.ipcPeer else .received t.ipcFrom t.ipcBuf
  | .vacant | .running | .trampoline _ | .tick | .exited | .killed => .idle

def Carries (k : Kernel) : Prop := Run naming (actions k.history) fun t => wire (k.threads t)

section
variable {k₀ k k' : Kernel} {input : Input} {i j : Slot}

theorem Carries.same (h : Carries k) (quiet : actions k'.history = actions k.history)
    (wires : ∀ t, wire (k'.threads t) = wire (k.threads t)) : Carries k' := by
  have phases : (fun t => wire (k'.threads t)) = fun t => wire (k.threads t) := funext wires
  rw [Carries,quiet,phases]
  exact h

theorem wireUpd {f : Thread → Thread} (keep : ∀ t, wire (f t) = wire t) :
    wire ((k.upd i f).threads j) = wire (k.threads j) := by
  rw [updThreads]
  split
  · rename_i same
    rw [same,keep]
  · rfl

theorem wirePrev {point} (switch : Switch k point k') (current : k.current = some j) :
    wire (k'.threads j) = wire { k.threads j with saved := point } := by
  rw [switch.prev j current]
  simp [wire]

theorem wireRest {point} (switch : Switch k point k') (away : k.current ≠ some j) :
    wire (k'.threads j) = wire (k.threads j) := by
  by_cases next : k'.current = some j
  · rw [(switch.next j next).2]
    rfl
  · rw [switch.other j away next]

/- A thread that the kernel works for has no call open. -/
theorem wireActing (coherent : Coherent k) (acting : Acting k i) : wire (k.threads i) = .idle := by
  simp [wire,(acting.onCpu coherent).1]

/- The phases of `k'` are those of `k` with one or two of them replaced. -/
theorem phasesOne {p : Phase Int IpcMsg} (own : wire (k'.threads i) = p)
    (rest : ∀ t, t ≠ i → wire (k'.threads t) = wire (k.threads t)) :
    (fun t => wire (k'.threads t)) = Function.update (fun t => wire (k.threads t)) i p := by
  funext t
  by_cases same : t = i
  · subst same
    rw [Function.update_self,own]
  · rw [Function.update_of_ne same,rest t same]

/- Thread `i` opens a call and waits in it. -/
theorem carriesStaged {dest m} {caller : SendCaller} (h : Carries k) (coherent : Coherent k) (acting : Acting k i) :
    Carries (((k.log (.sendCall i dest m)).stage i dest m).schedule (.send caller)) := by
  have switch := scheduleSwitch (k := (k.log (.sendCall i dest m)).stage i dest m) (.send caller)
    (parkableLeave (k := k.log (.sendCall i dest m)) acting (by simp))
  have called : Run naming (.call i dest m :: actions k.history) _ :=
    .cons h (.call (wireActing coherent acting))
  rw [Carries,switch.history,phasesOne (k := k) (i := i) (p := .sending dest m)]
  · exact called
  · exact (wirePrev switch acting.2).trans (by simp [wire,stage])
  · intro t other
    exact (wireRest switch (acting.away other)).trans (by simp [stage,other])

theorem carriesAwait {src} {caller : RecvCaller} (h : Carries k) (coherent : Coherent k) (acting : Acting k i) :
    Carries (((k.log (.recvCall i src)).await i src).schedule (.recv caller)) := by
  have switch := scheduleSwitch (k := (k.log (.recvCall i src)).await i src) (.recv caller)
    (parkableLeave (k := k.log (.recvCall i src)) acting (by simp))
  have called : Run naming (.listen i src :: actions k.history) _ :=
    .cons h (.listen (wireActing coherent acting))
  rw [Carries,switch.history,phasesOne (k := k) (i := i) (p := .receiving src)]
  · exact called
  · exact (wirePrev switch acting.2).trans (by simp [wire,await])
  · intro t other
    exact (wireRest switch (acting.away other)).trans (by simp [await,other])

theorem atSelf {φ : Slot → Phase Int IpcMsg} {p : Phase Int IpcMsg} : Function.update φ i p i = p :=
  Function.update_self i p φ

theorem Carries.of {φ : Slot → Phase Int IpcMsg} (run : Run naming (actions k.history) φ)
    (phases : ∀ t, wire (k.threads t) = φ t) : Carries k := by
  have same : (fun t => wire (k.threads t)) = φ := funext phases
  rw [Carries,same]
  exact run

/- A receiver that waits, and a sender that waits. -/
theorem wireReady {d : Slot} (coherent : Coherent k) (ready : k.receiverReady d (tid i)) :
    (k.threads d).state = .blocked ∧ (∃ c, (k.threads d).saved = .recv c) ∧
      wire (k.threads d) = .receiving (k.threads d).ipcPeer ∧ naming.accepts (k.threads d).ipcPeer i := by
  have ready' : ((k.threads d).state = .blocked ∧ (k.threads d).ipcState = .receiving) ∧
      ((k.threads d).ipcPeer = ipcAny ∨ (k.threads d).ipcPeer = tid i) := by
    simpa [receiverReady] using ready
  obtain ⟨⟨blocked,receiving⟩,accepts⟩ := ready'
  obtain ⟨sending,_⟩ | ⟨_,_,c,saved⟩ := coherent.blocked blocked
  · simp [sending] at receiving
  · exact ⟨blocked,⟨c,saved⟩,by simp [wire,saved,receiving],accepts⟩

theorem wireWaiting {snd : Slot} {want : Int} (coherent : Coherent k) (waiting : k.waitingSender i snd want) :
    (k.threads snd).state = .blocked ∧ (∃ c, (k.threads snd).saved = .send c) ∧
      wire (k.threads snd) = .sending (tid i) (k.threads snd).ipcBuf ∧ naming.accepts want snd := by
  have waiting' : (((k.threads snd).state = .blocked ∧ (k.threads snd).ipcState = .sending) ∧
      (k.threads snd).ipcPeer = tid i) ∧ (want = ipcAny ∨ want = tid snd) := by
    simpa [waitingSender] using waiting
  obtain ⟨⟨⟨blocked,sending⟩,peer⟩,accepts⟩ := waiting'
  obtain ⟨_,c,saved⟩ | ⟨receiving,_⟩ := coherent.blocked blocked
  · exact ⟨blocked,⟨c,saved⟩,by simp [wire,saved,sending,peer],accepts⟩
  · simp [sending] at receiving

theorem carriesSend {dest m caller} (h : Carries k) (coherent : Coherent k) (acting : Acting k i) :
    Carries (k.ipcSendLocked i dest m caller).1 := by
  have idle := wireActing coherent acting
  have called : Run naming (.call i dest m :: actions k.history) _ := .cons h (.call idle)
  have outcome := ipcSendOutcome k i dest m caller
  generalize k.ipcSendLocked i dest m caller = result at outcome
  cases outcome with
  | refused nobody =>
    refine Carries.of (.cons called (.refuse atSelf)) fun t => ?_
    by_cases same : t = i
    · subst same
      rw [Function.update_self]
      exact idle
    · rw [Function.update_of_ne same,Function.update_of_ne same]
      rfl
  | met d named ready =>
    obtain ⟨blocked,⟨c,saved⟩,waiting,accepts⟩ := wireReady coherent ready
    have other : d ≠ i := by
      rintro rfl
      simp [acting.state coherent] at blocked
    subst named
    have handed := Run.cons called (.handOver atSelf
      ((Function.update_of_ne other _ _).trans waiting) accepts)
    have sent : Function.update (Function.update (Function.update (fun t => wire (k.threads t)) i
        (.sending (tid d) m)) i .sent) d (.received (naming.name i) m) i = .sent := by
      rw [Function.update_of_ne (Ne.symm other),Function.update_self]
    refine Carries.of (.cons handed (.done sent)) fun t => ?_
    by_cases receiver : t = d
    · subst receiver
      rw [Function.update_of_ne other,Function.update_self]
      simp [deliver,wire,saved,naming]
    · by_cases sender : t = i
      · subst sender
        rw [Function.update_self,← idle]
        simp [deliver,receiver]
      · simp [deliver,receiver,sender]
  | staged d named present busy => exact carriesStaged h coherent acting

theorem carriesRecv {src junk caller} (h : Carries k) (coherent : Coherent k) (acting : Acting k i) :
    Carries (k.ipcRecvLocked i src junk caller).1 := by
  have idle := wireActing coherent acting
  have called : Run naming (.listen i src :: actions k.history) _ := .cons h (.listen idle)
  have outcome := ipcRecvOutcome k i src junk caller
  generalize k.ipcRecvLocked i src junk caller = result at outcome
  cases outcome with
  | irq pending =>
    refine Carries.of (.cons called (.signal atSelf)) fun t => ?_
    by_cases same : t = i
    · subst same
      rw [Function.update_self,← idle]
      simp [wire]
    · simp [same]
  | taken snd quiet waiting =>
    obtain ⟨blocked,⟨c,saved⟩,sending,accepts⟩ := wireWaiting coherent waiting
    have other : snd ≠ i := by
      rintro rfl
      simp [acting.state coherent] at blocked
    have handed := Run.cons called (.handOver ((Function.update_of_ne other _ _).trans sending)
      atSelf accepts)
    have returned := Run.cons handed (.take atSelf)
    have unsignalled : tid snd ≠ ipcIrqSender := by
      have := tidNonneg snd
      simp only [ipcIrqSender]
      omega
    have same : actions (((k.log (.recvCall i src)).pickUp i snd).log
        (.recvRet i (tid snd) (k.threads snd).ipcBuf)).history =
      .take i (tid snd) (k.threads snd).ipcBuf :: .handOver snd i :: .listen i src :: actions k.history := by
      simp [actions,Event.action,pickUp,unsignalled]
    refine Carries.of (by rw [same]; exact returned) fun t => ?_
    by_cases receiver : t = i
    · subst receiver
      rw [Function.update_self,← idle]
      simp [pickUp,Ne.symm other]
    · by_cases sender : t = snd
      · subst sender
        rw [Function.update_of_ne receiver,Function.update_of_ne receiver,Function.update_self]
        simp [pickUp,wire,saved]
      · simp [pickUp,receiver,sender]
  | awaits quiet nobody => exact carriesAwait h coherent acting

theorem Carries.upd (h : Carries k) (f : Thread → Thread) (keep : ∀ t, wire (f t) = wire t) :
    Carries (k.upd i f) := h.same rfl fun _ => wireUpd keep

theorem Carries.log (h : Carries k) (e : Event) (silent : e.action = none) : Carries (k.log e) := by
  refine h.same ?_ fun _ => rfl
  simp [actions,silent]

/- A thread leaves the CPU with no call open. -/
theorem carriesSwitch {point} (h : Carries k) (switch : Switch k point k')
    (idle : ∀ p, k.current = some p → wire (k.threads p) = .idle)
    (closed : ∀ t : Thread, wire { t with saved := point } = .idle) : Carries k' := by
  refine h.same (congrArg actions switch.history) fun t => ?_
  by_cases current : k.current = some t
  · rw [wirePrev switch current,closed,idle t current]
  · exact wireRest switch current

theorem carriesDie {point} (h : Carries k) (coherent : Coherent k) (acting : Acting k i)
    (closed : ∀ t : Thread, wire { t with saved := point } = .idle) : Carries (k.die i point) := by
  have died : Carries ((k.log (.dead i)).upd i ({ · with state := .dead })) :=
    (h.log (.dead i) rfl).upd _ fun _ => rfl
  have switch := scheduleSwitch (k := (k.log (.dead i)).upd i ({ · with state := .dead })) point
    (parkableLeave (k := k.log (.dead i)) (f := ({ · with state := .dead })) acting (by simp))
  refine carriesSwitch died switch ?_ closed
  intro p current
  cases acting.2.symm.trans current
  have idle := wireActing coherent acting
  rw [← idle]
  exact wireUpd fun _ => rfl

theorem carriesTick (h : Carries k) (coherent : Coherent k) (user : k.mode = .user) : Carries k.timerTick := by
  have ticked : Carries { k with ticks := k.ticks + 1 } := h
  refine carriesSwitch ticked (scheduleSwitch .tick ?_) ?_ (fun _ => rfl)
  · intro p current
    have running : (k.threads p).state = .running := coherent.currentRunning.mpr current
    simp [running]
  · intro p current
    have acting : Acting k p := ⟨user,current⟩
    have idle : wire (k.threads p) = .idle := wireActing coherent acting
    exact idle

theorem wireGone (coherent : Coherent k) (gone : k.Gone j) : wire (k.threads j) = .idle := by
  have offline := coherent.offline (j := j) (by obtain unused | dead := gone <;> simp [*])
  obtain unused | dead := gone
  · have saved : (k.threads j).saved = .vacant := by
      rw [Offline,unused] at offline
      exact offline.1
    simp [wire,saved]
  · rw [Offline,dead] at offline
    obtain ⟨saved | saved,_⟩ := offline <;> simp [wire,saved]

theorem carriesCreate {parent prog} (h : Carries k) (coherent : Coherent k) :
    Carries (k.threadCreate parent prog).1 := by
  unfold threadCreate
  split
  · rename_i n found
    refine h.same rfl fun t => ?_
    by_cases same : t = n
    · subst same
      rw [wireGone coherent (freeThreadDead found)]
      simp [wire,plant]
    · simp [same]
  · exact h

theorem carriesGrant {target ep} (h : Carries k) : Carries (k.capGrantEndpoint target ep).1 := by
  unfold capGrantEndpoint
  split
  · exact h
  · dsimp only
    split
    · refine Carries.log ?_ _ rfl
      exact h.upd _ fun _ => rfl
    · exact h.upd _ fun _ => rfl

theorem carriesGrantIo {target base len} (h : Carries k) : Carries (k.capGrantIo target base len).1 := by
  unfold capGrantIo
  split
  · exact h
  · dsimp only
    split
    · refine Carries.log ?_ _ rfl
      exact h.upd _ fun _ => rfl
    · exact h.upd _ fun _ => rfl

theorem carriesIrq {line} (h : Carries k) : Carries (k.irqNotify line) := by
  unfold irqNotify
  split
  · exact h
  · rename_i d _
    split
    · refine Carries.log (h.upd _ ?_) _ rfl
      intro t
      dsimp only
      split <;> simp [wire]
    · exact h

theorem carriesResumeSend {caller} (h : Carries k) (coherent : Coherent k) (mode : k.mode = .resume)
    (current : k.current = some i) (saved : (k.threads i).saved = .send caller) :
    Carries ((k.onCpu i).ipcSendResume i) := by
  have resumable := (coherent.placed i).resumable current mode
  have sent : wire (k.threads i) = .sent := by
    rw [Resumable,saved] at resumable
    simp [wire,saved,resumable]
  refine Carries.of (.cons h (.done sent)) fun t => ?_
  by_cases same : t = i
  · subst same
    rw [Function.update_self]
    simp [onCpu,ipcSendResume,wire]
  · simp [onCpu,ipcSendResume,same]

/- What a delivered message came from is a thread, never the interrupt mark. -/
theorem receivedFrom {src m} (h : Carries k) (received : wire (k.threads i) = .received src m) :
    ∃ s, src = tid s := by
  have fits := (runFaithful h).2 i
  rw [received] at fits
  obtain ⟨_,_,_,s,_,_,_,_,_,named,_⟩ := fits
  exact ⟨s,named⟩

theorem carriesResumeRecv {caller junk} (h : Carries k) (current : k.current = some i)
    (saved : (k.threads i).saved = .recv caller) : Carries ((k.onCpu i).ipcRecvResume i junk).1 := by
  unfold ipcRecvResume
  simp only [onCpu,updThreads,if_true]
  split
  · rename_i receiving
    have waiting : wire (k.threads i) = .receiving (k.threads i).ipcPeer := by simp [wire,saved,receiving]
    refine Carries.of (.cons h (.signal waiting)) fun t => ?_
    by_cases same : t = i
    · subst same
      rw [Function.update_self]
      simp [wire]
    · simp [same]
  · rename_i delivered
    have received : wire (k.threads i) = .received (k.threads i).ipcFrom (k.threads i).ipcBuf := by
      simp [wire,saved,delivered]
    obtain ⟨s,named⟩ := receivedFrom h received
    have unsignalled : (k.threads i).ipcFrom ≠ ipcIrqSender := by
      have := tidNonneg s
      simp only [ipcIrqSender]
      omega
    have returned := Run.cons h (.take received)
    refine Carries.of (φ := Function.update (fun t => wire (k.threads t)) i .idle) ?_ fun t => ?_
    · simpa [actions,Event.action,unsignalled] using returned
    · by_cases same : t = i
      · subst same
        rw [Function.update_self]
        simp [wire]
      · simp [same]

theorem moveCarries (h : Carries k) (coherent : Coherent k) (move : Move k₀ input k k') : Carries k' := by
  cases move with
  | enter acting => exact h.log _ rfl
  | leave acting => exact h.log _ rfl
  | port acting call held => exact h.log _ rfl
  | copy acting source => exact h.log _ rfl
  | memory memory => exact h
  | openCall acting allowed =>
    refine Carries.log ?_ _ rfl
    exact h.upd _ fun _ => rfl
  | closeCall source acting =>
    refine h.upd _ fun t => ?_
    unfold closeCall
    split <;> rfl
  | send acting called => exact carriesSend h coherent acting
  | recv src junk rsi acting => exact carriesRecv h coherent acting
  | create prog acting call named => exact carriesCreate h coherent
  | grantChild child acting created => exact carriesGrant h
  | grantCap acting call held => exact carriesGrant h
  | grantIo acting call => exact carriesGrantIo h
  | setPager acting call => exact h.log (.setPager _) rfl
  | irqRegister acting call named => exact h.log (.irqRegister _ _) rfl
  | exit acting call => exact carriesDie h coherent acting fun _ => rfl
  | fault forwards => exact h.log _ rfl
  | faultSend forwards => exact carriesSend h coherent forwards.acting
  | faultRecv junk acting sent => exact carriesRecv h coherent acting
  | faultEnd acting answered => exact h.log _ rfl
  | kill acting verdict nonzero => exact carriesDie h coherent acting fun _ => rfl
  | tick user => exact carriesTick h coherent user
  | irq user call vec => exact carriesIrq h
  | resumeIdle mode current => exact h
  | @resumePlain i mode current saved =>
    refine h.same rfl fun t => ?_
    by_cases same : t = i
    · subst same
      have idle : wire (k₀.threads t) = .idle := by
        cases point : (k₀.threads t).saved <;> simp_all [wire]
      rw [idle]
      simp [onCpu,wire]
    · simp [onCpu,same]
  | resumeSend mode current saved => exact carriesResumeSend h coherent mode current saved
  | resumeRecv junk mode current saved => exact carriesResumeRecv h current saved
  | panic live => exact h

theorem bootCarries (memory : Memory) (stackBase : Word) : Carries (boot memory stackBase) := by
  refine Carries.of .nil fun t => ?_
  by_cases same : t = 0
  · subst same
    rfl
  · show wire (if t = 0 then _ else threadZero) = _
    rw [if_neg same]
    rfl

theorem reachCarries {ok : Kernel → Input → Prop} (h : Transition.Reach machine ok k) : Carries k :=
  reachUnder Carries bootCarries (fun _ _ _ _ _ _ _ _ coherent carries move => moveCarries carries coherent move) h

/- The calls and hand-overs of the whole run. -/
def transfers (k : Kernel) : Ledger Slot Int IpcMsg := ledger (actions k.history)

theorem wireSending {t : Thread} {dest m} (phase : wire t = .sending dest m) :
    t.ipcState = .sending ∧ t.ipcPeer = dest ∧ t.ipcBuf = m := by
  unfold wire at phase
  cases point : t.saved <;> simp only [point] at phase
  case send =>
    split at phase
    · rename_i sending
      cases phase
      exact ⟨sending,rfl,rfl⟩
    · cases phase
  case recv => split at phase <;> cases phase
  all_goals cases phase

theorem wireReceived {t : Thread} {src m} (phase : wire t = .received src m) :
    t.ipcFrom = src ∧ t.ipcBuf = m := by
  unfold wire at phase
  cases point : t.saved <;> simp only [point] at phase
  case send => split at phase <;> cases phase
  case recv =>
    split at phase
    · cases phase
    · cases phase
      exact ⟨rfl,rfl⟩
  all_goals cases phase

example : (transfers (Transition.run machine Script.start
    [.tick,.go,.call 4 1 0 0,.call 3 (-1) Script.userPage 0,.go,.call 2 0 Script.userPage 0,.tick,.go])).recvs 0 =
      [⟨-1,[(1,0)],some (some (1,⟨0,0,0,0⟩))⟩] := by rfl

end
end Mukern
