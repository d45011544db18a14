import Mukern.Presence
import Mukern.FaultReply
import Mukern.Roles

/-! The page-fault path of `isr_handler`: a send, a receive and a verdict. Which
message ends a fault, and what the interrupt count, a new pager and a reclaimed
slot have to do with it. -/
namespace Mukern
open Kernel Rendezvous

/- A thread that is suspended in the page-fault path, and the thread it waits for. -/
def faultPoint (t : Thread) : Option (Context × Int) :=
  match t.saved with
  | .send .fault | .recv .fault => some (t.saved,t.ipcPeer)
  | _ => none

/- The forwarded `MSG_FAULT` is refused or meets the pager in its receive. -/
def Kernel.forwardReturns (k : Kernel) (self : Slot) : Bool :=
  match threadById k.pagerTid with
  | none => true
  | some p => decide (k.Gone p) || k.receiverReady p (tid self)

/- Thread `f` has a fault open that the thread in slot `p` is to answer. -/
def Kernel.awaitsPager (k : Kernel) (p f : Slot) : Bool :=
  (k.threads f).ipcPeer = tid p &&
    ((k.threads f).saved = .send .fault || (k.threads f).saved = .recv .fault && (k.threads f).ipcState = .receiving)

/- A step after which an interrupt, or a thread that never had the `MSG_FAULT`, can
end a fault: a fault is forwarded at once, or its send returns, with an interrupt
pending; another pager is registered when the send returns; an interrupt wakes the
receive; or `SYS_SPAWN` reclaims the slot of the pager. -/
def VerdictAtRisk (k : Kernel) : Input → Bool
  | .resume _ =>
    match k.current with
    | none => false
    | some f =>
      match (k.threads f).saved with
      | .send .fault => (k.threads f).irqPending ≠ 0 || k.pagerTid ≠ (k.threads f).ipcPeer
      | .recv .fault => (k.threads f).ipcState = .receiving
      | _ => false
  | .trap tf _ =>
    match k.current with
    | none => false
    | some i =>
      if tf.vec = vecPf then
        fromUser tf && 0 ≤ k.pagerTid && tid i ≠ k.pagerTid && k.forwardReturns i && (k.threads i).irqPending ≠ 0
      else if tf.vec = syscallVector && Syscall.ofRax tf.rax = .spawn && 0 ≤ cint tf.rdi && cint tf.rdi < 12 then
        match k.freeThread with
        | none => false
        | some p => (List.finRange 16).any (k.awaitsPager p)
      else false
  | .store _ _ => false

abbrev phases (k : Kernel) (t : Slot) : Phase Int IpcMsg := wire (k.threads t)

/- What a move does to the threads suspended in the page-fault path. -/
inductive PathMove (k₀ : Kernel) (input : Input) (k k' : Kernel) : Prop where
  | same (same : ∀ f, faultPoint (k'.threads f) = faultPoint (k.threads f))
  | asks {i addr} (forwards : Forwards k₀ input i addr) (before : k = k₀.log (.fault i addr k₀.pagerTid))
      (after : k' = ((k.log (.sendCall i k.pagerTid (faultMsg i addr))).stage i k.pagerTid
        (faultMsg i addr)).schedule (.send .fault))
      (other : ∀ f, f ≠ i → faultPoint (k'.threads f) = faultPoint (k.threads f))
  | waits {i} (acting : Acting k i) (sent : FaultSent k₀ input i k)
      (after : k' = ((k.log (.recvCall i k.pagerTid)).await i k.pagerTid).schedule (.recv .fault))
      (other : ∀ f, f ≠ i → faultPoint (k'.threads f) = faultPoint (k.threads f))
  | wakes {i} (mode : k₀.mode = .resume) (current : k₀.current = some i) (other : ∀ f, f ≠ i → faultPoint (k'.threads f) = faultPoint (k.threads f))
      (own : faultPoint (k'.threads i) = none)

section
variable {k₀ k k' : Kernel} {input : Input} {i j f p : Slot} {e : Event} {es h : List Event}

theorem pointSaved {t : Thread} (sends : ∀ c, t.saved ≠ .send c) (receives : ∀ c, t.saved ≠ .recv c) :
    faultPoint t = none := by
  unfold faultPoint
  split
  · rename_i saved
    exact absurd saved (sends .fault)
  · rename_i saved
    exact absurd saved (receives .fault)
  · rfl

theorem pointOf {t : Thread} {saved peer} (point : faultPoint t = some (saved,peer)) :
    t.ipcPeer = peer ∧ (t.saved = .send .fault ∨ t.saved = .recv .fault) := by
  unfold faultPoint at point
  split at point
  · rename_i here
    cases point
    exact ⟨rfl,.inl here⟩
  · rename_i here
    cases point
    exact ⟨rfl,.inr here⟩
  · cases point

theorem pointActing (coherent : Coherent k) (acting : Acting k i) : faultPoint (k.threads i) = none :=
  pointSaved (by simp [(acting.onCpu coherent).1]) (by simp [(acting.onCpu coherent).1])

theorem pointGone (coherent : Coherent k) (gone : k.Gone i) : faultPoint (k.threads i) = none := by
  have offline := coherent.offline (j := i) (by rcases gone with unused | dead <;> simp [*])
  rcases gone with unused | dead
  · rw [Offline,unused] at offline
    exact pointSaved (by simp [offline.1]) (by simp [offline.1])
  · rw [Offline,dead] at offline
    rcases offline.1 with saved | saved <;> exact pointSaved (by simp [saved]) (by simp [saved])

theorem pointUpdAt (g : Thread → Thread) (keep : faultPoint (g (k.threads i)) = faultPoint (k.threads i)) :
    faultPoint ((k.upd i g).threads f) = faultPoint (k.threads f) := by
  rw [updThreads]
  split
  · rename_i same
    rw [same,keep]
  · rfl

theorem pointUpd (g : Thread → Thread) (keep : ∀ t, faultPoint (g t) = faultPoint t) :
    faultPoint ((k.upd i g).threads f) = faultPoint (k.threads f) := pointUpdAt g (keep _)

theorem pointWake {t : Thread} : faultPoint (threadWake t) = faultPoint t := by
  unfold faultPoint
  rw [wakeSaved,wakeIpcPeer]

theorem pointPrev {point} (switch : Switch k point k') (current : k.current = some j) :
    faultPoint (k'.threads j) = faultPoint { k.threads j with saved := point } := by
  rw [switch.prev j current]
  simp [faultPoint]

theorem pointRest {point} (switch : Switch k point k') (away : k.current ≠ some j) :
    faultPoint (k'.threads j) = faultPoint (k.threads j) := by
  by_cases next : k'.current = some j
  · rw [(switch.next j next).2]
    rfl
  · rw [switch.other j away next]

/- The acting thread writes its record and leaves the CPU. -/
theorem pointLeave {g : Thread → Thread} (point : Context) (acting : Acting k i)
    (asleep : (g (k.threads i)).state ≠ .runnable) :
    faultPoint (((k.upd i g).schedule point).threads i) = faultPoint { g (k.threads i) with saved := point } ∧
      ∀ f, f ≠ i → faultPoint (((k.upd i g).schedule point).threads f) = faultPoint (k.threads f) := by
  have switch := scheduleSwitch point (parkableLeave acting asleep)
  constructor
  · exact (pointPrev switch acting.2).trans (by simp)
  · intro f other
    exact (pointRest switch (acting.away other)).trans (by simp [other])

/- It leaves it for a place outside the page-fault path. -/
theorem pointLeft {g : Thread → Thread} (point : Context) (coherent : Coherent k) (acting : Acting k i)
    (asleep : (g (k.threads i)).state ≠ .runnable) (outside : ∀ t : Thread, faultPoint { t with saved := point } = none) :
    faultPoint (((k.upd i g).schedule point).threads f) = faultPoint (k.threads f) := by
  have left := pointLeave point acting asleep
  by_cases own : f = i
  · rw [own,left.1,outside,pointActing coherent acting]
  · exact left.2 f own

theorem pointDeliver {d m} : faultPoint ((k.deliver i d m).threads f) = faultPoint (k.threads f) := by
  unfold deliver
  rw [logThreads]
  exact pointUpd _ fun _ => pointWake

theorem pointPickUp {snd} : faultPoint ((k.pickUp i snd).threads f) = faultPoint (k.threads f) := by
  unfold pickUp
  rw [logThreads]
  exact pointUpd _ fun _ => pointWake

theorem pointGrant {target ep} : faultPoint ((k.capGrantEndpoint target ep).1.threads f) = faultPoint (k.threads f) := by
  unfold capGrantEndpoint
  split
  · rfl
  · dsimp only
    split
    · rw [logThreads]
      exact pointUpd _ fun _ => rfl
    · exact pointUpd _ fun _ => rfl

theorem pointGrantIo {target base len} :
    faultPoint ((k.capGrantIo target base len).1.threads f) = faultPoint (k.threads f) := by
  unfold capGrantIo
  split
  · rfl
  · dsimp only
    split
    · rw [logThreads]
      exact pointUpd _ fun _ => rfl
    · exact pointUpd _ fun _ => rfl

theorem pointIrq {line} : faultPoint ((k.irqNotify line).threads f) = faultPoint (k.threads f) := by
  unfold irqNotify
  split
  · rfl
  · split
    · rw [logThreads]
      refine pointUpd _ fun t => ?_
      dsimp only
      split
      · exact pointWake
      · rfl
    · rfl

theorem pointCreate {parent prog} (coherent : Coherent k) :
    faultPoint ((k.threadCreate parent prog).1.threads f) = faultPoint (k.threads f) := by
  unfold threadCreate
  split
  · rename_i n found
    rw [logThreads]
    refine pointUpdAt _ ?_
    rw [pointGone coherent (freeThreadDead found)]
    rfl
  · rfl

theorem pointTick (coherent : Coherent k) (user : k.mode = .user) :
    faultPoint (k.timerTick.threads f) = faultPoint (k.threads f) := by
  have switch : Switch { k with ticks := k.ticks + 1 } .tick k.timerTick := by
    refine scheduleSwitch .tick ?_
    intro p current
    have running : (k.threads p).state = .running := coherent.currentRunning.mpr current
    simp [running]
  by_cases current : k.current = some f
  · rw [pointPrev switch current,pointActing coherent ⟨user,current⟩]
    rfl
  · have rest := pointRest switch current
    exact rest

/- The resumed thread has no suspended context any more. -/
theorem wakesOnCpu (mode : k₀.mode = .resume) (current : k₀.current = some i)
    (same : ∀ f, faultPoint (k'.threads f) = faultPoint ((k₀.onCpu i).threads f)) :
    PathMove k₀ input k₀ k' := by
  refine .wakes mode current (fun f other => ?_) ?_
  · rw [same]
    simp [onCpu,other]
  · rw [same]
    simp [onCpu,faultPoint]

theorem pointDie {point} (coherent : Coherent k) (acting : Acting k i)
    (outside : ∀ t : Thread, faultPoint { t with saved := point } = none) :
    faultPoint ((k.die i point).threads f) = faultPoint (k.threads f) := by
  have left := pointLeft (k := k.log (.dead i)) (g := ({ · with state := .dead })) (f := f) point
    (coherent.log (.dead i)) acting (by simp) outside
  exact left

theorem sendPath {dest m caller} (coherent : Coherent k) (acting : Acting k i) :
    (∀ f, faultPoint ((k.ipcSendLocked i dest m caller).1.threads f) = faultPoint (k.threads f)) ∨
      caller = .fault ∧ (k.ipcSendLocked i dest m caller).1 =
        ((k.log (.sendCall i dest m)).stage i dest m).schedule (.send .fault) := by
  have outcome := ipcSendOutcome k i dest m caller
  generalize k.ipcSendLocked i dest m caller = result at outcome
  cases outcome with
  | refused nobody => exact .inl fun f => rfl
  | met d named ready => exact .inl fun f => pointDeliver (k := k.log (.sendCall i dest m))
  | staged d named present busy =>
    cases caller with
    | fault => exact .inr ⟨rfl,rfl⟩
    | syscall =>
      left
      intro f
      exact pointLeft (.send .syscall) (coherent.log (.sendCall i dest m)) acting (by simp) fun t => rfl

theorem recvPath {src junk caller} (coherent : Coherent k) (acting : Acting k i) :
    (∀ f, faultPoint ((k.ipcRecvLocked i src junk caller).1.threads f) = faultPoint (k.threads f)) ∨
      caller = .fault ∧ (k.ipcRecvLocked i src junk caller).1 =
        ((k.log (.recvCall i src)).await i src).schedule (.recv .fault) := by
  have outcome := ipcRecvOutcome k i src junk caller
  generalize k.ipcRecvLocked i src junk caller = result at outcome
  cases outcome with
  | irq pending =>
    left
    intro f
    rw [logThreads]
    exact pointUpd _ fun _ => rfl
  | taken snd quiet waiting => exact .inl fun f => pointPickUp (k := k.log (.recvCall i src)) (i := i)
  | awaits quiet nobody =>
    cases caller with
    | fault => exact .inr ⟨rfl,rfl⟩
    | syscall rsi =>
      left
      intro f
      exact pointLeft (.recv (.syscall rsi)) (coherent.log (.recvCall i src)) acting (by simp) fun t => rfl

theorem movePath (coherent : Coherent k) (move : Move k₀ input k k') : PathMove k₀ input k k' := by
  cases move with
  | openCall acting allowed =>
    refine .same fun f => ?_
    exact pointUpd ({ · with ipcCallTo := _ }) fun _ => rfl
  | closeCall source acting =>
    refine .same fun f => pointUpd _ fun t => ?_
    unfold closeCall
    split <;> rfl
  | send acting called =>
    rcases sendPath coherent acting with same | ⟨never,_⟩
    · exact .same same
    · cases never
  | recv src junk rsi acting =>
    rcases recvPath coherent acting with same | ⟨never,_⟩
    · exact .same same
    · cases never
  | create prog acting call named => exact .same fun f => pointCreate coherent
  | grantChild child acting created => exact .same fun f => pointGrant
  | grantCap acting call held => exact .same fun f => pointGrant
  | grantIo acting call => exact .same fun f => pointGrantIo
  | exit acting call => exact .same fun f => pointDie coherent acting fun t => rfl
  | @faultSend i addr forwards =>
    rcases sendPath coherent forwards.acting with same | ⟨_,staged⟩
    · exact .same same
    · have acting : Acting ((k₀.log (.fault i addr k₀.pagerTid)).log (.sendCall i k₀.pagerTid (faultMsg i addr))) i :=
        forwards.acting
      exact .asks forwards rfl staged (staged ▸ (pointLeave (.send .fault) acting (by simp)).2)
  | faultRecv junk acting sent =>
    rcases recvPath coherent acting with same | ⟨_,waiting⟩
    · exact .same same
    · exact .waits acting sent waiting (waiting ▸ (pointLeave (k := k.log _) (.recv .fault) acting (by simp)).2)
  | kill acting verdict nonzero => exact .same fun f => pointDie coherent acting fun t => rfl
  | tick user => exact .same fun f => pointTick coherent user
  | irq user call vec => exact .same fun f => pointIrq
  | @resumePlain i mode current saved => exact wakesOnCpu mode current fun f => rfl
  | @resumeSend i caller mode current saved =>
    refine wakesOnCpu mode current fun f => ?_
    exact pointUpd ({ · with ipcState := .none }) fun _ => rfl
  | @resumeRecv i caller junk mode current saved =>
    refine wakesOnCpu mode current fun f => ?_
    unfold ipcRecvResume
    dsimp only
    split
    · rw [logThreads]
      exact pointUpd _ fun _ => rfl
    · rw [logThreads]
      exact pointUpd _ fun _ => rfl
  | _ => exact .same fun f => rfl

theorem sendPager {dest m caller} : (k.ipcSendLocked i dest m caller).1.pagerTid = k.pagerTid := congrArg Prod.fst routesSend

/- Only `SYS_SET_PAGER` changes the pager, and it names a thread. -/
theorem movePager (move : Move k₀ input k k') : k'.pagerTid = k.pagerTid ∨ ∃ p, k'.pagerTid = tid p := by
  obtain same | ⟨i,_,_,_,_,_,_,_,holder⟩ := moveRole move .pager
  · exact .inl same
  · exact .inr ⟨i,holder⟩

/- Ring 3 runs or the kernel works for the current thread, or that thread has just
continued, or only memory changes. -/
theorem moveMode (move : Move k₀ input k k') :
    k.mode = .user ∨ (∀ i, k.current = some i → faultPoint (k'.threads i) = none) ∨ k'.history = k.history := by
  cases move with
  | enter acting => exact .inl acting.1
  | leave acting => exact .inl acting.1
  | port acting call held => exact .inl acting.1
  | copy acting source => exact .inl acting.1
  | openCall acting allowed => exact .inl acting.1
  | closeCall source acting => exact .inl acting.1
  | send acting called => exact .inl acting.1
  | recv src junk rsi acting => exact .inl acting.1
  | create prog acting call named => exact .inl acting.1
  | grantChild child acting created => exact .inl acting.1
  | grantCap acting call held => exact .inl acting.1
  | grantIo acting call => exact .inl acting.1
  | setPager acting call => exact .inl acting.1
  | irqRegister acting call named => exact .inl acting.1
  | exit acting call => exact .inl acting.1
  | fault forwards => exact .inl forwards.acting.1
  | faultSend forwards => exact .inl forwards.acting.1
  | faultRecv junk acting sent => exact .inl acting.1
  | faultEnd acting answered => exact .inl acting.1
  | kill acting verdict nonzero => exact .inl acting.1
  | tick user => exact .inl user
  | irq user call vec => exact .inl user
  | @resumeSend i caller mode current saved =>
    right; left
    intro j current'
    cases current.symm.trans current'
    simp [ipcSendResume,onCpu,faultPoint]
  | @resumeRecv i caller junk mode current saved =>
    right; left
    intro j current'
    cases current.symm.trans current'
    unfold ipcRecvResume
    dsimp only
    split <;> simp [onCpu,faultPoint]
  | panic live => exact .inl live
  | _ => exact .inr (.inr rfl)

/- Whoever acts in a move is the current thread, and not suspended in the fault path
before and after the move. -/
theorem moveActor (coherent : Coherent k) (move : Move k₀ input k k') (older : k'.history = es ++ k.history)
    (member : e ∈ es) (actor : e.actor = some i) :
    k.current = some i ∧ (faultPoint (k.threads i) = none ∨ faultPoint (k'.threads i) = none) := by
  obtain ⟨es',older',justified⟩ := moveGrows coherent move
  have same : es' = es := List.append_cancel_right (older'.symm.trans older)
  subst same
  have current : k.current = some i := by
    have here := justified e member
    cases e with
    | sendCall t dest m =>
      cases actor
      exact here.2
    | sendRet t r | recvCall t src | recvRet t r m =>
      cases actor
      exact here
    | fault t addr pager =>
      cases actor
      rw [here.2.1]
      exact here.1.acting.2
    | faultEnd t reply =>
      cases actor
      exact here.1.2
    | _ => cases actor
  refine ⟨current,?_⟩
  rcases moveMode move with user | woken | quiet
  · exact .inl (pointActing coherent ⟨user,current⟩)
  · exact .inr (woken i current)
  · have none : es' = [] := List.append_left_eq_self.mp (older.symm.trans quiet)
    simp [none] at member

theorem faultsActor (quiet : e.actor ≠ some f) : e.faults f = false := by
  cases e with
  | fault g addr pager | faultEnd g reply => simpa [Event.faults,Event.actor] using quiet
  | _ => rfl

/- Every fault that ended was ended by the pager. -/
def Verdicts : List Event → Prop
  | [] => True
  | e :: older => Verdicts older ∧ ∀ f reply, e = .faultEnd f reply → ByPager older f reply

theorem Verdicts.grow (verdicts : Verdicts h) (none : ∀ f reply, .faultEnd f reply ∉ es) : Verdicts (es ++ h) := by
  induction es with
  | nil => exact verdicts
  | cons e es ih =>
    refine ⟨ih fun f reply member => none f reply (List.mem_cons_of_mem _ member),fun f reply same => ?_⟩
    exact absurd (same ▸ List.mem_cons_self) (none f reply)

theorem Verdicts.split {newer older : List Event} {reply} (verdicts : Verdicts (newer ++ .faultEnd f reply :: older)) :
    ByPager older f reply := by
  induction newer with
  | nil => exact verdicts.2 f reply rfl
  | cons e newer ih => exact ih verdicts.1

/- Where every open fault stands. -/
def Waits (k : Kernel) (f : Slot) (peer : Int) : Prop :=
  ∃ p addr, peer = tid p ∧ Open k.history f addr (tid p) ∧ Awaits k.Gone k.history (phases k) f p addr

structure Paged (k : Kernel) : Prop where
  carries : Carries k
  registered : 0 ≤ k.pagerTid → ∃ p, k.pagerTid = tid p
  path : ∀ f saved peer, faultPoint (k.threads f) = some (saved,peer) → Waits k f peer
  verdicts : Verdicts k.history

/- The fault of `i` is with its pager, or the pager was gone. -/
structure Asked (k : Kernel) (i p : Slot) (addr : Word) : Prop where
  pager : k.pagerTid = tid p
  fault : Open k.history i addr (tid p)
  same : SamePager k.history i p
  quiet : (k.threads i).irqPending = 0
  told : Told k.history (phases k) i p addr ∨ k.Gone p

theorem carriesPasses (carries : Carries k) (carries' : Carries k') (older : k'.history = e :: k.history) :
    Passes e (phases k) (phases k') := by
  rw [Carries,older] at carries'
  obtain ⟨φ,before,passing⟩ := passes carries'
  cases before.unique carries
  exact passing

theorem cleanForward {addr} (clean : VerdictAtRisk k₀ input = false) (forwards : Forwards k₀ input i addr)
    (returns : k₀.forwardReturns i) : (k₀.threads i).irqPending = 0 := by
  obtain ⟨tf,hw,rfl,vec,ring3,_⟩ := forwards.trap
  simpa [VerdictAtRisk,forwards.acting.2,vec,ring3,forwards.pager,forwards.other,returns] using clean

theorem cleanSent (clean : VerdictAtRisk k₀ input = false) (resumes : Resumes k₀ input i)
    (saved : (k₀.threads i).saved = .send .fault) :
    (k₀.threads i).irqPending = 0 ∧ k₀.pagerTid = (k₀.threads i).ipcPeer := by
  obtain ⟨⟨junk,rfl⟩,_,current⟩ := resumes
  simpa [VerdictAtRisk,current,saved] using clean

theorem cleanReceived (clean : VerdictAtRisk k₀ input = false) (resumes : Resumes k₀ input i)
    (saved : (k₀.threads i).saved = .recv .fault) : (k₀.threads i).ipcState ≠ .receiving := by
  obtain ⟨⟨junk,rfl⟩,_,current⟩ := resumes
  simpa [VerdictAtRisk,current,saved] using clean

theorem cleanSpawn {caller tf} {prog : Fin 12} (clean : VerdictAtRisk k₀ input = false) (acting : Acting k₀ caller)
    (call : IsCall input .spawn tf) (named : cint tf.rdi = (prog.val : Int)) (found : k₀.freeThread = some p) (f : Slot) :
    k₀.awaitsPager p f = false := by
  obtain ⟨hw,rfl,vec,number⟩ := call
  have low : 0 ≤ cint tf.rdi := by omega
  have high : cint tf.rdi < 12 := by omega
  have apart : ¬ syscallVector = vecPf := by decide
  have none : (List.finRange 16).any (k₀.awaitsPager p) = false := by
    simpa [VerdictAtRisk,acting.2,vec,apart,number,low,high,found] using clean
  simpa using List.any_eq_false.mp none f (List.mem_finRange f)

/- The pager is gone, or waits in its receive and gets the message at once. -/
theorem askedDirect {addr r} (paged : Paged k₀) (coherent : Coherent k₀) (clean : VerdictAtRisk k₀ input = false)
    (forwards : Forwards k₀ input i addr)
    (sent : (k₀.log (.fault i addr k₀.pagerTid)).ipcSendLocked i k₀.pagerTid (faultMsg i addr) .fault = (k,some r)) :
    ∃ p, Asked k i p addr := by
  obtain ⟨p,named⟩ := paged.registered forwards.pager
  have other : i ≠ p := fun same => forwards.other (by rw [same,named])
  have outcome := ipcSendOutcome (k₀.log (.fault i addr k₀.pagerTid)) i k₀.pagerTid (faultMsg i addr) .fault
  rw [sent,named] at outcome
  cases outcome with
  | refused nobody =>
    have gone : k₀.Gone p := nobody p rfl
    have returns : k₀.forwardReturns i := by simp [forwardReturns,named,threadByIdTid,gone]
    have quiet : (k₀.threads i).irqPending = 0 := cleanForward clean forwards returns
    refine ⟨p,named,?_,?_,quiet,.inr gone⟩
    · simp [Open,Event.faults]
    · simp [SamePager,sinceFault,Event.faults,Event.creates]
  | met d agree ready =>
    cases tidInj agree
    have ready' : k₀.receiverReady p (tid i) := ready
    have returns : k₀.forwardReturns i := by simp [forwardReturns,named,threadByIdTid,ready']
    obtain ⟨_,⟨c,saved⟩,_⟩ := wireReady coherent ready'
    refine ⟨p,named,?_,?_,?_,.inl (.delivered ?_ ?_)⟩
    · simp [deliver,Open,Event.faults]
    · simp [deliver,SamePager,sinceFault,Event.faults,Event.creates]
    · simpa [deliver,other] using cleanForward clean forwards returns
    · simp [deliver,sinceFault,Event.faults]
    · simp [deliver,wire,saved]

/- The send was blocked until the pager took its message. -/
theorem askedResumed (paged : Paged k₀) (coherent : Coherent k₀) (clean : VerdictAtRisk k₀ input = false)
    (resumes : Resumes k₀ input i) (saved : (k₀.threads i).saved = .send .fault) :
    ∃ p addr, Asked ((k₀.onCpu i).ipcSendResume i) i p addr := by
  have mode := resumes.2.1
  have current := resumes.2.2
  have resumable := (coherent.placed i).resumable current mode
  have taken : phases k₀ i = .sent := by
    rw [Resumable,saved] at resumable
    simp [wire,saved,resumable]
  have point : faultPoint (k₀.threads i) = some (.send .fault,(k₀.threads i).ipcPeer) := by simp [faultPoint,saved]
  obtain ⟨quiet,pager⟩ := cleanSent clean resumes saved
  obtain ⟨p,addr,peer,fault,awaits⟩ := paged.path i _ _ point
  cases awaits with
  | asked same phase told =>
    have passing := carriesPasses (e := .sendRet i 0) paged.carries
      (carriesResumeSend paged.carries coherent mode current saved) rfl
    have since : (Event.sendRet i 0).faults i = false := rfl
    refine ⟨p,addr,pager.trans peer,?_,samePagerCons since rfl same,?_,.inl (toldCons since passing told)⟩
    · exact openCons since fault
    · simpa [onCpu,ipcSendResume] using quiet
  | asking same phase => cases taken.symm.trans phase
  | waiting same phase told => cases taken.symm.trans phase
  | forsaken same phase absent silent => cases taken.symm.trans phase
  | answered phase split quiet opened replied => cases taken.symm.trans phase

theorem sentMoves (sent : FaultSent k₀ input i k) : Moves k₀ input k₀ k := by
  cases sent with
  | direct forwards result =>
    have faulted : Moves k₀ input k₀ _ := .single (.fault forwards)
    have moved := faulted.tail (.faultSend forwards)
    rwa [result] at moved
  | resumed resumes saved => exact .single (.resumeSend resumes.2.1 resumes.2.2 saved)

theorem askedOf (paged : Paged k₀) (coherent : Coherent k₀) (clean : VerdictAtRisk k₀ input = false)
    (sent : FaultSent k₀ input i k) : ∃ p addr, Asked k i p addr := by
  cases sent with
  | @direct k addr r forwards result =>
    obtain ⟨p,asked⟩ := askedDirect paged coherent clean forwards result
    exact ⟨p,addr,asked⟩
  | resumed resumes saved => exact askedResumed paged coherent clean resumes saved

/- The pager waits to send when `i` receives at once, and it has read the message. -/
theorem answeredDirect {junk source reply} (paged : Paged k₀) (coherent₀ : Coherent k₀) (clean : VerdictAtRisk k₀ input = false)
    (sent : FaultSent k₀ input i k) (received : k.ipcRecvLocked i k.pagerTid junk .fault = (k',some (source,reply))) :
    ByPager k'.history i reply := by
  have coherent := movesCoherent coherent₀ (sentMoves sent)
  obtain ⟨p,addr,asked⟩ := askedOf paged coherent₀ clean sent
  have outcome := ipcRecvOutcome k i k.pagerTid junk .fault
  rw [received,asked.pager] at outcome
  cases outcome with
  | irq pending => exact absurd asked.quiet pending
  | taken snd quiet waiting =>
    obtain ⟨_,_,sending,accepts⟩ := wireWaiting coherent waiting
    cases tidAccepted accepts
    have since : (Event.recvCall i (tid p)).faults i = false := rfl
    refine ⟨addr,p,[],.recvCall i (tid p) :: k.history,rfl,by simp,?_,samePagerCons since rfl asked.same,?_⟩
    · exact openCons since asked.fault
    · rw [sinceFaultCons since]
      rcases asked.told with told | gone
      · cases told with
        | delivered handed waits => cases waits.symm.trans sending
        | read received reply => exact (reply _ sending).cons _
      · cases (wireGone coherent gone).symm.trans sending

theorem answeredResumed {junk} (paged : Paged k₀) (clean : VerdictAtRisk k₀ input = false)
    (resumes : Resumes k₀ input i) (saved : (k₀.threads i).saved = .recv .fault) :
    ByPager ((k₀.onCpu i).ipcRecvResume i junk).1.history i ((k₀.onCpu i).ipcRecvResume i junk).2.2 := by
  have woken := cleanReceived clean resumes saved
  have delivered : phases k₀ i = .received (k₀.threads i).ipcFrom (k₀.threads i).ipcBuf := by simp [wire,saved,woken]
  have point : faultPoint (k₀.threads i) = some (.recv .fault,(k₀.threads i).ipcPeer) := by simp [faultPoint,saved]
  obtain ⟨p,addr,peer,fault,awaits⟩ := paged.path i _ _ point
  cases awaits with
  | @answered after before m phase split quiet opened replied =>
    obtain ⟨source,message⟩ := wireReceived phase
    refine ⟨addr,p,after,before,?_,quiet,opened,?_⟩
    · simp [ipcRecvResume,onCpu,woken,source,split]
    · simpa [ipcRecvResume,onCpu,woken,message] using replied
  | asking same phase => cases delivered.symm.trans phase
  | asked same phase told => cases delivered.symm.trans phase
  | waiting same phase told => cases delivered.symm.trans phase
  | forsaken same phase absent silent => cases delivered.symm.trans phase

theorem answeredBy {reply} (paged : Paged k₀) (coherent₀ : Coherent k₀) (clean : VerdictAtRisk k₀ input = false)
    (answered : FaultAnswered k₀ input i reply k) : ByPager k.history i reply := by
  cases answered with
  | direct sent acting received => exact answeredDirect paged coherent₀ clean sent received
  | resumed resumes saved received => exact received ▸ answeredResumed paged clean resumes saved

theorem notAwaiting {saved} (point : faultPoint (k.threads f) = some (saved,tid p)) (unawaited : k.awaitsPager p f = false) :
    phases k f = .received (k.threads f).ipcFrom (k.threads f).ipcBuf := by
  obtain ⟨peer,path⟩ := pointOf point
  have other : ¬ (k.threads f).saved = .send .fault ∧
      ((k.threads f).saved = .recv .fault → ¬ (k.threads f).ipcState = .receiving) := by
    simpa [awaitsPager,peer] using unawaited
  have saved := path.resolve_left other.1
  simp [wire,saved,other.2 saved]

/- Who neither acts nor is created waits on, while the others bring its fault forward. -/
theorem waitsKeep {saved peer} (paged : Paged k) (carries' : Carries k') (coherent : Coherent k)
    (clean : VerdictAtRisk k₀ input = false) (move : Move k₀ input k k')
    (point : faultPoint (k.threads f) = some (saved,peer)) (point' : faultPoint (k'.threads f) = some (saved,peer)) :
    Waits k' f peer := by
  obtain ⟨p,addr,rfl,fault,awaits⟩ := paged.path f saved peer point
  have passive : ∀ {es}, k'.history = es ++ k.history → ∀ e ∈ es,
      e.faults f = false ∧ e.actor ≠ some f ∧ ∀ q, k.Gone q → e.actor ≠ some q := by
    intro es older e member
    have others : e.actor ≠ some f := by
      intro actor
      rcases (moveActor coherent move older member actor).2 with none | none
      · cases none.symm.trans point
      · cases none.symm.trans point'
    refine ⟨faultsActor others,others,fun q gone actor => ?_⟩
    have running := coherent.currentRunning.mpr (moveActor coherent move older member actor).1
    rcases gone with unused | dead
    · cases running.symm.trans unused
    · cases running.symm.trans dead
  cases moveCreates coherent move with
  | none new older uncreated =>
    have quiet := fun e member => (passive older e member).1
    have grown : Awaits k.Gone (new ++ k.history) (phases k') f p addr := by
      refine awaitsGrow paged.carries ?_ (fun e member => ?_) fault awaits
      · rw [← older]
        exact carries'
      · obtain ⟨calm,others,away⟩ := passive older e member
        exact ⟨calm,others,away,uncreated p e member⟩
    refine ⟨p,addr,rfl,?_,?_⟩
    · rw [older]
      exact openGrow quiet fault
    · rw [older]
      exact grown.mono (moveGone coherent move older uncreated)
  | thread n caller tf prog found acting call named before after =>
    have older : k'.history = [.create n (some caller) prog] ++ k.history := by rw [after]; rfl
    have quiet : ∀ e ∈ [Event.create n (some caller) prog], e.faults f = false := by simp [Event.faults]
    refine ⟨p,addr,rfl,older ▸ openGrow quiet fault,?_⟩
    have passing := carriesPasses paged.carries carries' older
    by_cases reclaimed : n = p
    · subst reclaimed
      have unawaited : k.awaitsPager n f = false := by
        subst before
        have free : k₀.awaitsPager n f = false := cleanSpawn clean acting call named found f
        exact free
      have received := notAwaiting point unawaited
      have same : phases k' f = phases k f := by
        rcases passing with ⟨_,same⟩ | ⟨a,action,_⟩
        · rw [same]
        · cases action
      cases awaits with
      | @answered after' before' m phase split quiet' opened replied =>
        have split' : k'.history = (.create n (some caller) prog :: after') ++ .handOver n f :: before' := by
          rw [older,split]
          rfl
        exact .answered (same.trans phase) split' (List.forall_mem_cons.mpr ⟨rfl,quiet'⟩) opened replied
      | asking same phase => cases received.symm.trans phase
      | asked same phase told => cases received.symm.trans phase
      | waiting same phase told => cases received.symm.trans phase
      | forsaken same phase absent silent => cases received.symm.trans phase
    · rw [older]
      have uncreated : (Event.create n (some caller) prog).creates p = false := by simpa [Event.creates] using reclaimed
      have silent : ∀ q, (Event.create n (some caller) prog).actor ≠ some q := by simp [Event.actor]
      refine (awaitsCons rfl (silent f) (fun q _ => silent q) uncreated passing fault awaits).mono fun gone => ?_
      simpa [after,Gone,Ne.symm reclaimed] using gone

theorem waitsAsking {addr} (paged : Paged k₀) (forwards : Forwards k₀ input i addr)
    (before : k = k₀.log (.fault i addr k₀.pagerTid))
    (after : k' = ((k.log (.sendCall i k.pagerTid (faultMsg i addr))).stage i k.pagerTid
      (faultMsg i addr)).schedule (.send .fault)) :
    faultPoint (k'.threads i) = some (.send .fault,k.pagerTid) ∧ Waits k' i k.pagerTid := by
  have acting : Acting k i := before ▸ forwards.acting
  obtain ⟨p,named⟩ := paged.registered forwards.pager
  have pager : k.pagerTid = tid p := before ▸ named
  have left := pointLeave (k := k.log (.sendCall i k.pagerTid (faultMsg i addr)))
    (g := ({ · with ipcBuf := faultMsg i addr, ipcState := .sending, ipcPeer := k.pagerTid, state := .blocked }))
    (.send .fault) acting (by simp)
  have switch : Switch _ _ k' := after ▸ scheduleSwitch (.send .fault) (parkableLeave
    (k := k.log (.sendCall i k.pagerTid (faultMsg i addr)))
    (f := ({ · with ipcBuf := faultMsg i addr, ipcState := .sending, ipcPeer := k.pagerTid, state := .blocked }))
    acting (by simp))
  have older : k'.history = .sendCall i k.pagerTid (faultMsg i addr) :: .fault i addr (tid p) :: k₀.history := by
    rw [switch.history,← named]
    simp [before]
  refine ⟨after ▸ left.1,p,addr,pager,?_,.asking ?_ ?_⟩
  · rw [older]
    simp [Open,Event.faults]
  · rw [older]
    simp [SamePager,sinceFault,Event.faults,Event.creates]
  · exact (wirePrev switch acting.2).trans (by simp [wire,pager])

theorem waitsReceiving {addr} (coherent' : Coherent k') (carries : Carries k) (carries' : Carries k') (acting : Acting k i)
    (gone : k.Gone p → k'.Gone p) (asked : Asked k i p addr)
    (after : k' = ((k.log (.recvCall i k.pagerTid)).await i k.pagerTid).schedule (.recv .fault)) :
    faultPoint (k'.threads i) = some (.recv .fault,k.pagerTid) ∧ Waits k' i k.pagerTid := by
  have left := pointLeave (k := k.log (.recvCall i k.pagerTid))
    (g := ({ · with ipcState := .receiving, ipcPeer := k.pagerTid, state := .blocked })) (.recv .fault) acting (by simp)
  have switch : Switch _ _ k' := after ▸ scheduleSwitch (.recv .fault) (parkableLeave (k := k.log (.recvCall i k.pagerTid))
    (f := ({ · with ipcState := .receiving, ipcPeer := k.pagerTid, state := .blocked })) acting (by simp))
  have older : k'.history = .recvCall i (tid p) :: k.history := by
    rw [switch.history,← asked.pager]
    rfl
  have since : (Event.recvCall i (tid p)).faults i = false := rfl
  have same : SamePager k'.history i p := older ▸ samePagerCons since rfl asked.same
  have phase : phases k' i = .receiving (tid p) :=
    (wirePrev switch acting.2).trans (by simp [wire,asked.pager])
  refine ⟨after ▸ left.1,p,addr,asked.pager,?_,?_⟩
  · rw [older]
    exact openCons since asked.fault
  · rcases asked.told with told | absent
    · refine .waiting same phase ?_
      rw [older]
      exact toldCons since (carriesPasses carries carries' older) told
    · exact .forsaken same phase (gone absent) (wireGone coherent' (gone absent))

theorem verdictsKeep (paged₀ : Paged k₀) (coherent₀ : Coherent k₀) (coherent : Coherent k) (verdicts : Verdicts k.history)
    (clean : VerdictAtRisk k₀ input = false) (move : Move k₀ input k k') : Verdicts k'.history := by
  obtain ⟨es,older,justified⟩ := moveGrows coherent move
  by_cases ends : ∃ f reply, .faultEnd f reply ∈ es
  · obtain ⟨f,reply,member⟩ := ends
    obtain ⟨_,answered,after⟩ := justified _ member
    rw [after]
    refine ⟨verdicts,fun g reply' same => ?_⟩
    cases same
    exact answeredBy paged₀ coherent₀ clean answered
  · rw [older]
    exact verdicts.grow fun f reply member => ends ⟨f,reply,member⟩

theorem movePaged (clean : VerdictAtRisk k₀ input = false) (coherent₀ : Coherent k₀) (paged₀ : Paged k₀)
    (before : Moves k₀ input k₀ k) (coherent : Coherent k) (paged : Paged k) (move : Move k₀ input k k') : Paged k' := by
  have carries' := moveCarries paged.carries coherent move
  have coherent' := movesCoherent coherent₀ (before.tail move)
  have keep : ∀ f saved peer, faultPoint (k'.threads f) = faultPoint (k.threads f) →
      faultPoint (k'.threads f) = some (saved,peer) → Waits k' f peer :=
    fun f saved peer same point => waitsKeep paged carries' coherent clean move (same.symm.trans point) point
  refine ⟨carries',?_,?_,verdictsKeep paged₀ coherent₀ coherent paged.verdicts clean move⟩
  · intro valid
    rcases movePager move with same | named
    · rw [same] at valid ⊢
      exact paged.registered valid
    · exact named
  · intro f saved peer point
    cases movePath coherent move with
    | same same => exact keep f saved peer (same f) point
    | @asks i addr forwards start after other =>
      obtain ⟨own,waits⟩ := waitsAsking paged₀ forwards start after
      by_cases asker : f = i
      · subst asker
        cases own.symm.trans point
        exact waits
      · exact keep f saved peer (other f asker) point
    | @waits i acting sent after other =>
      obtain ⟨p,addr,asked⟩ := askedOf paged₀ coherent₀ clean sent
      have gone : k.Gone p → k'.Gone p := by
        have blocked := presenceBlock (j := p) (.recv .fault) (coherent.log (.recvCall i k.pagerTid)) acting
          (f := ({ · with ipcState := .receiving, ipcPeer := k.pagerTid, state := .blocked })) rfl
        rw [presenceGone,presenceGone,after]
        exact fun absent => blocked.symm ▸ absent
      obtain ⟨own,waits⟩ := waitsReceiving coherent' paged.carries carries' acting gone asked after
      by_cases asker : f = i
      · subst asker
        cases own.symm.trans point
        exact waits
      · exact keep f saved peer (other f asker) point
    | @wakes i mode current other own =>
      by_cases woken : f = i
      · subst woken
        cases own.symm.trans point
      · exact keep f saved peer (other f woken) point

theorem bootPaged (memory : Memory) (stackBase : Word) : Paged (boot memory stackBase) := by
  have vacant : ∀ f, faultPoint ((boot memory stackBase).threads f) = none := by
    intro f
    show faultPoint (if f = 0 then _ else threadZero) = _
    split <;> rfl
  refine ⟨bootCarries memory stackBase,?_,fun f saved peer point => ?_,trivial,nofun⟩
  · intro valid
    have none : (boot memory stackBase).pagerTid = -1 := rfl
    omega
  · cases (vacant f).symm.trans point

theorem reachPaged (h : Transition.Reach machine (fun k input => VerdictAtRisk k input = false) k) : Paged k :=
  reachUnder Paged bootPaged
    (fun _ _ _ _ clean coherent₀ paged₀ before coherent paged move =>
      movePaged clean coherent₀ paged₀ before coherent paged move) h

/- How a stretch of the page-fault path ends: in one of its two waits, or with the
verdict carried out. -/
inductive FaultOutcome (k k' : Kernel) (i : Slot) : Prop where
  | waits (new : List Event) (older : k'.history = new ++ k.history) (none : ∀ f reply, .faultEnd f reply ∉ new)
      (saved : (k'.threads i).saved = .send .fault ∨ (k'.threads i).saved = .recv .fault)
  | resumed {reply} (new : List Event) (older : k'.history = .faultEnd i reply :: new ++ k.history)
      (none : ∀ f reply, .faultEnd f reply ∉ new) (zero : reply.data0 = 0) (acting : Acting k' i)
  | killed {reply} (new : List Event) (older : k'.history = .dead i :: .faultEnd i reply :: new ++ k.history)
      (none : ∀ f reply, .faultEnd f reply ∉ new) (nonzero : reply.data0 ≠ 0) (dead : (k'.threads i).state = .dead)

theorem FaultOutcome.since (outcome : FaultOutcome k k' i) (between : List Event)
    (older : k.history = between ++ k₀.history) (none : ∀ f reply, .faultEnd f reply ∉ between) : FaultOutcome k₀ k' i := by
  have neither : ∀ new : List Event, (∀ f reply, .faultEnd f reply ∉ new) → ∀ f reply, .faultEnd f reply ∉ new ++ between := by
    intro new first f reply member
    rcases List.mem_append.mp member with now | before
    · exact first f reply now
    · exact none f reply before
  cases outcome with
  | waits new older' none' saved =>
    exact .waits (new ++ between) (by rw [older',older,List.append_assoc]) (neither new none') saved
  | resumed new older' none' zero acting =>
    exact .resumed (new ++ between) (by simp [older',older]) (neither new none') zero acting
  | killed new older' none' nonzero dead =>
    exact .killed (new ++ between) (by simp [older',older]) (neither new none') nonzero dead

theorem verdictOutcome {reply} (acting : Acting k i) : FaultOutcome k (k.faultVerdict i reply) i := by
  unfold faultVerdict
  dsimp only
  split
  · rename_i nonzero
    have switch := scheduleSwitch .killed (parkableLeave (k := (k.log (.faultEnd i reply)).log (.dead i))
      (f := ({ · with state := .dead })) acting (by simp))
    have dead : (((k.log (.faultEnd i reply)).die i .killed).threads i).state = .dead :=
      (congrArg Thread.state (switch.prev i acting.2)).trans (by simp)
    exact .killed [] switch.history (by simp) nonzero dead
  · rename_i zero
    exact .resumed [] rfl (by simp) (not_not.mp zero) acting

theorem faultRecvOutcome {junk} (acting : Acting k i) : FaultOutcome k (k.faultRecv i junk) i := by
  unfold faultRecv
  have outcome := ipcRecvOutcome k i k.pagerTid junk .fault
  generalize k.ipcRecvLocked i k.pagerTid junk .fault = result at outcome
  cases outcome with
  | irq pending =>
    have acting' : Acting (((k.log (.recvCall i k.pagerTid)).upd i fun t => { t with irqPending := t.irqPending - 1 }).log
        (.recvRet i ipcIrqSender (irqMsg junk))) i := acting
    exact (verdictOutcome acting').since [.recvRet i ipcIrqSender (irqMsg junk),.recvCall i k.pagerTid] rfl (by simp)
  | taken snd quiet waiting =>
    have acting' : Acting (((k.log (.recvCall i k.pagerTid)).pickUp i snd).log
        (.recvRet i (tid snd) (k.threads snd).ipcBuf)) i := acting
    exact (verdictOutcome acting').since
      [.recvRet i (tid snd) (k.threads snd).ipcBuf,.handOver snd i,.recvCall i k.pagerTid] rfl (by simp)
  | awaits quiet nobody =>
    have switch := scheduleSwitch (.recv .fault) (parkableLeave (k := k.log (.recvCall i k.pagerTid))
      (f := ({ · with ipcState := .receiving, ipcPeer := k.pagerTid, state := .blocked })) acting (by simp))
    have saved := (congrArg Thread.saved (switch.prev i acting.2)).trans (parkedSaved _ _)
    exact .waits [.recvCall i k.pagerTid] switch.history (by simp) (.inr saved)

theorem faultForwardOutcome {hw} (acting : Acting k i) : FaultOutcome k (k.faultForward i hw) i := by
  have acting₁ : Acting (k.log (.fault i hw.cr2 k.pagerTid)) i := acting
  have faulted : FaultOutcome (k.log (.fault i hw.cr2 k.pagerTid)) (k.faultForward i hw) i := by
    unfold faultForward
    dsimp only [logPagerTid]
    generalize k.log (.fault i hw.cr2 k.pagerTid) = k₁ at acting₁
    have outcome := ipcSendOutcome k₁ i k.pagerTid (faultMsg i hw.cr2) .fault
    generalize k₁.ipcSendLocked i k.pagerTid (faultMsg i hw.cr2) .fault = result at outcome
    cases outcome with
    | refused nobody =>
      have acting' : Acting ((k₁.log (.sendCall i k.pagerTid (faultMsg i hw.cr2))).log (.sendRet i (-1))) i := acting₁
      exact (faultRecvOutcome acting').since [.sendRet i (-1),.sendCall i k.pagerTid (faultMsg i hw.cr2)] rfl (by simp)
    | met d named ready =>
      have acting' : Acting (((k₁.log (.sendCall i k.pagerTid (faultMsg i hw.cr2))).deliver i d (faultMsg i hw.cr2)).log
          (.sendRet i 0)) i := acting₁
      exact (faultRecvOutcome acting').since
        [.sendRet i 0,.handOver i d,.sendCall i k.pagerTid (faultMsg i hw.cr2)] rfl (by simp)
    | staged d named present busy =>
      have switch := scheduleSwitch (.send .fault) (parkableLeave (k := k₁.log (.sendCall i k.pagerTid (faultMsg i hw.cr2)))
        (f := ({ · with ipcBuf := faultMsg i hw.cr2, ipcState := .sending, ipcPeer := k.pagerTid, state := .blocked }))
        acting₁ (by simp))
      have saved := (congrArg Thread.saved (switch.prev i acting₁.2)).trans (parkedSaved _ _)
      exact .waits [.sendCall i k.pagerTid (faultMsg i hw.cr2)] switch.history (by simp) (.inl saved)
  exact faulted.since [.fault i hw.cr2 k.pagerTid] rfl (by simp)

theorem forwardsStep {addr} (forwards : Forwards k input i addr) : FaultOutcome k (k.step input) i := by
  obtain ⟨tf,hw,rfl,vec,ring3,_⟩ := forwards.trap
  have notTimer : tf.vec ≠ vecTimer := by simp [vec,vecPf,vecTimer]
  have notCall : tf.vec ≠ syscallVector := by simp [vec,vecPf,syscallVector]
  have same : k.step (.trap tf hw) = k.faultForward i hw := by
    simp only [step,isrHandler,if_neg notTimer,if_neg notCall,if_pos vec,pageFault,forwards.acting.2]
    simp [ring3,forwards.pager,forwards.other]
  exact same ▸ faultForwardOutcome forwards.acting

theorem resumesStep (resumes : Resumes k input i)
    (path : (k.threads i).saved = .send .fault ∨ (k.threads i).saved = .recv .fault) : FaultOutcome k (k.step input) i := by
  obtain ⟨⟨junk,rfl⟩,mode,current⟩ := resumes
  have acting : Acting (k.onCpu i) i := ⟨rfl,current⟩
  rcases path with sent | received
  · have same : k.step (.resume junk) = ((k.onCpu i).ipcSendResume i).faultRecv i junk := by
      simp [step,resume,current,sent]
    have acting' : Acting ((k.onCpu i).ipcSendResume i) i := acting
    exact same ▸ (faultRecvOutcome acting').since [.sendRet i 0] rfl (by simp)
  · have same : k.step (.resume junk) =
        (((k.onCpu i).ipcRecvResume i junk).1).faultVerdict i ((k.onCpu i).ipcRecvResume i junk).2.2 := by
      simp [step,resume,current,received]
    have back : Acting ((k.onCpu i).ipcRecvResume i junk).1 i ∧
        ∃ r m, ((k.onCpu i).ipcRecvResume i junk).1.history = [.recvRet i r m] ++ k.history := by
      unfold ipcRecvResume
      dsimp only
      split <;> exact ⟨acting,_,_,rfl⟩
    obtain ⟨acting',r,m,older⟩ := back
    exact same ▸ (verdictOutcome acting').since [.recvRet i r m] older (by simp)

/- Thread `f` enters the page-fault path in this step or goes on in it. -/
def Faulting (k : Kernel) (input : Input) (f : Slot) : Prop :=
  (∃ addr, Forwards k input f addr) ∨ Resumes k input f ∧ faultPoint (k.threads f) ≠ none

theorem sentFaulting (sent : FaultSent k₀ input i k) : Faulting k₀ input i := by
  cases sent with
  | direct forwards result => exact .inl ⟨_,forwards⟩
  | resumed resumes saved => exact .inr ⟨resumes,by simp [faultPoint,saved]⟩

theorem answeredFaulting {reply} (answered : FaultAnswered k₀ input i reply k) : Faulting k₀ input i := by
  cases answered with
  | direct sent acting received => exact sentFaulting sent
  | resumed resumes saved received => exact .inr ⟨resumes,by simp [faultPoint,saved]⟩

theorem faultingStep (faulting : Faulting k input f) : FaultOutcome k (k.step input) f := by
  rcases faulting with ⟨addr,forwards⟩ | ⟨resumes,point⟩
  · exact forwardsStep forwards
  · cases path : faultPoint (k.threads f) with
    | none => exact absurd path point
    | some there => exact resumesStep resumes (pointOf path).2

/- A thread with an open fault is suspended in the path. -/
def Held (k : Kernel) : Prop := ∀ f addr pager, Open k.history f addr pager → faultPoint (k.threads f) ≠ none

theorem pointInPath {t : Thread} : faultPoint t ≠ none ↔ t.saved = .send .fault ∨ t.saved = .recv .fault := by
  constructor
  · intro point
    cases path : faultPoint t with
    | none => exact absurd path point
    | some there => exact (pointOf path).2
  · rintro (saved | saved) <;> simp [faultPoint,saved]

theorem stepHeld (coherent : Coherent k) (enabled : k.Enabled input) (held : Held k) : Held (k.step input) := by
  intro f addr pager opened
  by_cases faulting : Faulting k input f
  · rw [Open] at opened
    cases faultingStep faulting with
    | waits new older none saved => exact pointInPath.mpr saved
    | resumed new older none zero acting => simp [older,Event.faults] at opened
    | killed new older none nonzero dead => simp [older,Event.faults] at opened
  · obtain ⟨es,older,justified⟩ := movesGrown coherent (stepMoves enabled)
    have quiet : es.find? (Event.faults f) = none := by
      rw [List.find?_eq_none]
      intro e member faults
      obtain ⟨k₁,k₂,here⟩ := justified e member
      cases e with
      | fault g addr pager =>
        have own : g = f := by simpa [Event.faults] using faults
        subst own
        exact faulting (.inl ⟨addr,here.1⟩)
      | faultEnd g reply =>
        have own : g = f := by simpa [Event.faults] using faults
        subst own
        exact faulting (answeredFaulting here.2.1)
      | _ => cases faults
    rw [Open,older,List.find?_append,quiet,Option.none_or] at opened
    have before := held f addr pager opened
    have all : ∀ k', Moves k input k k' → faultPoint (k'.threads f) ≠ none := by
      intro k' moves
      induction moves with
      | refl => exact before
      | tail between move ih =>
        cases movePath (movesCoherent coherent between) move with
        | same same => rwa [same]
        | @asks i addr forwards start after other =>
          have apart : f ≠ i := fun own => faulting (own ▸ .inl ⟨addr,forwards⟩)
          rwa [other f apart]
        | @waits i acting sent after other =>
          have apart : f ≠ i := fun own => faulting (own ▸ sentFaulting sent)
          rwa [other f apart]
        | @wakes i mode current other own =>
          have apart : f ≠ i := by
            rintro rfl
            cases input with
            | resume junk => exact faulting (.inr ⟨⟨⟨junk,rfl⟩,mode,current⟩,before⟩)
            | trap tf hw => simp [Enabled,mode] at enabled
            | store va b => simp [Enabled,mode] at enabled
          rwa [other f apart]
    exact all _ (stepMoves enabled)

theorem reachHeld {ok : Kernel → Input → Prop} (h : Transition.Reach machine ok k) : Held k := by
  refine h.invariantUnder Held (fun _ => reachCoherent) ?_ ?_
  · rintro _ ⟨memory,stackBase,rfl⟩ f addr pager opened
    cases opened
  · intro k input coherent held enabled _
    exact stepHeld coherent enabled held

/- The verdict is carried out in the step that reads it. -/
theorem stepDecides {reply} (coherent : Coherent k) (enabled : k.Enabled input)
    (ended : Newer k (k.step input) (.faultEnd f reply)) :
    reply.data0 = 0 ∧ Acting (k.step input) f ∨ reply.data0 ≠ 0 ∧ ((k.step input).threads f).state = .dead := by
  obtain ⟨es,older,member⟩ := ended
  obtain ⟨es',older',justified⟩ := movesGrown coherent (stepMoves enabled)
  have same : es' = es := List.append_cancel_right (older'.symm.trans older)
  subst same
  obtain ⟨k₁,k₂,_,answered,_⟩ := justified _ member
  cases faultingStep (answeredFaulting answered) with
  | waits new grown none saved =>
    have same : new = es' := List.append_cancel_right (grown.symm.trans older)
    exact absurd (same ▸ member) (none f reply)
  | resumed new grown none zero acting =>
    have same : .faultEnd f _ :: new = es' := List.append_cancel_right (grown.symm.trans older)
    rcases List.mem_cons.mp (same ▸ member) with now | before
    · cases now
      exact .inl ⟨zero,acting⟩
    · exact absurd before (none f reply)
  | killed new grown none nonzero dead =>
    have same : .dead f :: .faultEnd f _ :: new = es' := List.append_cancel_right (grown.symm.trans older)
    rcases List.mem_cons.mp (same ▸ member) with never | rest
    · cases never
    · rcases List.mem_cons.mp rest with now | before
      · cases now
        exact .inr ⟨nonzero,dead⟩
      · exact absurd before (none f reply)

/- Every fault that has ended was ended by a message of its pager, a thread with an
open fault is still in the page-fault path, and what ends a fault decides it. -/
structure PagerDecides (k : Kernel) : Prop where
  answered : ∀ newer f reply older, k.history = newer ++ .faultEnd f reply :: older → ByPager older f reply
  held : ∀ f addr pager, Open k.history f addr pager →
    (k.threads f).saved = .send .fault ∨ (k.threads f).saved = .recv .fault
  decided : ∀ input f reply, k.Enabled input → Newer k (k.step input) (.faultEnd f reply) →
    reply.data0 = 0 ∧ Acting (k.step input) f ∨ reply.data0 ≠ 0 ∧ ((k.step input).threads f).state = .dead

theorem pagerVerdict (h : Transition.Reach machine (fun k input => VerdictAtRisk k input = false) k) : PagerDecides k := by
  have coherent := reachCoherent h
  refine ⟨fun newer f reply older split => ?_,?_,?_⟩
  · have verdicts := (reachPaged h).verdicts
    rw [split] at verdicts
    exact verdicts.split
  · exact fun f addr pager opened => pointInPath.mp (reachHeld h f addr pager opened)
  · exact fun input f reply enabled ended => stepDecides coherent enabled ended

/- Init registers as the pager and waits; thread 1 faults and is killed by the reply. -/
theorem pagerVerdictKilled :
    PagerDecides (Transition.run machine Script.start
      [.tick,.go,.call 4 1 0 0,.call 6 0 0 0,.call 3 (-1) Script.userPage 0,.go,.exception 14 0x1000,.go,
        .call 2 1 Script.userPage 0,.tick,.go]) :=
  pagerVerdict (Transition.Reach.run (S := machine) (.start ⟨Script.memory,0x110000,rfl⟩) (by decide +kernel))

/- Thread 1 drives interrupt line 1, which fires before its page fault. -/
def Script.interruptedFault : List Input :=
  [.tick,.go,.call 4 1 0 0,.call 6 0 0 0,.call 3 (-1) Script.userPage 0,.go,.call 15 1 0 0,.irq 1,
    .trap ⟨14,Input.userCs,0,0,0,0⟩ ⟨0x1000,0,⟨0,1,0,0⟩⟩]

theorem verdictByInterrupt : ∃ k, Reachable k ∧ ¬ PagerDecides k := by
  refine ⟨Transition.run machine Script.start Script.interruptedFault,Script.reach (by decide +kernel),fun decides => ?_⟩
  obtain ⟨addr,p,after,before,split,_⟩ := decides.answered
    ((Transition.run machine Script.start Script.interruptedFault).history.take 1) 1 ⟨msgIrq,1,0,0⟩
    ((Transition.run machine Script.start Script.interruptedFault).history.drop 2) (by decide +kernel)
  have first : ((Transition.run machine Script.start Script.interruptedFault).history.drop 2).head? =
      some (.recvRet 1 ipcIrqSender ⟨msgIrq,1,0,0⟩) := by decide +kernel
  rw [split,List.head?_cons] at first
  have named : tid p = ipcIrqSender := by simpa using first
  have := tidNonneg p
  simp only [ipcIrqSender] at named
  omega

end
end Mukern
