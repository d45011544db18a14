import Mukern.Coherence

/-! Slots are reused. A slot's occupant dies in `SYS_EXIT` or by its pager's
verdict; from then on its suspended context lies still until `thread_create`
plants a new one. -/
namespace Mukern
open Kernel

def Event.creates (i : Slot) : Event → Bool
  | .create j _ _ => j = i
  | _ => false

/- The events younger than the creation of the present occupant of slot `i`. -/
def sinceBirth (h : List Event) (i : Slot) : List Event := h.takeWhile fun e => !e.creates i

section
variable {k₀ k k' : Kernel} {input : Input} {i j : Slot} {e : Event} {es h : List Event}

/- The event that made the present occupant of slot `i`. -/
def birth (h : List Event) (i : Slot) : Option Event := h.find? fun e => e.creates i

theorem birthSame (uncreated : ∀ parent prog, .create i parent prog ∉ es) :
    birth (es ++ h) i = birth h i := by
  have none : es.find? (fun e => e.creates i) = none := by
    rw [List.find?_eq_none]
    intro e member creates
    cases e with
    | create j parent prog =>
      have same : j = i := by simpa [Event.creates] using creates
      subst same
      exact uncreated parent prog member
    | _ => cases creates
  rw [birth,List.find?_append,none,Option.none_or]
  rfl

theorem sinceBirthGrow (uncreated : ∀ e ∈ es, e.creates i = false) :
    sinceBirth (es ++ h) i = es ++ sinceBirth h i := by
  induction es with
  | nil => rfl
  | cons e es ih =>
    have first := uncreated e List.mem_cons_self
    have rest := ih fun e member => uncreated e (List.mem_cons_of_mem _ member)
    rw [List.cons_append,sinceBirth,List.takeWhile_cons]
    simp only [first,Bool.not_false,if_true]
    exact congrArg (e :: ·) rest

theorem sinceBirthOther {n parent prog} (other : i ≠ n) :
    sinceBirth (.create n parent prog :: h) i = .create n parent prog :: sinceBirth h i := by
  have uncreated : ∀ e ∈ [Event.create n parent prog], e.creates i = false := by
    simp [Event.creates,Ne.symm other]
  exact sinceBirthGrow uncreated

/- The scheduler state and the suspended context of slot `j`. -/
def Lies (k : Kernel) (j : Slot) (state : ThreadState) (point : Context) : Prop :=
  (k.threads j).state = state ∧ (k.threads j).saved = point

/- Still so, or chosen by a switch to continue from the same point. -/
def Settles (k : Kernel) (j : Slot) (state : ThreadState) (point : Context) : Prop :=
  Lies k j state point ∨ state = .runnable ∧ k.mode = .resume ∧ Lies k j .running point

variable {state : ThreadState} {point at' : Context}

theorem Lies.log (lies : Lies k j state point) (e : Event) : Lies (k.log e) j state point := lies

theorem Lies.upd (lies : Lies k j state point) (f : Thread → Thread)
    (own : i = j → (f (k.threads j)).state = state ∧ (f (k.threads j)).saved = point) :
    Lies (k.upd i f) j state point := by
  by_cases same : j = i
  · subst same
    simpa [Lies] using own rfl
  · simpa [Lies,same] using lies

/- What an event says about the move that wrote it. -/
def Justified (k₀ : Kernel) (input : Input) (k k' : Kernel) : Event → Prop
  | .dead i => (k'.threads i).state = .dead
  | .create i parent prog => k.freeThread = some i ∧ ∃ caller tf, parent = some caller ∧ Acting k₀ caller ∧
      IsCall input .spawn tf ∧ cint tf.rdi = (prog.val : Int) ∧ k = k₀.log (.syscall caller tf) ∧
        k' = (k.threadCreate parent prog).1
  | .copy _ va write => copied k₀ input = some (va,write)
  | .sendCall i _ _ => Acting k i
  | .sendRet i _ | .recvCall i _ | .recvRet i _ _ => k.current = some i
  | .fault i addr pager => Forwards k₀ input i addr ∧ k = k₀ ∧ pager = k.pagerTid ∧ k' = k.log (.fault i addr pager)
  | .portIo i port => ∃ tf, Acting k₀ i ∧ IsPortCall input tf ∧ (k₀.threads i).ctable.hasPort port ∧
      port = tf.rdi.setWidth 16 ∧ k = k₀.log (.syscall i tf) ∧ k' = k.log (.portIo i port)
  | .grantIo t base len => ∃ tf, Acting k₀ 0 ∧ IsCall input .grantIo tf ∧ cint tf.rdi = tid t ∧
      base = tf.rsi.setWidth 16 ∧ len = tf.rdx.setWidth 16 ∧ k = k₀.log (.syscall 0 tf)
  | .irqPost line d => k.irqTid line = tid d ∧ ¬ k.Gone d ∧ k'.history = .irqPost line d :: k.history
  | .setPager i => Acting k' i ∧ k'.pagerTid = tid i
  | .irqRegister i line => Acting k' i ∧ k'.irqTid line = tid i
  | .faultEnd i reply => Acting k i ∧ FaultAnswered k₀ input i reply k ∧ k' = k.log (.faultEnd i reply)
  | _ => True

def Grows (k₀ : Kernel) (input : Input) (k k' : Kernel) : Prop :=
  ∃ es, k'.history = es ++ k.history ∧ ∀ e ∈ es, Justified k₀ input k k' e

theorem growsSame (same : k'.history = k.history) : Grows k₀ input k k' := ⟨[],same,by simp⟩

theorem growsLog (older : k'.history = e :: k.history) (justified : Justified k₀ input k k' e) : Grows k₀ input k k' :=
  ⟨[e],older,by simpa using justified⟩

theorem growsTwo {e'} (older : k'.history = e' :: e :: k.history) (first : Justified k₀ input k k' e)
    (second : Justified k₀ input k k' e') : Grows k₀ input k k' :=
  ⟨[e',e],older,by simpa using ⟨second,first⟩⟩

theorem parkableLeave {f : Thread → Thread} (acting : Acting k i)
    (asleep : (f (k.threads i)).state ≠ .runnable) :
    ∀ p, (k.upd i f).current = some p → ((k.upd i f).threads p).state ≠ .runnable := by
  intro p current
  cases acting.2.symm.trans current
  simpa using asleep

theorem growsDie {point} (acting : Acting k i) : Grows k₀ input k (k.die i point) := by
  have switch := scheduleSwitch (k := (k.log (.dead i)).upd i ({ · with state := .dead })) point
    (parkableLeave (f := ({ · with state := .dead })) (k := k.log (.dead i)) acting (by simp))
  refine growsLog switch.history ?_
  have parked := switch.prev i acting.2
  simp only [Justified]
  exact (congrArg Thread.state parked).trans (by simp)

theorem growsSend {dest m caller} (acting : Acting k i) : Grows k₀ input k (k.ipcSendLocked i dest m caller).1 := by
  have outcome := ipcSendOutcome k i dest m caller
  generalize k.ipcSendLocked i dest m caller = result at outcome
  cases outcome with
  | refused nobody => exact growsTwo rfl acting acting.2
  | met d named ready => exact ⟨[.sendRet i 0,.handOver i d,.sendCall i dest m],rfl,by simp [Justified,acting,acting.2]⟩
  | staged d named present busy =>
    have switch := scheduleSwitch (.send caller) (parkableLeave (k := k.log (.sendCall i dest m))
      (f := ({ · with ipcBuf := m, ipcState := .sending, ipcPeer := dest, state := .blocked })) acting (by simp))
    exact growsLog switch.history acting

theorem growsRecv {src junk caller} (acting : Acting k i) : Grows k₀ input k (k.ipcRecvLocked i src junk caller).1 := by
  have outcome := ipcRecvOutcome k i src junk caller
  generalize k.ipcRecvLocked i src junk caller = result at outcome
  cases outcome with
  | irq pending => exact growsTwo rfl acting.2 acting.2
  | taken snd quiet waiting =>
    exact ⟨[.recvRet i (tid snd) (k.threads snd).ipcBuf,.handOver snd i,.recvCall i src],rfl,by simp [Justified,acting.2]⟩
  | awaits quiet nobody =>
    have switch := scheduleSwitch (.recv caller) (parkableLeave (k := k.log (.recvCall i src))
      (f := ({ · with ipcState := .receiving, ipcPeer := src, state := .blocked })) acting (by simp))
    exact growsLog switch.history acting.2

theorem growsCreate {tf prog} (acting : Acting k₀ i) (call : IsCall input .spawn tf)
    (named : cint tf.rdi = (prog.val : Int)) :
    Grows k₀ input (k₀.log (.syscall i tf)) ((k₀.log (.syscall i tf)).threadCreate (some i) prog).1 := by
  cases found : (k₀.log (.syscall i tf)).freeThread with
  | some n =>
    have older : ((k₀.log (.syscall i tf)).threadCreate (some i) prog).1.history =
        .create n (some i) prog :: (k₀.log (.syscall i tf)).history := by
      rw [threadCreate,found]
      rfl
    exact growsLog older ⟨found,i,tf,rfl,acting,call,named,rfl,rfl⟩
  | none =>
    refine growsSame ?_
    rw [threadCreate,found]

theorem growsGrant {target ep} : Grows k₀ input k (k.capGrantEndpoint target ep).1 := by
  unfold capGrantEndpoint
  split
  · exact growsSame rfl
  · dsimp only
    split
    · exact growsLog rfl trivial
    · exact growsSame rfl

theorem growsGrantIo {tf} (acting : Acting k₀ 0) (call : IsCall input .grantIo tf) :
    Grows k₀ input (k₀.log (.syscall 0 tf))
      ((k₀.log (.syscall 0 tf)).capGrantIo (threadById (cint tf.rdi)) (tf.rsi.setWidth 16) (tf.rdx.setWidth 16)).1 := by
  unfold capGrantIo
  split
  · exact growsSame rfl
  · rename_i t found
    dsimp only
    split
    · exact growsLog rfl ⟨tf,acting,call,threadByIdSome.mp found,rfl,rfl,rfl⟩
    · exact growsSame rfl

theorem growsIrq {line} : Grows k₀ input k (k.irqNotify line) := by
  unfold irqNotify
  split
  · exact growsSame rfl
  · rename_i d found
    split
    · rename_i live
      exact growsLog rfl ⟨threadByIdSome.mp found,not_or.mpr live,rfl⟩
    · exact growsSame rfl

theorem growsTick (coherent : Coherent k) : Grows k₀ input k k.timerTick := by
  refine growsSame (scheduleSwitch (k := { k with ticks := k.ticks + 1 }) .tick ?_).history
  intro p current
  have running : (k.threads p).state = .running := coherent.currentRunning.mpr current
  simp [running]

theorem moveGrows (coherent : Coherent k) (move : Move k₀ input k k') : Grows k₀ input k k' := by
  cases move with
  | enter acting => exact growsLog rfl trivial
  | leave acting => exact growsLog rfl trivial
  | port acting call held => exact growsLog rfl ⟨_,acting,call,held,rfl,rfl,rfl⟩
  | copy acting source => exact growsLog rfl source
  | memory memory => exact growsSame rfl
  | openCall acting allowed => exact growsLog rfl trivial
  | closeCall source acting => exact growsSame rfl
  | send acting called => exact growsSend acting
  | recv src junk rsi acting => exact growsRecv acting
  | create prog acting call named => exact growsCreate acting call named
  | grantChild child acting created => exact growsGrant
  | grantCap acting call held => exact growsGrant
  | grantIo acting call => exact growsGrantIo acting call
  | setPager acting call => exact growsLog rfl ⟨acting,rfl⟩
  | irqRegister acting call named => exact growsLog rfl ⟨acting,if_pos rfl⟩
  | exit acting call => exact growsDie acting
  | fault forwards => exact growsLog rfl ⟨forwards,rfl,rfl,rfl⟩
  | faultSend forwards => exact growsSend forwards.acting
  | faultRecv junk acting sent => exact growsRecv acting
  | faultEnd acting answered => exact growsLog rfl ⟨acting,answered,rfl⟩
  | kill acting verdict nonzero => exact growsDie acting
  | tick user => exact growsTick coherent
  | irq user call vec => exact growsIrq
  | resumeIdle mode current => exact growsSame rfl
  | resumePlain mode current saved => exact growsSame rfl
  | resumeSend mode current saved => exact growsLog rfl current
  | resumeRecv junk mode current saved =>
    unfold ipcRecvResume
    dsimp only
    split <;> exact growsLog rfl current
  | panic live => exact growsSame rfl

theorem movesGrown (coherent : Coherent k₀) (moves : Moves k₀ input k₀ k) :
    ∃ es, k.history = es ++ k₀.history ∧ ∀ e ∈ es, ∃ k k', Justified k₀ input k k' e := by
  induction moves with
  | refl => exact ⟨[],rfl,by simp⟩
  | @tail k₁ k₂ before move ih =>
    obtain ⟨es,older,justified⟩ := ih
    obtain ⟨es',older',justified'⟩ := moveGrows (movesCoherent coherent before) move
    refine ⟨es' ++ es,by rw [older',older,List.append_assoc],fun e member => ?_⟩
    obtain newer | member := List.mem_append.mp member
    · exact ⟨k₁,k₂,justified' e newer⟩
    · exact justified e member

def Newer (k₀ k : Kernel) (e : Event) : Prop := ∃ es, k.history = es ++ k₀.history ∧ e ∈ es

theorem Newer.grow (newer : Newer k₀ k e) (grows : Grows k₀ input k k') : Newer k₀ k' e := by
  obtain ⟨es,older,member⟩ := newer
  obtain ⟨es',older',_⟩ := grows
  exact ⟨es' ++ es,by rw [older',older,List.append_assoc],List.mem_append_right _ member⟩

theorem Newer.since (newer : Newer k₀ k e) (older : ∃ es, k₀.history = es ++ k'.history) : Newer k' k e := by
  obtain ⟨es,grown,member⟩ := newer
  obtain ⟨es',same⟩ := older
  exact ⟨es ++ es',by rw [grown,same,List.append_assoc],List.mem_append_left _ member⟩

/- Between a switch and the end of the step, only memory may still change. -/
theorem moveLive (move : Move k₀ input k k') :
    k.mode = .user ∨ k = k₀ ∨ k'.mode = k.mode ∧ k'.threads = k.threads := by
  cases move with
  | memory memory => exact .inr (.inr ⟨rfl,rfl⟩)
  | panic live => exact .inl live
  | leave acting => exact .inl acting.1
  | port acting call held => exact .inl acting.1
  | copy acting source => exact .inl acting.1
  | openCall acting allowed => exact .inl acting.1
  | closeCall source acting => exact .inl acting.1
  | send acting called => exact .inl acting.1
  | recv src junk rsi acting => exact .inl acting.1
  | create prog acting call named => exact .inl acting.1
  | grantChild child acting created => exact .inl acting.1
  | grantCap acting call held => exact .inl acting.1
  | grantIo acting call => exact .inl acting.1
  | setPager acting call => exact .inl acting.1
  | irqRegister acting call named => exact .inl acting.1
  | exit acting call => exact .inl acting.1
  | faultSend forwards => exact .inl forwards.acting.1
  | faultRecv junk acting sent => exact .inl acting.1
  | faultEnd acting answered => exact .inl acting.1
  | kill acting verdict nonzero => exact .inl acting.1
  | _ => exact .inr (.inl rfl)

end
end Mukern
