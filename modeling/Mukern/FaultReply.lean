import Mukern.Transfer

/-! The answer to a forwarded page fault, as the history of a run tells it: the
faulting thread sends its `MSG_FAULT`, the pager reads it and only then sends its
verdict, which the faulting thread reads. -/
namespace Mukern
open Kernel Rendezvous

def Event.faults (f : Slot) : Event → Bool
  | .fault g _ _ | .faultEnd g _ => g = f
  | _ => false

/- The thread whose own call or fault the event belongs to. -/
def Event.actor : Event → Option Slot
  | .sendCall t _ _ | .sendRet t _ | .recvCall t _ | .recvRet t _ _ | .fault t _ _ | .faultEnd t _ => some t
  | _ => none

/- Thread `f` has not come back from this fault yet. -/
def Open (h : List Event) (f : Slot) (addr : Word) (pager : Int) : Prop :=
  h.find? (Event.faults f) = some (.fault f addr pager)

def sinceFault (h : List Event) (f : Slot) : List Event := h.takeWhile fun e => !e.faults f

/- The thread in slot `p` is the one that was there when `f` faulted. -/
def SamePager (h : List Event) (f p : Slot) : Prop := ∀ e ∈ sinceFault h f, e.creates p = false

/- After the fault of `f`, thread `p` read its message and then sent `m` to `f`. -/
def Replied (h : List Event) (f p : Slot) (addr : Word) (m : IpcMsg) : Prop :=
  SamePager h f p ∧
    [.sendCall p (tid f) m,.recvRet p (tid f) (faultMsg f addr),.handOver f p].Sublist (sinceFault h f)

/- The reply that `f` has just read was sent by its pager in answer to the fault. -/
def ByPager (h : List Event) (f : Slot) (reply : IpcMsg) : Prop :=
  ∃ addr p after before, h = .recvRet f (tid p) reply :: (after ++ .handOver p f :: before) ∧
    (∀ e ∈ after, e.faults f = false) ∧ Open before f addr (tid p) ∧ Replied before f p addr reply

/- The pager has the message but has not read it, or it has read it. -/
inductive Told (h : List Event) (φ : Slot → Phase Int IpcMsg) (f p : Slot) (addr : Word) : Prop where
  | delivered (handed : [.handOver f p].Sublist (sinceFault h f))
      (waits : φ p = .received (tid f) (faultMsg f addr))
  | read (received : [.recvRet p (tid f) (faultMsg f addr),.handOver f p].Sublist (sinceFault h f))
      (reply : ∀ m, φ p = .sending (tid f) m →
        [.sendCall p (tid f) m,.recvRet p (tid f) (faultMsg f addr),.handOver f p].Sublist (sinceFault h f))

/- Where the exchange over an open fault stands. A pager that was gone when `f`
faulted leaves `f` waiting. -/
inductive Awaits (gone : Slot → Prop) (h : List Event) (φ : Slot → Phase Int IpcMsg) (f p : Slot) (addr : Word) : Prop where
  | asking (same : SamePager h f p) (phase : φ f = .sending (tid p) (faultMsg f addr))
  | asked (same : SamePager h f p) (phase : φ f = .sent) (told : Told h φ f p addr)
  | waiting (same : SamePager h f p) (phase : φ f = .receiving (tid p)) (told : Told h φ f p addr)
  | forsaken (same : SamePager h f p) (phase : φ f = .receiving (tid p)) (absent : gone p) (silent : φ p = .idle)
  | answered {after before m} (phase : φ f = .received (tid p) m) (split : h = after ++ .handOver p f :: before)
      (quiet : ∀ e ∈ after, e.faults f = false) (fault : Open before f addr (tid p)) (replied : Replied before f p addr m)

/- What an event does to the phases. -/
def Passes (e : Event) (φ φ' : Slot → Phase Int IpcMsg) : Prop :=
  e.action = none ∧ φ' = φ ∨ ∃ a, e.action = some a ∧ Step naming φ a φ'

section
variable {gone : Slot → Prop} {h es : List Event} {e : Event} {φ φ' : Slot → Phase Int IpcMsg} {f p : Slot}
  {addr : Word} {pager : Int} {a : Action Slot Int IpcMsg}

theorem passes (run : Run naming (actions (e :: h)) φ') : ∃ φ, Run naming (actions h) φ ∧ Passes e φ φ' := by
  cases action : e.action with
  | none =>
    have same : actions (e :: h) = actions h := by simp [actions,action]
    exact ⟨φ',same ▸ run,.inl ⟨action,rfl⟩⟩
  | some a =>
    have same : actions (e :: h) = a :: actions h := by simp [actions,action]
    rw [same] at run
    cases run with
    | cons before step => exact ⟨_,before,.inr ⟨a,action,step⟩⟩

theorem openGrow (quiet : ∀ e ∈ es, e.faults f = false) (fault : Open h f addr pager) : Open (es ++ h) f addr pager := by
  have none : es.find? (Event.faults f) = none := by
    rw [List.find?_eq_none]
    intro e member
    simp [quiet e member]
  rw [Open,List.find?_append,none,Option.none_or]
  exact fault

theorem openCons (quiet : e.faults f = false) (fault : Open h f addr pager) : Open (e :: h) f addr pager :=
  openGrow (List.forall_mem_singleton.mpr quiet) fault

theorem sinceFaultCons (quiet : e.faults f = false) : sinceFault (e :: h) f = e :: sinceFault h f := by
  simp [sinceFault,quiet]

theorem samePagerCons (quiet : e.faults f = false) (uncreated : e.creates p = false) (same : SamePager h f p) :
    SamePager (e :: h) f p := by
  rw [SamePager,sinceFaultCons quiet]
  exact List.forall_mem_cons.mpr ⟨uncreated,same⟩

theorem actionActor (action : e.action = some a) (other : e.actor ≠ some f) : a.actor ≠ some f := by
  cases e with
  | sendRet t r =>
    simp only [Event.action] at action
    split at action <;> (cases action; exact other)
  | recvRet t r m =>
    simp only [Event.action] at action
    split at action <;> (cases action; exact other)
  | handOver s d =>
    cases action
    exact (Option.some_ne_none f).symm
  | _ =>
    cases action
    try exact other

theorem takeEvent {d : Slot} {src : Int} {m : IpcMsg} (action : e.action = some (.take d src m)) : e = .recvRet d src m := by
  cases e with
  | sendRet t r =>
    simp only [Event.action] at action
    split at action <;> cases action
  | recvRet t r m =>
    simp only [Event.action] at action
    split at action
    · cases action
    · cases action
      rfl
  | _ => cases action

theorem callEvent {s : Slot} {dest : Int} {m : IpcMsg} (action : e.action = some (.call s dest m)) : e = .sendCall s dest m := by
  cases e with
  | sendCall t dest m =>
    cases action
    rfl
  | sendRet t r =>
    simp only [Event.action] at action
    split at action <;> cases action
  | recvRet t r m =>
    simp only [Event.action] at action
    split at action <;> cases action
  | _ => cases action

theorem handOverEvent {s d : Slot} (action : e.action = some (.handOver s d)) : e = .handOver s d := by
  cases e with
  | handOver t u =>
    cases action
    rfl
  | sendRet t r =>
    simp only [Event.action] at action
    split at action <;> cases action
  | recvRet t r m =>
    simp only [Event.action] at action
    split at action <;> cases action
  | _ => cases action

/- The pager reads the message before it replies. -/
theorem toldCons (quiet : e.faults f = false) (passing : Passes e φ φ') (told : Told h φ f p addr) :
    Told (e :: h) φ' f p addr := by
  obtain ⟨action,rfl⟩ | ⟨a,action,step⟩ := passing
  · cases told with
    | delivered handed waits => exact .delivered (sinceFaultCons quiet ▸ handed.cons e) waits
    | read received reply =>
      exact .read (sinceFaultCons quiet ▸ received.cons e) fun m sending => sinceFaultCons quiet ▸ (reply m sending).cons e
  · cases told with
    | delivered handed waits =>
      obtain waits | ⟨rfl,idle⟩ := stepReceived step waits
      · exact .delivered (sinceFaultCons quiet ▸ handed.cons e) waits
      · cases takeEvent action
        refine .read (sinceFaultCons quiet ▸ handed.cons_cons _) fun m sending => ?_
        cases idle.symm.trans sending
    | read received reply =>
      refine .read (sinceFaultCons quiet ▸ received.cons e) fun m sending => ?_
      obtain rfl | before := stepSending step sending
      · cases callEvent action
        exact sinceFaultCons quiet ▸ received.cons_cons _
      · exact sinceFaultCons quiet ▸ (reply m before).cons e

theorem tidAccepted {s : Slot} (accepts : naming.accepts (tid p) s) : s = p := by
  obtain any | same := accepts
  · have := tidNonneg p
    simp only [ipcAny] at any
    omega
  · exact (tidInj same).symm

/- What others do brings the exchange forward in order, and does not turn it back. -/
theorem awaitsCons (quiet : e.faults f = false) (other : e.actor ≠ some f) (away : ∀ q, gone q → e.actor ≠ some q)
    (uncreated : e.creates p = false) (passing : Passes e φ φ') (fault : Open h f addr (tid p))
    (awaits : Awaits gone h φ f p addr) : Awaits gone (e :: h) φ' f p addr := by
  have still : SamePager h f p → SamePager (e :: h) f p := samePagerCons quiet uncreated
  have further : Told h φ f p addr → Told (e :: h) φ' f p addr := toldCons quiet passing
  have passive : ∀ t, e.actor ≠ some t → φ' t = φ t ∨ ∃ a, e.action = some a ∧ Passive naming φ a φ' t := by
    intro t notOwn
    obtain ⟨_,rfl⟩ | ⟨a,action,step⟩ := passing
    · exact .inl rfl
    · exact .inr ⟨a,action,stepPassive step (actionActor action notOwn)⟩
  have moved : φ' f = φ f ∨ (∃ d m, e = .handOver f d ∧ φ f = .sending (tid d) m ∧ φ' f = .sent ∧
      φ' d = .received (tid f) m) ∨ ∃ s m w, e = .handOver s f ∧ φ f = .receiving w ∧ naming.accepts w s ∧
        φ s = .sending (tid f) m ∧ φ' f = .received (tid s) m := by
    obtain same | ⟨a,action,step⟩ := passive f other
    · exact .inl same
    · cases step with
      | same same => exact .inl same
      | @sent d m act sender after delivered =>
        subst act
        exact .inr (.inl ⟨d,m,handOverEvent action,sender,after,delivered⟩)
      | @received s m w act receiver accepts sender after =>
        subst act
        exact .inr (.inr ⟨s,m,w,handOverEvent action,receiver,accepts,sender,after⟩)
  cases awaits with
  | asking same phase =>
    obtain kept | ⟨d,m,rfl,sender,after,delivered⟩ | ⟨s,m,w,rfl,receiver,_⟩ := moved
    · exact .asking (still same) (kept.trans phase)
    · have agree : tid d = tid p ∧ m = faultMsg f addr := by
        simpa using sender.symm.trans phase
      obtain ⟨named,rfl⟩ := agree
      cases tidInj named
      refine .asked (still same) after (.delivered ?_ delivered)
      rw [sinceFaultCons quiet]
      exact (List.nil_sublist _).cons_cons _
    · cases receiver.symm.trans phase
  | asked same phase told =>
    obtain kept | ⟨d,m,rfl,sender,_⟩ | ⟨s,m,w,rfl,receiver,_⟩ := moved
    · exact .asked (still same) (kept.trans phase) (further told)
    · cases sender.symm.trans phase
    · cases receiver.symm.trans phase
  | waiting same phase told =>
    obtain kept | ⟨d,m,rfl,sender,_⟩ | ⟨s,m,w,rfl,receiver,accepts,sender,after⟩ := moved
    · exact .waiting (still same) (kept.trans phase) (further told)
    · cases sender.symm.trans phase
    · cases receiver.symm.trans phase
      cases tidAccepted accepts
      cases told with
      | delivered handed waits => cases waits.symm.trans sender
      | read received reply =>
        have split : Event.handOver p f :: h = [] ++ .handOver p f :: h := rfl
        exact .answered after split (by simp) fault ⟨same,reply m sender⟩
  | forsaken same phase absent silent =>
    have silent' : φ' p = .idle := by
      obtain kept | ⟨a,action,step⟩ := passive p (away p absent)
      · exact kept.trans silent
      · cases step with
        | same kept => exact kept.trans silent
        | sent act sender => cases silent.symm.trans sender
        | received act receiver => cases silent.symm.trans receiver
    obtain kept | ⟨d,m,rfl,sender,_⟩ | ⟨s,m,w,rfl,receiver,accepts,sender,_⟩ := moved
    · exact .forsaken (still same) (kept.trans phase) absent silent'
    · cases sender.symm.trans phase
    · cases receiver.symm.trans phase
      cases tidAccepted accepts
      cases silent.symm.trans sender
  | @answered after before m phase split quiet' opened replied =>
    obtain kept | ⟨d,m,rfl,sender,_⟩ | ⟨s,m,w,rfl,receiver,_⟩ := moved
    · have split' : e :: h = (e :: after) ++ .handOver p f :: before := by rw [split,List.cons_append]
      exact .answered (kept.trans phase) split' (List.forall_mem_cons.mpr ⟨quiet,quiet'⟩) opened replied
    · cases sender.symm.trans phase
    · cases receiver.symm.trans phase

theorem awaitsGrow (run : Run naming (actions h) φ) (run' : Run naming (actions (es ++ h)) φ')
    (quiet : ∀ e ∈ es, e.faults f = false ∧ e.actor ≠ some f ∧ (∀ q, gone q → e.actor ≠ some q) ∧ e.creates p = false)
    (fault : Open h f addr (tid p)) (awaits : Awaits gone h φ f p addr) : Awaits gone (es ++ h) φ' f p addr := by
  induction es generalizing φ' with
  | nil =>
    cases run.unique run'
    exact awaits
  | cons e es ih =>
    obtain ⟨first,rest⟩ := List.forall_mem_cons.mp quiet
    obtain ⟨ψ,before,passing⟩ := passes run'
    exact awaitsCons first.1 first.2.1 first.2.2.1 first.2.2.2 passing
      (openGrow (fun e member => (rest e member).1) fault) (ih before rest)

theorem Awaits.mono {gone' : Slot → Prop} (weaker : gone p → gone' p) (awaits : Awaits gone h φ f p addr) :
    Awaits gone' h φ f p addr := by
  cases awaits with
  | asking same phase => exact .asking same phase
  | asked same phase told => exact .asked same phase told
  | waiting same phase told => exact .waiting same phase told
  | forsaken same phase absent silent => exact .forsaken same phase (weaker absent) silent
  | answered phase split quiet opened replied => exact .answered phase split quiet opened replied

end
end Mukern
