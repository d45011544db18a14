import Mathlib.Algebra.Ring.Nat
import Mathlib.Logic.Function.Basic

/-! Synchronous rendezvous between actors `T` that address each other by names `A`
and pass messages `M`. A run is a list of actions, newest first; `Step` says which
action the phases of the actors allow. The `Ledger` of a run has a row for every
call of send and of receive and notes each hand-over in the rows of both calls that
are open then; `runFaithful` says that it pairs them off one to one. -/
namespace Rendezvous

inductive Action (T A M : Type) where
  | call (s : T) (dest : A) (m : M)
  | refuse (s : T)
  | done (s : T)
  | handOver (s d : T)
  | listen (d : T) (want : A)
  | take (d : T) (src : A) (m : M)
  | signal (d : T)

inductive Phase (A M : Type) where
  | idle
  | sending (dest : A) (m : M)
  | sent
  | receiving (want : A)
  | received (src : A) (m : M)

structure Naming (T A : Type) where
  name : T → A
  accepts : A → T → Prop

structure Sent (T A M : Type) where
  dest : A
  msg : M
  taken : List (T × Nat)
  ret : Option Bool

/- `some none` is a return without a sender. -/
structure Got (T A M : Type) where
  want : A
  given : List (T × Nat)
  ret : Option (Option (A × M))

/- The calls of each actor, newest first. -/
structure Ledger (T A M : Type) where
  sends : T → List (Sent T A M)
  recvs : T → List (Got T A M)

/- The `n`-th call in order of time. -/
def call? {α : Type} : List α → Nat → Option α
  | [], _ => none
  | c :: older, n => if n = older.length then some c else call? older n

def onHead {α : Type} (f : α → α) : List α → List α
  | [] => []
  | c :: older => f c :: older

section
variable {T A M : Type} [DecidableEq T]
open Function

inductive Step (N : Naming T A) : (T → Phase A M) → Action T A M → (T → Phase A M) → Prop where
  | call {φ s dest m} (idle : φ s = .idle) : Step N φ (.call s dest m) (update φ s (.sending dest m))
  | refuse {φ s dest m} (pending : φ s = .sending dest m) : Step N φ (.refuse s) (update φ s .idle)
  | done {φ s} (sent : φ s = .sent) : Step N φ (.done s) (update φ s .idle)
  | handOver {φ s d m w} (sender : φ s = .sending (N.name d) m) (receiver : φ d = .receiving w)
      (accepts : N.accepts w s) :
      Step N φ (.handOver s d) (update (update φ s .sent) d (.received (N.name s) m))
  | listen {φ d w} (idle : φ d = .idle) : Step N φ (.listen d w) (update φ d (.receiving w))
  | take {φ d a m} (received : φ d = .received a m) : Step N φ (.take d a m) (update φ d .idle)
  | signal {φ d w} (waiting : φ d = .receiving w) : Step N φ (.signal d) (update φ d .idle)

inductive Run (N : Naming T A) : List (Action T A M) → (T → Phase A M) → Prop where
  | nil : Run N [] fun _ => .idle
  | cons {as a φ φ'} (before : Run N as φ) (step : Step N φ a φ') : Run N (a :: as) φ'

def Ledger.record (L : Ledger T A M) : Action T A M → Ledger T A M
  | .call s dest m => { L with sends := update L.sends s (⟨dest,m,[],none⟩ :: L.sends s) }
  | .refuse s => { L with sends := update L.sends s (onHead ({ · with ret := some false }) (L.sends s)) }
  | .done s => { L with sends := update L.sends s (onHead ({ · with ret := some true }) (L.sends s)) }
  | .handOver s d =>
    { sends := update L.sends s (onHead (fun c => { c with taken := (d,(L.recvs d).length - 1) :: c.taken }) (L.sends s))
      recvs := update L.recvs d (onHead (fun r => { r with given := (s,(L.sends s).length - 1) :: r.given }) (L.recvs d)) }
  | .listen d want => { L with recvs := update L.recvs d (⟨want,[],none⟩ :: L.recvs d) }
  | .take d src m => { L with recvs := update L.recvs d (onHead ({ · with ret := some (some (src,m)) }) (L.recvs d)) }
  | .signal d => { L with recvs := update L.recvs d (onHead ({ · with ret := some none }) (L.recvs d)) }

def ledger : List (Action T A M) → Ledger T A M
  | [] => ⟨fun _ => [],fun _ => []⟩
  | a :: as => (ledger as).record a

/- The actions of a run determine its phases. -/
theorem Run.unique {N : Naming T A} {as : List (Action T A M)} {φ ψ : T → Phase A M} (run : Run N as φ)
    (other : Run N as ψ) : φ = ψ := by
  induction run generalizing ψ with
  | nil =>
    cases other
    rfl
  | cons before step ih =>
    cases other with
    | cons before' step' =>
      cases ih before'
      cases step with
      | handOver sender receiver accepts =>
        cases step' with
        | handOver sender' receiver' accepts' =>
          cases sender.symm.trans sender'
          rfl
      | _ =>
        cases step'
        rfl

theorem Run.tail {N : Naming T A} {as bs : List (Action T A M)} {φ : T → Phase A M} (run : Run N (as ++ bs) φ) :
    ∃ ψ, Run N bs ψ := by
  induction as generalizing φ with
  | nil => exact ⟨φ,run⟩
  | cons a as ih =>
    cases run with
    | cons before step => exact ih before

/- Who waits in a send has called it by this action, or waited before. -/
theorem stepSending {N : Naming T A} {φ φ' : T → Phase A M} {a : Action T A M} {s : T} {dest : A} {m : M}
    (step : Step N φ a φ') (sending : φ' s = .sending dest m) : a = .call s dest m ∨ φ s = .sending dest m := by
  cases step with
  | @call t dest' m' idle =>
    by_cases same : s = t
    · subst same
      rw [update_self] at sending
      cases sending
      exact .inl rfl
    · rw [update_of_ne same] at sending
      exact .inr sending
  | @handOver t d m' w sender receiver accepts =>
    by_cases same : s = d
    · subst same
      rw [update_self] at sending
      cases sending
    · rw [update_of_ne same] at sending
      by_cases own : s = t
      · subst own
        rw [update_self] at sending
        cases sending
      · rw [update_of_ne own] at sending
        exact .inr sending
  | @refuse t | @done t | @listen t | @take t | @signal t =>
    by_cases same : s = t
    · subst same
      rw [update_self] at sending
      cases sending
    · rw [update_of_ne same] at sending
      exact .inr sending

def Action.actor : Action T A M → Option T
  | .call t _ _ | .refuse t | .done t | .listen t _ | .take t _ _ | .signal t => some t
  | .handOver _ _ => none

/- What a step does to an actor whose own step it is not. -/
inductive Passive (N : Naming T A) (φ : T → Phase A M) (a : Action T A M) (φ' : T → Phase A M) (t : T) : Prop where
  | same (same : φ' t = φ t)
  | sent {d m} (act : a = .handOver t d) (sender : φ t = .sending (N.name d) m) (after : φ' t = .sent)
      (delivered : φ' d = .received (N.name t) m)
  | received {s m w} (act : a = .handOver s t) (receiver : φ t = .receiving w) (accepts : N.accepts w s)
      (sender : φ s = .sending (N.name t) m) (after : φ' t = .received (N.name s) m)

theorem stepPassive {N : Naming T A} {φ φ' : T → Phase A M} {a : Action T A M} {t : T} (step : Step N φ a φ')
    (other : a.actor ≠ some t) : Passive N φ a φ' t := by
  cases step with
  | @handOver s d m w sender receiver accepts =>
    by_cases receives : t = d
    · subst receives
      exact .received rfl receiver accepts sender (update_self _ _ _)
    · by_cases sends : t = s
      · subst sends
        exact .sent rfl sender ((update_of_ne receives _ _).trans (update_self _ _ _)) (update_self _ _ _)
      · exact .same ((update_of_ne receives _ _).trans (update_of_ne sends _ _))
  | @call s dest m idle | @refuse s dest m pending | @done s sent | @listen s w idle | @take s a m received
  | @signal s w waiting =>
    exact .same (update_of_ne (fun own => other (congrArg some own.symm)) _ _)

/- A delivered message waits until its receiver takes it. -/
theorem stepReceived {N : Naming T A} {φ φ' : T → Phase A M} {a : Action T A M} {t : T} {src : A} {m : M}
    (step : Step N φ a φ') (received : φ t = .received src m) :
    φ' t = .received src m ∨ a = .take t src m ∧ φ' t = .idle := by
  by_cases own : a.actor = some t
  · cases step with
    | take received' =>
      cases Option.some.inj own
      cases received.symm.trans received'
      exact .inr ⟨rfl,update_self _ _ _⟩
    | call before | refuse before | done before | listen before | signal before =>
      cases Option.some.inj own
      cases received.symm.trans before
    | handOver sender receiver accepts => cases own
  · cases stepPassive step own with
    | same same => exact .inl (same.trans received)
    | sent act before => cases received.symm.trans before
    | received act before => cases received.symm.trans before

/- Every send that returned success was taken exactly once, by the actor it named;
every receive that returned a message got it from exactly one such send, which it
was willing to hear; and the two columns are inverse to each other. -/
structure Faithful (N : Naming T A) (L : Ledger T A M) : Prop where
  sent : ∀ s n c, call? (L.sends s) n = some c →
    (c.ret = some true → c.taken ≠ []) ∧ (c.ret = some false → c.taken = [])
  taken : ∀ s n c, call? (L.sends s) n = some c → c.taken = [] ∨ ∃ d j r, c.taken = [(d,j)] ∧
    c.dest = N.name d ∧ call? (L.recvs d) j = some r ∧ r.given = [(s,n)]
  got : ∀ d j r, call? (L.recvs d) j = some r →
    (∀ a m, r.ret = some (some (a,m)) → r.given ≠ []) ∧ (r.ret = some none → r.given = [])
  given : ∀ d j r, call? (L.recvs d) j = some r → r.given = [] ∨ ∃ s n c, r.given = [(s,n)] ∧
    N.accepts r.want s ∧ call? (L.sends s) n = some c ∧ c.taken = [(d,j)] ∧
      ∀ a m, r.ret = some (some (a,m)) → a = N.name s ∧ m = c.msg

/- What an actor's phase says about its newest calls. -/
def Fits (N : Naming T A) (L : Ledger T A M) (t : T) : Phase A M → Prop
  | .idle => (∀ c ∈ (L.sends t).head?, c.ret ≠ none) ∧ ∀ r ∈ (L.recvs t).head?, r.ret ≠ none
  | .sending dest m => (∃ older, L.sends t = ⟨dest,m,[],none⟩ :: older) ∧
      ∀ r ∈ (L.recvs t).head?, r.ret ≠ none
  | .sent => (∃ c older, L.sends t = c :: older ∧ c.ret = none ∧ c.taken ≠ []) ∧
      ∀ r ∈ (L.recvs t).head?, r.ret ≠ none
  | .receiving w => (∀ c ∈ (L.sends t).head?, c.ret ≠ none) ∧ ∃ older, L.recvs t = ⟨w,[],none⟩ :: older
  | .received a m => (∀ c ∈ (L.sends t).head?, c.ret ≠ none) ∧ ∃ r older s n c, L.recvs t = r :: older ∧
      r.ret = none ∧ r.given = [(s,n)] ∧ a = N.name s ∧ call? (L.sends s) n = some c ∧ c.msg = m

section
variable {α : Type} {c c' : α} {l : List α} {n : Nat}

theorem callLt (found : call? l n = some c) : n < l.length := by
  induction l with
  | nil => cases found
  | cons first older ih =>
    simp only [call?] at found
    rw [List.length_cons]
    split at found
    · omega
    · exact Nat.lt_succ_of_lt (ih found)

theorem callCons : call? (c :: l) n = some c' ↔ n = l.length ∧ c = c' ∨ call? l n = some c' := by
  simp only [call?]
  split
  · rename_i newest
    constructor
    · exact fun same => .inl ⟨newest,Option.some.inj same⟩
    · rintro (⟨_,rfl⟩ | found)
      · rfl
      · have := callLt found
        omega
  · rename_i older
    exact ⟨.inr,fun found => found.resolve_left fun newest => older newest.1⟩

theorem callHead : call? (c :: l) l.length = some c := callCons.mpr (.inl ⟨rfl,rfl⟩)

variable {f : T → List α} {s u : T} {older : List α} {x : α}

theorem callPush : call? (update f s (c :: f s) u) n = some x ↔
    (u = s ∧ n = (f s).length ∧ c = x) ∨ call? (f u) n = some x := by
  by_cases same : u = s
  · subst same
    rw [update_self,callCons]
    simp
  · simp [same]

theorem callReplace (head : f s = c :: older) : call? (update f s (c' :: older) u) n = some x ↔
    (u = s ∧ n = older.length ∧ c' = x) ∨ ¬ (u = s ∧ n = older.length) ∧ call? (f u) n = some x := by
  by_cases same : u = s
  · subst same
    rw [update_self,callCons,head,callCons]
    by_cases newest : n = older.length
    · have unfound : call? older n ≠ some x := fun found => by have := callLt found; omega
      simp [newest,newest ▸ unfound]
    · simp [newest]
  · simp [same]

end

section
variable {N : Naming T A} {L : Ledger T A M} {s d : T}

/- The newest send returns; nothing else of it changes. -/
theorem faithfulReturn {c : Sent T A M} {older : List (Sent T A M)} {b : Bool} (h : Faithful N L)
    (head : L.sends s = c :: older) (done : b = true ↔ c.taken ≠ []) :
    Faithful N { L with sends := update L.sends s ({ c with ret := some b } :: older) } := by
  have there : call? (L.sends s) older.length = some c := head ▸ callHead
  constructor
  · intro u n x found
    obtain ⟨rfl,rfl,rfl⟩ | ⟨_,found⟩ := (callReplace head).mp found
    · constructor
      · exact fun ret => done.mp (Option.some.inj ret)
      · intro ret
        by_contra taken
        exact absurd (done.mpr taken) (by simp [Option.some.inj ret])
    · exact h.sent u n x found
  · intro u n x found
    obtain ⟨rfl,rfl,rfl⟩ | ⟨_,found⟩ := (callReplace head).mp found
    · exact h.taken u older.length c there
    · exact h.taken u n x found
  · exact h.got
  · intro e j r found
    obtain none | ⟨u,n,x,given,accepts,sent,taken,same⟩ := h.given e j r found
    · exact .inl none
    · refine .inr ?_
      by_cases newest : u = s ∧ n = older.length
      · obtain ⟨rfl,rfl⟩ := newest
        cases Option.some.inj (there.symm.trans sent)
        exact ⟨u,older.length,_,given,accepts,(callReplace head).mpr (.inl ⟨rfl,rfl,rfl⟩),taken,same⟩
      · exact ⟨u,n,x,given,accepts,(callReplace head).mpr (.inr ⟨newest,sent⟩),taken,same⟩

/- The newest receive returns. -/
theorem faithfulGot {r : Got T A M} {older : List (Got T A M)} {b : Option (A × M)} (h : Faithful N L)
    (head : L.recvs d = r :: older) (signal : b = none → r.given = [])
    (message : ∀ a m, b = some (a,m) → ∃ s n c, r.given = [(s,n)] ∧ a = N.name s ∧
      call? (L.sends s) n = some c ∧ c.msg = m) :
    Faithful N { L with recvs := update L.recvs d ({ r with ret := some b } :: older) } := by
  have there : call? (L.recvs d) older.length = some r := head ▸ callHead
  constructor
  · exact h.sent
  · intro u n c found
    obtain none | ⟨e,j,x,taken,named,received,given⟩ := h.taken u n c found
    · exact .inl none
    · refine .inr ?_
      by_cases newest : e = d ∧ j = older.length
      · obtain ⟨rfl,rfl⟩ := newest
        cases Option.some.inj (there.symm.trans received)
        exact ⟨e,older.length,_,taken,named,(callReplace head).mpr (.inl ⟨rfl,rfl,rfl⟩),given⟩
      · exact ⟨e,j,x,taken,named,(callReplace head).mpr (.inr ⟨newest,received⟩),given⟩
  · intro e j x found
    obtain ⟨rfl,rfl,rfl⟩ | ⟨_,found⟩ := (callReplace head).mp found
    · constructor
      · intro a m ret
        obtain ⟨_,_,_,given,_⟩ := message a m (Option.some.inj ret)
        simp [given]
      · exact fun ret => signal (Option.some.inj ret)
    · exact h.got e j x found
  · intro e j x found
    obtain ⟨rfl,rfl,rfl⟩ | ⟨_,found⟩ := (callReplace head).mp found
    · obtain none | ⟨u,n,c,given,accepts,sent,taken,_⟩ := h.given e older.length r there
      · exact .inl none
      · refine .inr ⟨u,n,c,given,accepts,sent,taken,fun a m ret => ?_⟩
        obtain ⟨u',n',c',given',named,sent',msg⟩ := message a m (Option.some.inj ret)
        have same : u = u' ∧ n = n' := by simpa using given.symm.trans given'
        obtain ⟨rfl,rfl⟩ := same
        cases Option.some.inj (sent.symm.trans sent')
        exact ⟨named,msg.symm⟩
    · exact h.given e j x found

theorem faithfulCall {dest : A} {m : M} (h : Faithful N L) :
    Faithful N { L with sends := update L.sends s (⟨dest,m,[],none⟩ :: L.sends s) } := by
  constructor
  · intro u n x found
    obtain ⟨_,_,rfl⟩ | found := callPush.mp found
    · simp
    · exact h.sent u n x found
  · intro u n x found
    obtain ⟨_,_,rfl⟩ | found := callPush.mp found
    · exact .inl rfl
    · exact h.taken u n x found
  · exact h.got
  · intro e j r found
    obtain none | ⟨u,n,x,given,accepts,sent,rest⟩ := h.given e j r found
    · exact .inl none
    · exact .inr ⟨u,n,x,given,accepts,callPush.mpr (.inr sent),rest⟩

theorem faithfulListen {w : A} (h : Faithful N L) :
    Faithful N { L with recvs := update L.recvs d (⟨w,[],none⟩ :: L.recvs d) } := by
  constructor
  · exact h.sent
  · intro u n c found
    obtain none | ⟨e,j,x,taken,named,received,given⟩ := h.taken u n c found
    · exact .inl none
    · exact .inr ⟨e,j,x,taken,named,callPush.mpr (.inr received),given⟩
  · intro e j x found
    obtain ⟨_,_,rfl⟩ | found := callPush.mp found
    · simp
    · exact h.got e j x found
  · intro e j x found
    obtain ⟨_,_,rfl⟩ | found := callPush.mp found
    · exact .inl rfl
    · exact h.given e j x found

/- Both open calls get their only hand-over. -/
theorem faithfulHandOver {m : M} {w : A} {older : List (Sent T A M)} {older' : List (Got T A M)}
    (h : Faithful N L) (sender : L.sends s = ⟨N.name d,m,[],none⟩ :: older)
    (receiver : L.recvs d = ⟨w,[],none⟩ :: older') (accepts : N.accepts w s) :
    Faithful N ⟨update L.sends s (⟨N.name d,m,[(d,older'.length)],none⟩ :: older),
      update L.recvs d (⟨w,[(s,older.length)],none⟩ :: older')⟩ := by
  have there : call? (L.sends s) older.length = some ⟨N.name d,m,[],none⟩ := sender ▸ callHead
  have there' : call? (L.recvs d) older'.length = some ⟨w,[],none⟩ := receiver ▸ callHead
  constructor
  · intro u n x found
    obtain ⟨_,_,rfl⟩ | ⟨_,found⟩ := (callReplace sender).mp found
    · simp
    · exact h.sent u n x found
  · intro u n x found
    obtain ⟨rfl,rfl,rfl⟩ | ⟨_,found⟩ := (callReplace sender).mp found
    · exact .inr ⟨d,older'.length,_,rfl,rfl,(callReplace receiver).mpr (.inl ⟨rfl,rfl,rfl⟩),rfl⟩
    · obtain none | ⟨e,j,r,taken,named,received,given⟩ := h.taken u n x found
      · exact .inl none
      · have other : ¬ (e = d ∧ j = older'.length) := by
          rintro ⟨rfl,rfl⟩
          cases Option.some.inj (there'.symm.trans received)
          cases given
        exact .inr ⟨e,j,r,taken,named,(callReplace receiver).mpr (.inr ⟨other,received⟩),given⟩
  · intro e j r found
    obtain ⟨_,_,rfl⟩ | ⟨_,found⟩ := (callReplace receiver).mp found
    · simp
    · exact h.got e j r found
  · intro e j r found
    obtain ⟨rfl,rfl,rfl⟩ | ⟨_,found⟩ := (callReplace receiver).mp found
    · exact .inr ⟨s,older.length,_,rfl,accepts,(callReplace sender).mpr (.inl ⟨rfl,rfl,rfl⟩),rfl,by simp⟩
    · obtain none | ⟨u,n,x,given,accepted,sent,taken,rest⟩ := h.given e j r found
      · exact .inl none
      · have other : ¬ (u = s ∧ n = older.length) := by
          rintro ⟨rfl,rfl⟩
          cases Option.some.inj (there.symm.trans sent)
          cases taken
        exact .inr ⟨u,n,x,given,accepted,(callReplace sender).mpr (.inr ⟨other,sent⟩),taken,rest⟩

/- The message of a call never changes. -/
def Stable (L L' : Ledger T A M) : Prop :=
  ∀ s n c, call? (L.sends s) n = some c → ∃ c', call? (L'.sends s) n = some c' ∧ c'.msg = c.msg

omit [DecidableEq T] in
theorem fitsOther {L' : Ledger T A M} {t : T} {p : Phase A M} (h : Fits N L t p)
    (sends : L'.sends t = L.sends t) (recvs : L'.recvs t = L.recvs t) (stable : Stable L L') :
    Fits N L' t p := by
  unfold Fits at *
  rw [sends,recvs]
  cases p with
  | received a m =>
    obtain ⟨rest,r,older,s,n,c,head,ret,given,named,sent,msg⟩ := h
    obtain ⟨c',sent',same⟩ := stable s n c sent
    exact ⟨rest,r,older,s,n,c',head,ret,given,named,sent',same.trans msg⟩
  | _ => exact h

theorem stableReplace {c c' : Sent T A M} {older : List (Sent T A M)} (recvs : T → List (Got T A M)) (head : L.sends s = c :: older)
    (msg : c'.msg = c.msg) : Stable L ⟨update L.sends s (c' :: older),recvs⟩ := by
  intro u n x found
  by_cases newest : u = s ∧ n = older.length
  · obtain ⟨rfl,rfl⟩ := newest
    have there : call? (L.sends u) older.length = some c := head ▸ callHead
    cases Option.some.inj (there.symm.trans found)
    exact ⟨c',(callReplace head).mpr (.inl ⟨rfl,rfl,rfl⟩),msg⟩
  · exact ⟨x,(callReplace head).mpr (.inr ⟨newest,found⟩),rfl⟩

theorem stablePush {c : Sent T A M} {recvs} : Stable L ⟨update L.sends s (c :: L.sends s),recvs⟩ :=
  fun _ _ x found => ⟨x,callPush.mpr (.inr found),rfl⟩

omit [DecidableEq T] in
theorem stableSame {recvs} : Stable L ⟨L.sends,recvs⟩ := fun _ _ x found => ⟨x,found,rfl⟩

/- Every run pairs its calls off faithfully. -/
theorem runFaithful {as : List (Action T A M)} {φ : T → Phase A M} (run : Run N as φ) :
    Faithful N (ledger as) ∧ ∀ t, Fits N (ledger as) t (φ t) := by
  induction run with
  | nil =>
    refine ⟨⟨?_,?_,?_,?_⟩,fun t => ?_⟩
    · intro s n c found
      cases found
    · intro s n c found
      cases found
    · intro s n c found
      cases found
    · intro s n c found
      cases found
    · simp [Fits,ledger]
  | @cons as a φ φ' before step ih =>
    obtain ⟨faithful,fits⟩ := ih
    cases step with
    | @call s dest m idle =>
      have own := fits s
      rw [idle] at own
      refine ⟨faithfulCall faithful,fun t => ?_⟩
      by_cases same : t = s
      · subst same
        rw [update_self]
        exact ⟨⟨_,update_self _ _ _⟩,own.2⟩
      · rw [update_of_ne same]
        exact fitsOther (fits t) (update_of_ne same _ _) rfl stablePush
    | @refuse s dest m pending =>
      have own := fits s
      rw [pending] at own
      obtain ⟨⟨older,head⟩,rest⟩ := own
      rw [ledger,Ledger.record,head,onHead]
      refine ⟨faithfulReturn faithful head (by simp),fun t => ?_⟩
      by_cases same : t = s
      · subst same
        rw [update_self]
        exact ⟨by simp,rest⟩
      · rw [update_of_ne same]
        exact fitsOther (fits t) (update_of_ne same _ _) rfl (stableReplace _ head rfl)
    | @done s sent =>
      have own := fits s
      rw [sent] at own
      obtain ⟨⟨c,older,head,_,taken⟩,rest⟩ := own
      rw [ledger,Ledger.record,head,onHead]
      refine ⟨faithfulReturn faithful head (by simp [taken]),fun t => ?_⟩
      by_cases same : t = s
      · subst same
        rw [update_self]
        exact ⟨by simp,rest⟩
      · rw [update_of_ne same]
        exact fitsOther (fits t) (update_of_ne same _ _) rfl (stableReplace _ head rfl)
    | @handOver s d m w sender receiver accepts =>
      have own := fits s
      have other := fits d
      rw [sender] at own
      rw [receiver] at other
      obtain ⟨⟨older,head⟩,rest⟩ := own
      obtain ⟨rest',older',head'⟩ := other
      rw [ledger,Ledger.record,head,head',onHead,onHead]
      have apart : s ≠ d := by
        rintro rfl
        cases sender.symm.trans receiver
      refine ⟨faithfulHandOver faithful head head' accepts,fun t => ?_⟩
      by_cases atReceiver : t = d
      · subst atReceiver
        rw [update_self]
        refine ⟨?_,_,older',s,older.length,_,update_self _ _ _,rfl,rfl,rfl,(callReplace head).mpr (.inl ⟨rfl,rfl,rfl⟩),rfl⟩
        dsimp only
        rwa [update_of_ne (Ne.symm apart)]
      · rw [update_of_ne atReceiver]
        by_cases atSender : t = s
        · subst atSender
          rw [update_self]
          refine ⟨⟨_,older,update_self _ _ _,rfl,by simp⟩,?_⟩
          dsimp only
          rwa [update_of_ne apart]
        · rw [update_of_ne atSender]
          exact fitsOther (fits t) (update_of_ne atSender _ _) (update_of_ne atReceiver _ _) (stableReplace _ head rfl)
    | @listen d w idle =>
      have own := fits d
      rw [idle] at own
      refine ⟨faithfulListen faithful,fun t => ?_⟩
      by_cases same : t = d
      · subst same
        rw [update_self]
        exact ⟨own.1,_,update_self _ _ _⟩
      · rw [update_of_ne same]
        exact fitsOther (fits t) rfl (update_of_ne same _ _) stableSame
    | @take d a m received =>
      have own := fits d
      rw [received] at own
      obtain ⟨rest,r,older,s,n,c,head,_,given,named,sent,msg⟩ := own
      rw [ledger,Ledger.record,head,onHead]
      refine ⟨faithfulGot faithful head (by simp) ?_,fun t => ?_⟩
      · intro a' m' same
        cases same
        exact ⟨s,n,c,given,named,sent,msg⟩
      · by_cases same : t = d
        · subst same
          rw [update_self]
          exact ⟨rest,by simp⟩
        · rw [update_of_ne same]
          exact fitsOther (fits t) rfl (update_of_ne same _ _) stableSame
    | @signal d w waiting =>
      have own := fits d
      rw [waiting] at own
      obtain ⟨rest,older,head⟩ := own
      rw [ledger,Ledger.record,head,onHead]
      refine ⟨faithfulGot faithful head (by simp) (by simp),fun t => ?_⟩
      by_cases same : t = d
      · subst same
        rw [update_self]
        exact ⟨rest,by simp⟩
      · rw [update_of_ne same]
        exact fitsOther (fits t) rfl (update_of_ne same _ _) stableSame

end
end
end Rendezvous
