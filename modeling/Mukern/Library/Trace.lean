import Mathlib.Algebra.Ring.Nat
import Mathlib.Data.List.Induction

/-! Properties of every event of a trace and of what is older. A trace lists its newest
event first, and the inputs of a run the oldest. -/
namespace Trace

variable {ε : Type} {P : ε → List ε → Prop} {h new : List ε}

/- An element of a list is the first or one of the others. -/
theorem splitsCons {Q : List ε → ε → List ε → Prop} {e : ε} : (∀ newer x older, e :: h = newer ++ x :: older → Q newer x older) ↔
    Q [] e h ∧ ∀ newer x older, h = newer ++ x :: older → Q (e :: newer) x older := by
  constructor
  · intro all
    exact ⟨all [] e h rfl,fun newer x older split => all (e :: newer) x older (congrArg (e :: ·) split)⟩
  · intro ⟨first,later⟩ newer x older split
    cases newer with
    | nil =>
      cases split
      exact first
    | cons e' newer =>
      obtain ⟨rfl,rest⟩ := List.cons.inj split
      exact later newer x older rest

def Always (P : ε → List ε → Prop) (h : List ε) : Prop := ∀ newer e older, h = newer ++ e :: older → P e older

theorem Always.nil : Always P [] := by
  intro newer e older split
  cases newer <;> cases split

theorem Always.cons {e : ε} (always : Always P h) (first : P e h) : Always P (e :: h) :=
  (splitsCons (Q := fun _ => P)).mpr ⟨first,always⟩

/- A trace grows by events that each have the property over what is below them. -/
theorem Always.grow (always : Always P h) (fits : ∀ above e below, new = above ++ e :: below → P e (below ++ h)) :
    Always P (new ++ h) := by
  induction new with
  | nil => exact always
  | cons e new ih =>
    have rest := ih fun above e' below split => fits (e :: above) e' below (congrArg (e :: ·) split)
    exact rest.cons (fits [] e new rfl)

/- What each input keeps holds after every beginning of a run. -/
theorem beginnings {inputs : List ε} {Q : List ε → Prop} (start : Q [])
    (keep : ∀ front e rest, inputs = front ++ e :: rest → Q front → Q (front ++ [e])) : ∀ front rest, inputs = front ++ rest → Q front := by
  intro front
  induction front using List.reverseRecOn with
  | nil => exact fun _ _ => start
  | append_singleton front e ih =>
    intro rest split
    have split' : inputs = front ++ e :: rest := split.trans (List.append_assoc ..)
    exact keep front e rest split' (ih _ split')

end Trace
