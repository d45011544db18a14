import Mathlib.Algebra.Ring.Nat
import Mathlib.Logic.Relation

/-! Deterministic transition systems with guarded inputs. `Reach S ok` collects
the states of the runs all of whose steps meet `ok`; with `ok` always true these
are the reachable states. -/
namespace Transition

structure System (σ ι : Type) where
  start : σ → Prop
  enabled : σ → ι → Prop
  next : σ → ι → σ

variable {σ ι : Type} {S : System σ ι} {ok : σ → ι → Prop}

inductive Reach (S : System σ ι) (ok : σ → ι → Prop) : σ → Prop where
  | start {s} (h : S.start s) : Reach S ok s
  | step {s i} (before : Reach S ok s) (enabled : S.enabled s i) (meets : ok s i) :
      Reach S ok (S.next s i)

theorem Reach.mono {ok' : σ → ι → Prop} (weaker : ∀ s i, ok s i → ok' s i) {s}
    (h : Reach S ok s) : Reach S ok' s := by
  induction h with
  | start h => exact .start h
  | step _ enabled meets ih => exact .step ih enabled (weaker _ _ meets)

theorem Reach.invariant (inv : σ → Prop) (base : ∀ s, S.start s → inv s)
    (keep : ∀ s i, inv s → S.enabled s i → ok s i → inv (S.next s i)) {s}
    (h : Reach S ok s) : inv s := by
  induction h with
  | start h => exact base _ h
  | step _ enabled meets ih => exact keep _ _ ih enabled meets

/- An invariant may rest on one that is known already. -/
theorem Reach.invariantUnder {known : σ → Prop} (inv : σ → Prop) (facts : ∀ s, Reach S ok s → known s)
    (base : ∀ s, S.start s → inv s)
    (keep : ∀ s i, known s → inv s → S.enabled s i → ok s i → inv (S.next s i)) {s}
    (h : Reach S ok s) : inv s := by
  induction h with
  | start h => exact base _ h
  | step before enabled meets ih => exact keep _ _ (facts _ before) ih enabled meets

/- A finite run given by its inputs. -/
def run (S : System σ ι) (s : σ) : List ι → σ
  | [] => s
  | i :: rest => run S (S.next s i) rest

def Admits (S : System σ ι) (ok : σ → ι → Prop) (s : σ) : List ι → Prop
  | [] => True
  | i :: rest => S.enabled s i ∧ ok s i ∧ Admits S ok (S.next s i) rest

theorem Admits.mono {ok' : σ → ι → Prop} (weaker : ∀ s i, ok s i → ok' s i) {s : σ} {is : List ι} (h : Admits S ok s is) :
    Admits S ok' s is := by
  induction is generalizing s with
  | nil => trivial
  | cons i rest ih => exact ⟨h.1,weaker _ _ h.2.1,ih h.2.2⟩

theorem Admits.append {s : σ} {first rest : List ι} (admits : Admits S ok s first) (last : Admits S ok (run S s first) rest) :
    Admits S ok s (first ++ rest) ∧ run S s (first ++ rest) = run S (run S s first) rest := by
  induction first generalizing s with
  | nil => exact ⟨last,rfl⟩
  | cons i first ih =>
    obtain ⟨both,ends⟩ := ih admits.2.2 last
    exact ⟨⟨admits.1,admits.2.1,both⟩,ends⟩

instance decidableAdmits [∀ s i, Decidable (S.enabled s i)] [∀ s i, Decidable (ok s i)] :
    (s : σ) → (is : List ι) → Decidable (Admits S ok s is)
  | _, [] => inferInstanceAs (Decidable True)
  | s, i :: rest =>
    have := decidableAdmits (S.next s i) rest
    inferInstanceAs (Decidable (S.enabled s i ∧ ok s i ∧ Admits S ok (S.next s i) rest))

theorem Reach.run {s : σ} (h : Reach S ok s) {is : List ι} (admits : Admits S ok s is) :
    Reach S ok (run S s is) := by
  induction is generalizing s with
  | nil => exact h
  | cons i rest ih => exact ih (h.step admits.1 admits.2.1) admits.2.2

end Transition
