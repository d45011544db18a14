import Mathlib.Algebra.Ring.Nat
import Mathlib.Logic.Function.Basic

/-! Radix trees in a flat memory of words `W`. A table is a block of `fan` words, and
a word either names the table below it or ends the lookup there. A table is known
by the path of indices that leads to it from the root, the last index first. -/
namespace RadixTree

/- `child level w` is the table that word `w` names in a table of that level; the
root has level `depth`. -/
structure Layout (W : Type) where
  fan : Nat
  root : Nat
  depth : Nat
  child : Nat → W → Option Nat

namespace Layout
variable {W : Type} (L : Layout W) (m : Nat → W)

abbrev Path : Type := List (Fin L.fan)

def cell (n : Nat) (i : Fin L.fan) : Nat := n * L.fan + i.val

def level (p : L.Path) : Nat := L.depth - p.length

def table : L.Path → Option Nat
  | [] => some L.root
  | i :: p => (table p).bind fun n => L.child (L.level p) (m (L.cell n i))

/- No two paths lead to one table. -/
def Separated : Prop := ∀ p q n, L.table m p = some n → L.table m q = some n → p = q

variable {L m} {m' : Nat → W} {p q : L.Path} {n n' t : Nat} {i j : Fin L.fan} {v z : W}

theorem cellInj (same : L.cell n i = L.cell n' j) : n = n' ∧ i = j := by
  have low := i.isLt
  have low' := j.isLt
  have pos : 0 < L.fan := by omega
  have first : L.cell n i / L.fan = n := by
    rw [cell,Nat.add_comm,Nat.add_mul_div_right _ _ pos,Nat.div_eq_of_lt low,Nat.zero_add]
  have second : L.cell n' j / L.fan = n' := by
    rw [cell,Nat.add_comm,Nat.add_mul_div_right _ _ pos,Nat.div_eq_of_lt low',Nat.zero_add]
  have blocks : n = n' := by rw [← first,same,second]
  subst blocks
  refine ⟨rfl,Fin.ext ?_⟩
  simp only [cell] at same
  omega

theorem tableCons (here : L.table m p = some n) : L.table m (i :: p) = L.child (L.level p) (m (L.cell n i)) := by
  rw [table,here,Option.bind_some]

theorem tableParent (here : L.table m (i :: p) = some t) :
    ∃ n, L.table m p = some n ∧ L.child (L.level p) (m (L.cell n i)) = some t :=
  Option.bind_eq_some_iff.mp here

/- A memory whose tables name the same tables below them has the same tables. -/
theorem tableSame (same : ∀ p n i, L.table m p = some n →
    L.child (L.level p) (m' (L.cell n i)) = L.child (L.level p) (m (L.cell n i))) : L.table m' q = L.table m q := by
  induction q with
  | nil => rfl
  | cons i q ih =>
    rw [table,table,ih]
    cases here : L.table m q with
    | none => rfl
    | some n => exact same q n i here

/- So has one that differs outside the tables only. -/
theorem tableApart (apart : ∀ p n i, L.table m p = some n → m' (L.cell n i) = m (L.cell n i)) :
    L.table m' q = L.table m q := by
  refine tableSame fun p n i there => ?_
  rw [apart p n i there]

theorem Separated.same (separated : L.Separated m) (same : ∀ q, L.table m' q = L.table m q) : L.Separated m' := by
  intro p q n first second
  rw [same] at first second
  exact separated p q n first second

/- A word of a table is reached by one path only. -/
theorem Separated.word (separated : L.Separated m) (here : L.table m p = some n) (there : L.table m q = some n')
    (same : L.cell n i = L.cell n' j) : p = q ∧ i = j := by
  obtain ⟨blocks,index⟩ := cellInj same
  subst blocks
  exact ⟨separated p q n here there,index⟩

/- Writing a word that neither named a table nor names one now. -/
theorem tablePut (separated : L.Separated m) (here : L.table m p = some n)
    (old : L.child (L.level p) (m (L.cell n i)) = none) (new : L.child (L.level p) v = none)
    (put : m' (L.cell n i) = v) (rest : ∀ a, a ≠ L.cell n i → m' a = m a) : L.table m' q = L.table m q := by
  refine tableSame fun p₁ n₁ j there => ?_
  by_cases same : L.cell n₁ j = L.cell n i
  · obtain ⟨rfl,rfl⟩ := separated.word there here same
    rw [same,put,old,new]
  · rw [rest _ same]

/- Hanging the new table `t` under a word that named none; its own words name none. -/
structure Linked (L : Layout W) (m : Nat → W) (p : L.Path) (i : Fin L.fan) (n t : Nat) (m' : Nat → W) : Prop where
  here : L.table m p = some n
  old : L.child (L.level p) (m (L.cell n i)) = none
  fresh : ∀ q, L.table m q ≠ some t
  edge : L.child (L.level p) (m' (L.cell n i)) = some t
  clear : ∀ l j, L.child l (m' (L.cell t j)) = none
  rest : ∀ a, a ≠ L.cell n i → (∀ j, a ≠ L.cell t j) → m' a = m a

theorem Linked.table (linked : Linked L m p i n t m') (separated : L.Separated m) :
    L.table m' q = if q = i :: p then some t else L.table m q := by
  have nothing : L.table m (i :: p) = none := (tableCons linked.here).trans linked.old
  induction q with
  | nil => rfl
  | cons j q ih =>
    rw [Layout.table,ih]
    by_cases under : q = i :: p
    · subst under
      have longer : j :: i :: p ≠ i :: p := fun same => absurd (congrArg List.length same) (by simp)
      rw [if_pos rfl,if_neg longer,Option.bind_some,linked.clear,Layout.table,nothing,Option.bind_none]
    · rw [if_neg under]
      cases there : L.table m q with
      | none =>
        have other : j :: q ≠ i :: p := by
          intro same
          cases same
          cases linked.here.symm.trans there
        rw [if_neg other,Layout.table,there]
        rfl
      | some n₁ =>
        rw [Option.bind_some,tableCons there]
        by_cases same : L.cell n₁ j = L.cell n i
        · obtain ⟨rfl,rfl⟩ := separated.word there linked.here same
          rw [same,linked.edge,if_pos rfl]
        · have other : j :: q ≠ i :: p := by
            intro equal
            cases equal
            cases linked.here.symm.trans there
            exact same rfl
          have outside : ∀ k, L.cell n₁ j ≠ L.cell t k := by
            intro k equal
            obtain ⟨rfl,_⟩ := cellInj equal
            exact linked.fresh q there
          rw [if_neg other,linked.rest _ same outside]

theorem Linked.separated (linked : Linked L m p i n t m') (separated : L.Separated m) : L.Separated m' := by
  intro q r u first second
  rw [linked.table separated] at first second
  split at first
  · rename_i own
    cases first
    split at second
    · rename_i own'
      rw [own,own']
    · exact absurd second (linked.fresh r)
  · split at second
    · cases second
      exact absurd first (linked.fresh q)
    · exact separated q r u first second

/- What was a table is one still, with all its words but the one that was linked. -/
theorem Linked.kept (linked : Linked L m p i n t m') (separated : L.Separated m) (there : L.table m q = some n') :
    L.table m' q = some n' ∧ (q ≠ p ∨ j ≠ i → m' (L.cell n' j) = m (L.cell n' j)) := by
  constructor
  · rw [linked.table separated]
    split
    · rename_i own
      subst own
      cases there.symm.trans ((tableCons linked.here).trans linked.old)
    · exact there
  · intro other
    refine linked.rest _ (fun same => ?_) fun k same => ?_
    · obtain ⟨path,index⟩ := separated.word there linked.here same
      exact other.elim (fun apart => apart path) fun apart => apart index
    · obtain ⟨rfl,_⟩ := cellInj same
      exact linked.fresh q there

end Layout
end RadixTree
