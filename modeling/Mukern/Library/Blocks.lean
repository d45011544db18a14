import Mathlib.Logic.Relation

/-! Code as a list of instructions with a counter: runs of instructions that only go on,
and loops by what each turn keeps. -/
namespace Blocks

structure Machine (σ ι : Type) where
  pc : σ → Nat
  exec : ι → σ → Option σ

variable {σ ι : Type} (M : Machine σ ι) (code : List ι)

def step (s : σ) : Option σ := code[M.pc s]?.bind fun i => M.exec i s

abbrev Steps : σ → σ → Prop := Relation.ReflTransGen fun s s' => step M code s = some s'

/- The instruction goes on with the next one. -/
def Sequential (i : ι) : Prop := ∀ s s', M.exec i s = some s' → M.pc s' = M.pc s + 1

def runBlock (block : List ι) (s : σ) : Option σ := block.foldlM (fun s i => M.exec i s) s

variable {M code} {s s' : σ} {before block after : List ι} {i : ι}

theorem stepAt (place : M.pc s = before.length) (split : code = before ++ i :: after) : step M code s = M.exec i s := by
  rw [step,split,place,List.getElem?_append_right (Nat.le_refl _),Nat.sub_self]
  rfl

/- A block that runs through is a run of the machine. -/
theorem blockSteps (split : code = before ++ block ++ after) (on : ∀ i ∈ block, Sequential M i) (place : M.pc s = before.length)
    (ran : runBlock M block s = some s') : Steps M code s s' ∧ M.pc s' = before.length + block.length := by
  induction block generalizing before s with
  | nil =>
    cases ran
    exact ⟨.refl,place⟩
  | cons i block ih =>
    obtain ⟨first,rest⟩ := List.forall_mem_cons.mp on
    rw [runBlock,List.foldlM_cons] at ran
    obtain ⟨s₁,one,others⟩ := Option.bind_eq_some_iff.mp ran
    have here : step M code s = some s₁ := by
      rw [stepAt place (by rw [split,List.append_assoc,List.cons_append]),one]
    have next : M.pc s₁ = (before ++ [i]).length := by rw [first s s₁ one,place,List.length_append,List.length_singleton]
    obtain ⟨steps,last⟩ := ih (by rw [split]; simp) rest next others
    refine ⟨.head here steps,?_⟩
    rw [last,List.length_append,List.length_singleton,List.length_cons]
    omega

/- A loop whose turns each take `inv k` to `inv (k + 1)`. -/
theorem loopSteps {inv : Nat → σ → Prop} {n : Nat} (turn : ∀ k < n, ∀ s, inv k s → ∃ s', Steps M code s s' ∧ inv (k + 1) s') (start : inv 0 s) :
    ∃ s', Steps M code s s' ∧ inv n s' := by
  induction n with
  | zero => exact ⟨s,.refl,start⟩
  | succ n ih =>
    obtain ⟨s₁,steps,reached⟩ := ih fun k low => turn k (Nat.lt_succ_of_lt low)
    obtain ⟨s₂,last,next⟩ := turn n (Nat.lt_succ_self n) s₁ reached
    exact ⟨s₂,steps.trans last,next⟩

end Blocks
