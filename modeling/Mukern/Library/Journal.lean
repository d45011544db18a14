import Mukern.Library.Transition

/-! What a run does inside its steps: each step writes a log, and the journal of the run
is the logs one after the other. `Until Good Right` says that entries are right as long
as only good ones stand before them. -/
namespace Transition
variable {σ ι α : Type} {S : System σ ι} {log : σ → ι → List α} {Good Right : α → Prop} {a : α} {xs ys : List α}

def journal (S : System σ ι) (log : σ → ι → List α) (s : σ) : List ι → List α
  | [] => []
  | i :: rest => log s i ++ journal S log (S.next s i) rest

def Until (Good Right : α → Prop) (xs : List α) : Prop :=
  ∀ front a rest, xs = front ++ a :: rest → (∀ b ∈ front, Good b) → Right a

theorem Until.nil : Until Good Right [] := by
  intro front a rest split
  cases front <;> cases split

theorem Until.cons (first : Right a) (later : Good a → Until Good Right xs) : Until Good Right (a :: xs) := by
  intro front b rest split good
  cases front with
  | nil =>
    cases split
    exact first
  | cons c front =>
    obtain ⟨same,tail⟩ := List.cons.inj split
    subst same
    obtain ⟨here,before⟩ := List.forall_mem_cons.mp good
    exact later here front b rest tail before

theorem Until.append (first : Until Good Right xs) (later : (∀ a ∈ xs, Good a) → Until Good Right ys) : Until Good Right (xs ++ ys) := by
  induction xs with
  | nil => exact later (List.forall_mem_nil _)
  | cons a xs ih =>
    refine .cons (first [] a xs rfl (List.forall_mem_nil _)) fun here => ih (fun front b rest split good => ?_) fun good => ?_
    · exact first (a :: front) b rest (congrArg (a :: ·) split) (List.forall_mem_cons.mpr ⟨here,good⟩)
    · exact later (List.forall_mem_cons.mpr ⟨here,good⟩)

/- An invariant that the steps keep as long as their entries are good. -/
theorem journalUntil (inv : σ → Prop)
    (each : ∀ s i, inv s → Until Good Right (log s i) ∧ ((∀ a ∈ log s i, Good a) → inv (S.next s i))) {s : σ} (base : inv s) (is : List ι) :
    Until Good Right (journal S log s is) := by
  induction is generalizing s with
  | nil => exact .nil
  | cons i is ih =>
    obtain ⟨right,keeps⟩ := each s i base
    exact right.append fun good => ih (keeps good)

end Transition
