import Mukern.Library.Transition
import Mathlib.Data.Option.Basic

/-! A desk that holds one request at a time: a step may bring a request, and may answer
the one that is held. If no request comes while one is held, the answers are the
requests in their order, the last of them maybe still held. -/
namespace Transition

structure Desk (σ ι κ : Type) where
  asks : ι → Option κ
  held : σ → Option κ
  answered : σ → List κ

namespace Desk
variable {σ ι κ : Type} {S : System σ ι} {desk : Desk σ ι κ} {s : σ} {i : ι}

/- What is held once the step's own request has come in. -/
def opened (desk : Desk σ ι κ) (s : σ) (i : ι) : Option κ := (desk.asks i).or (desk.held s)

/- The step answers what is held, or keeps it. -/
def Serves (desk : Desk σ ι κ) (S : System σ ι) (s : σ) (i : ι) : Prop :=
  (desk.held (S.next s i) = desk.opened s i ∧ desk.answered (S.next s i) = desk.answered s) ∨
  ∃ k, desk.opened s i = some k ∧ desk.held (S.next s i) = none ∧ desk.answered (S.next s i) = desk.answered s ++ [k]

/- A request comes only while none is held. -/
def Free (desk : Desk σ ι κ) (s : σ) (i : ι) : Prop := (desk.asks i).isSome → desk.held s = none

theorem stepAccounts (serves : desk.Serves S s i) (free : desk.Free s i) :
    desk.answered (S.next s i) ++ (desk.held (S.next s i)).toList = desk.answered s ++ (desk.held s).toList ++ (desk.asks i).toList := by
  have opened : (desk.opened s i).toList = (desk.held s).toList ++ (desk.asks i).toList := by
    unfold Desk.opened
    cases asked : desk.asks i with
    | none => simp
    | some k =>
      have idle := free (by rw [asked]; rfl)
      rw [idle]
      rfl
  rcases serves with ⟨held,answered⟩ | ⟨k,some,none,answered⟩
  · rw [held,answered,opened,List.append_assoc]
  · rw [some] at opened
    rw [none,answered,List.append_assoc (desk.answered s) (desk.held s).toList,← opened]
    simp

theorem runAccounts (serves : ∀ s i, desk.Serves S s i) {is : List ι} (admits : Admits S desk.Free s is) :
    desk.answered (run S s is) ++ (desk.held (run S s is)).toList = desk.answered s ++ (desk.held s).toList ++ is.filterMap desk.asks := by
  induction is generalizing s with
  | nil =>
    rw [List.filterMap_nil,List.append_nil]
    rfl
  | cons i is ih =>
    obtain ⟨_,free,rest⟩ := admits
    have later := ih rest
    rw [stepAccounts (serves s i) free,List.append_assoc] at later
    rw [run,later]
    cases asked : desk.asks i with
    | none => simp [asked]
    | some k => simp [asked]

end Desk
end Transition
