import Mathlib.Data.Fintype.Basic
import Mathlib.Data.List.FinRange

/-! The 8259A interrupt controller, and a pair of them with one behind an input of the
other: edge triggered, fully nested, and ended by the program. -/
namespace InterruptControllers

/- The initialisation words that a chip still expects. -/
inductive Stage where
  | icw2 | icw3 | icw4 | done
  deriving DecidableEq

structure Chip where
  irr : Fin 8 → Bool
  isr : Fin 8 → Bool
  imr : BitVec 8
  base : BitVec 8
  cascade : BitVec 8
  stage : Stage

namespace Chip

/- A request passes the mask, and nothing of its priority or a higher one is in service. -/
def admits (c : Chip) (n : Fin 8) : Prop := c.imr.getLsbD n = false ∧ ∀ m ≤ n, c.isr m = false

instance (c : Chip) (n : Fin 8) : Decidable (c.admits n) := inferInstanceAs (Decidable (_ ∧ _))

/- The request that the chip passes on: the first in the order of priority. -/
def choose (c : Chip) (requests : Fin 8 → Bool) : Option (Fin 8) := (List.finRange 8).find? fun n => requests n ∧ c.admits n

def serve (c : Chip) (n : Fin 8) : Chip := { c with irr := Function.update c.irr n false, isr := Function.update c.isr n true }

def vector (c : Chip) (n : Fin 8) : Nat := c.base.toNat / 8 * 8 + n.val

/- The end of the interrupt with the highest priority. -/
def eoi (c : Chip) : Chip :=
  match (List.finRange 8).find? c.isr with
  | some n => { c with isr := Function.update c.isr n false }
  | none => c

/- A write to the command port: ICW1 with ICW4 to come, and the non-specific EOI. -/
def command (c : Chip) (v : BitVec 8) : Chip :=
  if v = 0x11 then { c with irr := fun _ => false, isr := fun _ => false, imr := 0, stage := .icw2 }
  else if v = 0x20 then c.eoi
  else c

/- A write to the data port. -/
def data (c : Chip) (v : BitVec 8) : Chip :=
  match c.stage with
  | .icw2 => { c with base := v, stage := .icw3 }
  | .icw3 => { c with cascade := v, stage := .icw4 }
  | .icw4 => { c with stage := .done }
  | .done => { c with imr := v }

def line (c : Chip) (n : Fin 8) (up : Bool) : Chip := { c with irr := Function.update c.irr n up }

end Chip

structure Pair where
  master : Chip
  slave : Chip

namespace Pair

/- What the master sees on its inputs. -/
def inputs (p : Pair) (n : Fin 8) : Bool := if p.master.cascade.getLsbD n then (p.slave.choose p.slave.irr).isSome else p.master.irr n

/- The input that makes the master interrupt the processor. -/
def pending (p : Pair) : Option (Fin 8) := p.master.choose p.inputs

/- The processor acknowledges and is told a vector. A chip whose request has gone names its
last input, and takes nothing into service; `late` says so of the slave. -/
def acknowledge (p : Pair) (late : Bool) : Pair × Nat :=
  match p.pending with
  | none => (p,p.master.vector 7)
  | some n =>
    if p.master.cascade.getLsbD n then
      match if late then none else p.slave.choose p.slave.irr with
      | some m => (⟨p.master.serve n,p.slave.serve m⟩,p.slave.vector m)
      | none => (⟨p.master.serve n,p.slave⟩,p.slave.vector 7)
    else (⟨p.master.serve n,p.slave⟩,p.master.vector n)

/- Lines 0 to 7 are the inputs of the master, lines 8 to 15 those of the slave. -/
def line (p : Pair) (n : Fin 16) (up : Bool) : Pair :=
  if low : n.val < 8 then { p with master := p.master.line ⟨n.val,low⟩ up } else { p with slave := p.slave.line ⟨n.val - 8,by omega⟩ up }

def raised (p : Pair) (n : Fin 16) : Bool :=
  if low : n.val < 8 then p.master.irr ⟨n.val,low⟩ else p.slave.irr ⟨n.val - 8,by omega⟩

end Pair

/- What an acknowledgement can be: nothing asks any more, an input of the master's own, or
one that leads to the slave, which knows of a request or not. -/
inductive Outcome (p : Pair) : Pair × Nat → Prop where
  | spurious (quiet : p.pending = none) : Outcome p (p,p.master.vector 7)
  | own {n : Fin 8} (found : p.pending = some n) (here : p.master.cascade.getLsbD n = false) :
      Outcome p (⟨p.master.serve n,p.slave⟩,p.master.vector n)
  | through {n m : Fin 8} (found : p.pending = some n) (there : p.master.cascade.getLsbD n = true) (next : p.slave.choose p.slave.irr = some m) :
      Outcome p (⟨p.master.serve n,p.slave.serve m⟩,p.slave.vector m)
  | gone {n : Fin 8} (found : p.pending = some n) (there : p.master.cascade.getLsbD n = true) :
      Outcome p (⟨p.master.serve n,p.slave⟩,p.slave.vector 7)

section
variable {c : Chip} {p : Pair} {requests : Fin 8 → Bool} {n : Fin 8}

theorem chooseSome (found : c.choose requests = some n) : requests n ∧ c.admits n := by
  have both := List.find?_some found
  exact of_decide_eq_true both

/- No request that passes has a higher priority. -/
theorem chooseFirst (found : c.choose requests = some n) {m : Fin 8} (asked : requests m) (admits : c.admits m) : n ≤ m := by
  obtain ⟨_,before,after,split,earlier⟩ := List.find?_eq_some_iff_append.mp found
  have member : m ∈ before ++ n :: after := split ▸ List.mem_finRange m
  have sorted : (before ++ n :: after).Pairwise (· < ·) := split ▸ List.pairwise_lt_finRange 8
  rcases List.mem_append.mp member with above | here
  · have passed := earlier m above
    rw [decide_eq_true (⟨asked,admits⟩ : requests m ∧ c.admits m)] at passed
    cases passed
  · rcases List.mem_cons.mp here with rfl | below
    · exact Nat.le_refl _
    · have order := (List.pairwise_cons.mp (List.pairwise_append.mp sorted).2.1).1 m below
      exact Nat.le_of_lt order

theorem chooseNone : c.choose requests = none ↔ ∀ n, requests n → ¬ c.admits n := by
  rw [Chip.choose,List.find?_eq_none]
  constructor
  · intro none n asked admits
    exact none n (List.mem_finRange n) (decide_eq_true ⟨asked,admits⟩)
  · intro none n _ both
    obtain ⟨asked,admits⟩ := of_decide_eq_true both
    exact none n asked admits

/- One interrupt in service, and its end. -/
theorem eoiServe (idle : ∀ m, c.isr m = false) : (c.serve n).eoi = { c with irr := Function.update c.irr n false } := by
  have served : (List.finRange 8).find? (Function.update c.isr n true) = some n := by
    cases found : (List.finRange 8).find? (Function.update c.isr n true) with
    | none =>
      have clear := List.find?_eq_none.mp found n (List.mem_finRange n)
      rw [Function.update_self] at clear
      exact absurd rfl clear
    | some m =>
      have set := List.find?_some found
      by_cases same : m = n
      · rw [same]
      · rw [Function.update_of_ne same,idle m] at set
        cases set
  have restored : Function.update (Function.update c.isr n true) n false = c.isr := by
    rw [Function.update_idem,← idle n,Function.update_eq_self]
  rw [Chip.eoi,Chip.serve]
  dsimp only
  rw [served]
  dsimp only
  rw [restored]

theorem eoiIdle (idle : ∀ m, c.isr m = false) : c.eoi = c := by
  have none : (List.finRange 8).find? c.isr = none := List.find?_eq_none.mpr fun m _ => by rw [idle m]; decide
  rw [Chip.eoi,none]

theorem dataDone {v : BitVec 8} (ready : c.stage = .done) : c.data v = { c with imr := v } := by
  rw [Chip.data,ready]

theorem ackOutcome (p : Pair) (late : Bool) : Outcome p (p.acknowledge late) := by
  unfold Pair.acknowledge
  split
  · rename_i quiet
    exact .spurious quiet
  · rename_i n found
    split
    · rename_i there
      split
      · rename_i m next
        cases late with
        | false => exact .through found there next
        | true => cases next
      · exact .gone found there
    · rename_i here
      exact .own found (Bool.eq_false_of_not_eq_true here)

end
end InterruptControllers
