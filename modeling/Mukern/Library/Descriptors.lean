import Mukern.Library.LittleEndian

/-! Gates, descriptors and the task segment of x86-64 as the processor reads them from
memory, and what it admits. -/
namespace Descriptors
open Buffers LittleEndian

/- A gate for an interrupt. -/
structure Gate where
  offset : Nat
  selector : Nat
  ist : Nat
  kind : Nat
  dpl : Nat
  present : Bool
  deriving DecidableEq

/- The gate in the 16 bytes at `place`. -/
def gateAt (m : Bytes) (place : Nat) : Gate where
  offset := load m place 2 + load m (place + 6) 2 * 2 ^ 16 + load m (place + 8) 4 * 2 ^ 32
  selector := load m (place + 2) 2
  ist := load m (place + 4) 1 % 8
  kind := load m (place + 5) 1 % 16
  dpl := load m (place + 5) 1 / 32 % 4
  present := load m (place + 5) 1 / 128 = 1

/- The bits of `w` from `lo` on. -/
def field (w : BitVec 64) (lo n : Nat) : Nat := w.toNat / 2 ^ lo % 2 ^ n

/- A code or data segment in 64-bit mode. -/
structure Segment where
  code : Bool
  long : Bool
  writable : Bool
  dpl : Nat
  deriving DecidableEq

/- The segment that selector `sel` names; `none` where it names none that is present. -/
def segmentAt (m : Bytes) (gdt limit sel : Nat) : Option Segment :=
  let d := word m (gdt + sel / 8 * 8)
  if sel / 8 * 8 + 7 ≤ limit ∧ sel / 8 ≠ 0 ∧ field d 44 1 = 1 ∧ field d 47 1 = 1 then
    some ⟨field d 43 1 = 1,field d 53 1 = 1,field d 41 1 = 1,field d 45 2⟩
  else none

structure TaskSegment where
  base : Nat
  limit : Nat
  deriving DecidableEq

/- The task segment that selector `sel` names: present, available or in use, in bytes. -/
def taskAt (m : Bytes) (gdt limit sel : Nat) : Option TaskSegment :=
  let lo := word m (gdt + sel / 8 * 8)
  let hi := word m (gdt + sel / 8 * 8 + 8)
  if sel / 8 * 8 + 15 ≤ limit ∧ (field lo 40 5 = 9 ∨ field lo 40 5 = 11) ∧ field lo 47 1 = 1 ∧ field lo 55 1 = 0 then
    some ⟨field lo 16 24 + field lo 56 8 * 2 ^ 24 + field hi 0 32 * 2 ^ 32,field lo 0 16 + field lo 48 4 * 2 ^ 16⟩
  else none

/- The stack for privilege level 0. -/
def TaskSegment.stack (t : TaskSegment) (m : Bytes) : BitVec 64 := word m (t.base + 4)

/- May code at level `cpl` use `width` ports from `port` on? -/
def TaskSegment.allows (t : TaskSegment) (m : Bytes) (cpl iopl port width : Nat) : Bool :=
  let map := load m (t.base + 102) 2
  decide (cpl ≤ iopl) || decide (map + port / 8 + 1 ≤ t.limit) &&
    (List.range width).all fun i => !(load m (t.base + map + port / 8) 2).testBit (port % 8 + i)

/- The table of the gates. -/
structure GateTable where
  base : Nat
  limit : Nat

/- A vector with its error code, and the gate that the processor goes through. -/
structure Entry where
  vec : Nat
  err : Nat
  gate : Gate
  deriving DecidableEq

namespace GateTable

/- The exception that the processor raises instead of going through the gate: #GP or #NP. -/
def refuses (t : GateTable) (m : Bytes) (cpl : Nat) (software : Bool) (v : Nat) : Option Nat :=
  let g := gateAt m (t.base + 16 * v)
  if t.limit < 16 * v + 15 then some 13
  else if g.kind ≠ 14 ∧ g.kind ≠ 15 then some 13
  else if software ∧ g.dpl < cpl then some 13
  else if g.present then none else some 11

/- An exception or an interrupt line; `none` is a double fault. -/
def hardware (t : GateTable) (m : Bytes) (cpl v err : Nat) : Option Entry :=
  if t.refuses m cpl false v = none then some ⟨v,err,gateAt m (t.base + 16 * v)⟩ else none

/- `int n`. -/
def software (t : GateTable) (m : Bytes) (cpl n : Nat) : Option Entry :=
  match t.refuses m cpl true n with
  | none => some ⟨n,0,gateAt m (t.base + 16 * n)⟩
  | some v => t.hardware m cpl v (8 * n + 2)

end GateTable

section
variable {m : Bytes} {lo n i s : Nat}

/- The blocks of a table lie one behind the other. -/
theorem storedBlock {α : Type} {xs : List α} {f : α → List (BitVec 8)} (size : ∀ x ∈ xs, (f x).length = n) (stored : Stored m lo (xs.flatMap f))
    (inside : i < xs.length) : Stored m (lo + n * i) (f xs[i]) := by
  induction xs generalizing lo i with
  | nil => cases inside
  | cons x xs ih =>
    obtain ⟨first,size⟩ := List.forall_mem_cons.mp size
    rw [List.flatMap_cons] at stored
    obtain ⟨here,rest⟩ := storedAppend.mp stored
    cases i with
    | zero => exact here
    | succ i =>
      rw [first] at rest
      have place : lo + n * (i + 1) = lo + n + n * i := by rw [Nat.mul_succ]; omega
      rw [place]
      exact ih size rest (Nat.lt_of_succ_lt_succ inside)

/- A field joined to what lies below it. -/
theorem joined {a b : BitVec 64} (low : a.toNat < 2 ^ s) (fits : b.toNat * 2 ^ s < 2 ^ 64) : (a ||| b <<< s).toNat = a.toNat + b.toNat * 2 ^ s := by
  have shifted : (b <<< s).toNat = b.toNat <<< s := by
    rw [BitVec.toNat_shiftLeft,Nat.shiftLeft_eq,Nat.mod_eq_of_lt fits]
  rw [BitVec.toNat_or,shifted,Nat.or_comm,← Nat.shiftLeft_add_eq_or_of_lt low,Nat.shiftLeft_eq,Nat.add_comm]

theorem masked {a : BitVec 64} (fits : n < 64) : (a &&& BitVec.ofNat 64 (2 ^ n - 1)).toNat = a.toNat % 2 ^ n := by
  have small : 2 ^ n - 1 < 2 ^ 64 := Nat.lt_of_le_of_lt (Nat.sub_le _ _) (Nat.pow_lt_pow_right (by decide) fits)
  rw [BitVec.toNat_and,BitVec.toNat_ofNat,Nat.mod_eq_of_lt small,Nat.and_two_pow_sub_one_eq_mod]

end
end Descriptors
