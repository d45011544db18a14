import Mukern.Library.Buffers

/-! A circular buffer of `size` cells with a head and a tail index. One cell stays
free, so that a full ring and an empty one differ. -/
namespace Buffers
variable {α : Type} {size : Nat}

structure Ring (α : Type) (size : Nat) where
  cells : Buffer α
  head : Nat
  tail : Nat
  headInside : head < size
  tailInside : tail < size

namespace Ring

theorem nextInside {i : Nat} (inside : i < size) : (i + 1) % size < size := Nat.mod_lt _ (Nat.zero_lt_of_lt inside)

def push (ring : Ring α size) (x : α) : Ring α size :=
  if (ring.head + 1) % size = ring.tail then ring
  else ⟨ring.cells.set ring.head x,(ring.head + 1) % size,ring.tail,nextInside ring.headInside,ring.tailInside⟩

def pop (ring : Ring α size) : Option (α × Ring α size) :=
  if ring.head = ring.tail then none
  else some (ring.cells ring.tail,⟨ring.cells,ring.head,(ring.tail + 1) % size,ring.headInside,nextInside ring.tailInside⟩)

def pushAll (ring : Ring α size) (xs : List α) : Ring α size := xs.foldl push ring

def used (ring : Ring α size) : Nat := if ring.tail ≤ ring.head then ring.head - ring.tail else ring.head + size - ring.tail

/- What was pushed and not yet popped, oldest first. -/
def contents (ring : Ring α size) : List α := (List.range ring.used).map fun k => ring.cells ((ring.tail + k) % size)

variable {ring rest : Ring α size} {x : α}

theorem nextIs {i : Nat} (inside : i < size) : (i + 1) % size = if i + 1 = size then 0 else i + 1 := by
  split
  · rename_i last
    rw [last,Nat.mod_self]
  · exact Nat.mod_eq_of_lt (by omega)

@[simp] theorem contentsLength : ring.contents.length = ring.used := by simp [contents]

theorem usedZero : ring.used = 0 ↔ ring.head = ring.tail := by
  have head := ring.headInside
  have tail := ring.tailInside
  unfold used
  split <;> omega

/- The cells in use stop short of the head. -/
theorem cellOther {k : Nat} (low : k < ring.used) : (ring.tail + k) % size ≠ ring.head := by
  have head := ring.headInside
  have tail := ring.tailInside
  unfold used at low
  rcases Nat.lt_or_ge (ring.tail + k) size with inside | wrapped
  · rw [Nat.mod_eq_of_lt inside]
    split at low <;> omega
  · rw [Nat.mod_eq_sub_mod wrapped,Nat.mod_eq_of_lt (by split at low <;> omega)]
    split at low <;> omega

theorem headCell : (ring.tail + ring.used) % size = ring.head := by
  have head := ring.headInside
  have tail := ring.tailInside
  unfold used
  split
  · have sum : ring.tail + (ring.head - ring.tail) = ring.head := by omega
    rw [sum,Nat.mod_eq_of_lt head]
  · have sum : ring.tail + (ring.head + size - ring.tail) = ring.head + size := by omega
    rw [sum,Nat.add_mod_right,Nat.mod_eq_of_lt head]

/- A push that finds a free cell appends; a full ring drops the new element. -/
theorem pushContents (ring : Ring α size) (x : α) : (ring.push x).contents = if ring.used + 1 < size then ring.contents ++ [x] else ring.contents := by
  have head := ring.headInside
  have tail := ring.tailInside
  have next := nextIs head
  by_cases full : (ring.head + 1) % size = ring.tail
  · have crowded : ¬ ring.used + 1 < size := by
      unfold used
      split at next <;> split <;> omega
    rw [if_neg crowded,push,if_pos full]
  · have room : ring.used + 1 < size := by
      unfold used
      split at next <;> split <;> omega
    have pushed : ring.push x = ⟨ring.cells.set ring.head x,(ring.head + 1) % size,ring.tail,nextInside head,tail⟩ := if_neg full
    have grown : (ring.push x).used = ring.used + 1 := by
      rw [pushed]
      simp only [used]
      split at next <;> split <;> split <;> omega
    have cells : (ring.push x).cells = ring.cells.set ring.head x := by rw [pushed]
    have tail' : (ring.push x).tail = ring.tail := by rw [pushed]
    rw [if_pos room,contents,grown,List.range_succ,List.map_append,cells,tail']
    congr 1
    · exact List.map_congr_left fun k low => setOther (cellOther (List.mem_range.mp low))
    · rw [List.map_singleton,headCell,setSame]

theorem pushAllContents {xs : List α} (room : ring.used + xs.length < size) : (ring.pushAll xs).contents = ring.contents ++ xs := by
  induction xs generalizing ring with
  | nil => exact (List.append_nil _).symm
  | cons x xs ih =>
    rw [List.length_cons] at room
    have pushed := pushContents ring x
    rw [if_pos (by omega)] at pushed
    have grown : (ring.push x).used = ring.used + 1 := by
      rw [← contentsLength,pushed,List.length_append,contentsLength]
      rfl
    have left : (ring.push x).used + xs.length < size := by omega
    have rest := ih left
    rw [pushed,List.append_assoc] at rest
    exact rest

theorem popEmpty (none : ring.pop = none) : ring.contents = [] := by
  unfold pop at none
  split at none
  · rename_i same
    rw [contents,usedZero.mpr same]
    rfl
  · cases none

theorem popContents (some : ring.pop = some (x,rest)) : ring.contents = x :: rest.contents := by
  unfold pop at some
  split at some
  · cases some
  · rename_i different
    cases some
    have head := ring.headInside
    have tail := ring.tailInside
    have next := nextIs tail
    have shrunk : ring.used = used ⟨ring.cells,ring.head,(ring.tail + 1) % size,head,nextInside tail⟩ + 1 := by
      simp only [used]
      split at next <;> split <;> split <;> omega
    rw [contents,shrunk,List.range_succ_eq_map,List.map_cons,List.map_map]
    congr 1
    · rw [Nat.add_zero,Nat.mod_eq_of_lt tail]
    · refine List.map_congr_left fun k _ => ?_
      rw [Function.comp_apply,Nat.mod_add_mod,Nat.add_right_comm,Nat.add_assoc]

theorem popSome {xs : List α} (held : ring.contents = x :: xs) : ∃ rest, ring.pop = some (x,rest) ∧ rest.contents = xs := by
  rcases popped : ring.pop with _ | ⟨y,rest⟩
  · rw [popEmpty popped] at held
    cases held
  · rw [popContents popped] at held
    obtain ⟨rfl,left⟩ := List.cons.inj held
    exact ⟨rest,rfl,left⟩

end Ring
end Buffers
