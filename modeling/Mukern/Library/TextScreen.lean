import Mukern.Library.Buffers

/-! A text screen of fixed width that grows downwards without bound, and the window on
its last rows that a display of fixed height keeps in a flat array, row after row. -/
namespace TextScreen
open Buffers
variable {C : Type}

structure Screen (C : Type) where
  cells : Nat → Nat → C
  row : Nat
  col : Nat

namespace Screen
variable (s : Screen C)

def clear (blank : C) : Screen C := ⟨fun _ _ => blank,0,0⟩

def home : Screen C := { s with col := 0 }

def newline : Screen C := { s with row := s.row + 1, col := 0 }

def draw (x : C) : Screen C := { s with cells := fun i j => if i = s.row ∧ j = s.col then x else s.cells i j }

/- The cursor moves on, to the next row behind the last column. -/
def advance (width : Nat) : Screen C := if s.col + 1 ≥ width then s.newline else { s with col := s.col + 1 }

def put (width : Nat) (x : C) : Screen C := (s.draw x).advance width

def erase (blank : C) : Screen C := if 0 < s.col then { s with col := s.col - 1 }.draw blank else s

/- The row at the top of a window of the given height whose last row the cursor has reached. -/
def top (height : Nat) : Nat := s.row - (height - 1)

@[simp] theorem newlineRow : s.newline.row = s.row + 1 := rfl

end Screen

/- The array `b` with the cursor at `(r,c)` shows the last rows of the screen, and nothing
is written below the cursor. -/
structure Shows (width height : Nat) (blank : C) (b : Buffer C) (r c : Nat) (s : Screen C) : Prop where
  row : r = min s.row (height - 1)
  col : c = s.col
  inside : s.col < width
  cells : ∀ i < height, ∀ j < width, b (i * width + j) = s.cells (s.top height + i) j
  below : ∀ i > s.row, ∀ j, s.cells i j = blank

/- The window has moved down by one row. -/
structure Scrolled (width height : Nat) (blank : C) (b b' : Buffer C) : Prop where
  moved : ∀ i < height - 1, ∀ j < width, b' (i * width + j) = b ((i + 1) * width + j)
  fresh : ∀ j < width, b' ((height - 1) * width + j) = blank

section
variable {width height r c : Nat} {blank x : C} {b b' : Buffer C} {s : Screen C}

theorem cellSame {i j k l : Nat} (left : j < width) (right : l < width) : i * width + j = k * width + l ↔ i = k ∧ j = l := by
  constructor
  · intro same
    have rows := congrArg (· / width) same
    have cols := congrArg (· % width) same
    simp only [Nat.mul_comm _ width] at rows cols
    rw [Nat.mul_add_div (by omega),Nat.mul_add_div (by omega),Nat.div_eq_of_lt left,Nat.div_eq_of_lt right] at rows
    rw [Nat.mul_add_mod,Nat.mul_add_mod,Nat.mod_eq_of_lt left,Nat.mod_eq_of_lt right] at cols
    exact ⟨rows,cols⟩
  · rintro ⟨rfl,rfl⟩
    rfl

theorem Shows.clear (wide : 0 < width) (blanks : ∀ i < height * width, b i = blank) : Shows width height blank b 0 0 (.clear blank) := by
  refine ⟨(Nat.zero_min _).symm,rfl,wide,fun i low j left => blanks _ ?_,fun _ _ _ => rfl⟩
  have rows : (i + 1) * width ≤ height * width := Nat.mul_le_mul_right width low
  rw [Nat.add_mul] at rows
  omega

/- The cursor stands in the window, in its row of the screen. -/
theorem Shows.cursor (shows : Shows width height blank b r c s) (tall : 0 < height) : r < height ∧ s.top height + r = s.row := by
  rw [shows.row,Screen.top]
  omega

theorem Shows.place (shows : Shows width height blank b r c s) (tall : 0 < height) : r * width + c < height * width := by
  have inside := shows.col ▸ shows.inside
  have rows : (r + 1) * width ≤ height * width := Nat.mul_le_mul_right width (shows.cursor tall).1
  rw [Nat.add_mul] at rows
  omega

theorem Shows.home (shows : Shows width height blank b r c s) : Shows width height blank b r 0 s.home :=
  ⟨shows.row,rfl,Nat.lt_of_le_of_lt (Nat.zero_le _) shows.inside,shows.cells,shows.below⟩

theorem Shows.draw (shows : Shows width height blank b r c s) (tall : 0 < height) (x : C) :
    Shows width height blank (b.set (r * width + c) x) r c (s.draw x) := by
  obtain ⟨low,here⟩ := shows.cursor tall
  have inside := shows.inside
  refine ⟨shows.row,shows.col,inside,fun i bound j left => ?_,fun i under j => ?_⟩
  · have window : s.top height + i = s.row ↔ i = r := by omega
    have cell := cellSame (i := i) (k := r) left (shows.col ▸ inside)
    by_cases own : i = r ∧ j = c
    · have drawn : (s.draw x).cells (s.top height + i) j = x := if_pos ⟨window.mpr own.1,own.2.trans shows.col⟩
      rw [cell.mpr own,setSame]
      exact drawn.symm
    · have kept : (s.draw x).cells (s.top height + i) j = s.cells (s.top height + i) j :=
        if_neg fun same => own ⟨window.mp same.1,same.2.trans shows.col.symm⟩
      rw [setOther fun same => own (cell.mp same)]
      exact (shows.cells i bound j left).trans kept.symm
  · have other : ¬ (i = s.row ∧ j = s.col) := fun same => Nat.ne_of_gt under same.1
    exact (if_neg other).trans (shows.below i under j)

/- The cursor goes down in the window, or stays in its last row and the window moves. -/
theorem Shows.newline (shows : Shows width height blank b r c s) (free : r + 1 < height) : Shows width height blank b (r + 1) 0 s.newline := by
  have row := shows.row
  have still : s.newline.top height = s.top height := by
    rw [Screen.top,Screen.top,Screen.newlineRow]
    omega
  refine ⟨?_,rfl,Nat.lt_of_le_of_lt (Nat.zero_le _) shows.inside,fun i low j left => ?_,fun i under j => shows.below i (Nat.lt_of_succ_lt under) j⟩
  · rw [Screen.newlineRow]
    omega
  · rw [still]
    exact shows.cells i low j left

theorem Shows.scroll (shows : Shows width height blank b r c s) (tall : 0 < height) (last : height ≤ r + 1)
    (scrolled : Scrolled width height blank b b') : Shows width height blank b' (height - 1) 0 s.newline := by
  obtain ⟨low,here⟩ := shows.cursor tall
  have row := shows.row
  have moved : s.newline.top height = s.top height + 1 := by
    rw [Screen.top,Screen.top,Screen.newlineRow]
    omega
  refine ⟨?_,rfl,Nat.lt_of_le_of_lt (Nat.zero_le _) shows.inside,fun i bound j left => ?_,fun i under j => shows.below i (Nat.lt_of_succ_lt under) j⟩
  · rw [Screen.newlineRow]
    omega
  · rw [moved,Nat.add_right_comm,Nat.add_assoc]
    by_cases bottom : i = height - 1
    · rw [bottom,scrolled.fresh j left]
      exact (shows.below _ (by omega) j).symm
    · rw [scrolled.moved i (by omega) j left]
      exact shows.cells (i + 1) (by omega) j left

theorem Shows.left (shows : Shows width height blank b r c s) : Shows width height blank b r (c - 1) { s with col := s.col - 1 } :=
  ⟨shows.row,congrArg (· - 1) shows.col,Nat.lt_of_le_of_lt (Nat.sub_le _ _) shows.inside,shows.cells,shows.below⟩

theorem Shows.right (shows : Shows width height blank b r c s) (free : c + 1 < width) :
    Shows width height blank b r (c + 1) { s with col := s.col + 1 } :=
  ⟨shows.row,congrArg (· + 1) shows.col,shows.col ▸ free,shows.cells,shows.below⟩

end
end TextScreen
