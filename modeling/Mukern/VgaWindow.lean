import Mukern.Library.TextScreen
import Mukern.VgaTerminal

/-! What the VGA terminal has on its screen: the last 25 rows of everything that was
printed, wherever the text made it scroll. -/
namespace Mukern
open Buffers TextScreen

def vgaSpace : BitVec 16 := vgaCell (ascii ' ')

/- A character on a screen of 80 columns that never scrolls. -/
def vgaType (s : TextScreen.Screen (BitVec 16)) (ch : Byte) : TextScreen.Screen (BitVec 16) :=
  if ch = 10 then s.newline
  else if ch = 8 then s.erase vgaSpace
  else if ch = 13 then s.home
  else s.put 80 (vgaCell ch)

def vgaTyped (text : List Byte) : TextScreen.Screen (BitVec 16) := text.foldl vgaType (.clear vgaSpace)

/- The frame buffer shows the screen, and behind its 2000 cells memory is as before. -/
structure Displays (before : Buffer (BitVec 16)) (term : VgaTerminal) (s : TextScreen.Screen (BitVec 16)) : Prop where
  shows : Shows 80 25 vgaSpace term.vga term.curR term.curC s
  outside : ∀ i ≥ 2000, term.vga i = before i

section
variable {vga before : Buffer (BitVec 16)} {term : VgaTerminal} {s : TextScreen.Screen (BitVec 16)} {lo n i : Nat}

theorem vgaBlankOther (outside : i < lo ∨ lo + n ≤ i) : vgaBlank vga lo n i = vga i := by
  induction n generalizing vga lo with
  | zero => rfl
  | succ n ih =>
    rw [vgaBlank,ih (by omega)]
    exact setOther (by omega)

theorem vgaBlankInside (inside : i < n) : vgaBlank vga lo n (lo + i) = vgaSpace := by
  induction n generalizing vga lo i with
  | zero => cases inside
  | succ n ih =>
    rw [vgaBlank]
    cases i with
    | zero =>
      rw [vgaBlankOther (by omega)]
      exact setSame
    | succ i =>
      rw [show lo + (i + 1) = lo + 1 + i by omega]
      exact ih (by omega)

theorem scrollScrolled (term : VgaTerminal) : Scrolled 80 25 vgaSpace term.vga term.scroll.vga := by
  refine ⟨fun i low j left => ?_,fun j left => vgaBlankInside left⟩
  have moved : shiftDown term.vga 80 0 (24 * 80) (0 + (i * 80 + j)) = term.vga (0 + (i * 80 + j) + 80) :=
    shiftDownInside (by decide) (by omega)
  have above : vgaBlank (shiftDown term.vga 80 0 (24 * 80)) (24 * 80) 80 (i * 80 + j) = shiftDown term.vga 80 0 (24 * 80) (i * 80 + j) :=
    vgaBlankOther (by omega)
  rw [Nat.zero_add,show i * 80 + j + 80 = (i + 1) * 80 + j by omega] at moved
  exact above.trans moved

theorem scrollOutside (term : VgaTerminal) (far : 2000 ≤ i) : term.scroll.vga i = term.vga i := by
  have behind : vgaBlank (shiftDown term.vga 80 0 (24 * 80)) (24 * 80) 80 i = shiftDown term.vga 80 0 (24 * 80) i :=
    vgaBlankOther (by omega)
  exact behind.trans (shiftDownOther (by omega))

/- A new row starts in column 0, whatever the column was. -/
theorem nextRowColumn (col : Nat) : { term with curC := col }.nextRow = term.nextRow := by
  unfold VgaTerminal.nextRow VgaTerminal.scroll
  dsimp only

theorem Displays.nextRow (displays : Displays before term s) : Displays before term.nextRow s.newline := by
  obtain ⟨shows,outside⟩ := displays
  unfold VgaTerminal.nextRow
  dsimp only
  split
  · rename_i last
    refine ⟨shows.scroll (by decide) last (scrollScrolled _),fun i far => ?_⟩
    exact (scrollOutside _ far).trans (outside i far)
  · rename_i free
    exact ⟨shows.newline (by omega),outside⟩

/- A cell that is drawn at the cursor lies in the frame buffer. -/
theorem Displays.draw (displays : Displays before term s) (x : BitVec 16) :
    Displays before { term with vga := term.vga.set (term.curR * 80 + term.curC) x } (s.draw x) := by
  obtain ⟨shows,outside⟩ := displays
  have place := shows.place (by decide)
  refine ⟨shows.draw (by decide) x,fun i far => ?_⟩
  exact (setOther (by omega)).trans (outside i far)

theorem Displays.putc (displays : Displays before term s) (ch : Byte) : Displays before (term.vgaPutc ch) (vgaType s ch) := by
  have col := displays.shows.col
  unfold VgaTerminal.vgaPutc vgaType
  by_cases newline : ch = 10
  · rw [if_pos newline,if_pos newline]
    exact displays.nextRow
  rw [if_neg newline,if_neg newline]
  by_cases erases : ch = 8
  · rw [if_pos erases,if_pos erases,TextScreen.Screen.erase]
    by_cases back : 0 < term.curC
    · rw [if_pos back,if_pos (col ▸ back)]
      have moved : Displays before { term with curC := term.curC - 1 } { s with col := s.col - 1 } := ⟨displays.shows.left,displays.outside⟩
      exact moved.draw vgaSpace
    · rw [if_neg back,if_neg (col ▸ back)]
      exact displays
  rw [if_neg erases,if_neg erases]
  by_cases homes : ch = 13
  · rw [if_pos homes,if_pos homes]
    exact ⟨displays.shows.home,displays.outside⟩
  rw [if_neg homes,if_neg homes]
  have drawn := displays.draw (vgaCell ch)
  have same : (s.draw (vgaCell ch)).col = term.curC := col.symm
  rw [TextScreen.Screen.put,TextScreen.Screen.advance]
  dsimp only
  by_cases edge : term.curC + 1 ≥ 80
  · rw [if_pos edge,if_pos (same.symm ▸ edge)]
    have row := drawn.nextRow
    rwa [← nextRowColumn (term.curC + 1)] at row
  · rw [if_neg edge,if_neg (same.symm ▸ edge)]
    have free : term.curC + 1 < 80 := by omega
    exact ⟨drawn.shows.right free,drawn.outside⟩

theorem Displays.puts (displays : Displays before term s) (text : List Byte) : Displays before (term.vgaPuts text) (text.foldl vgaType s) := by
  induction text generalizing term s with
  | nil => exact displays
  | cons ch text ih => exact ih (displays.putc ch)

theorem clearDisplays (term : VgaTerminal) : Displays term.vga term.vgaClear (.clear vgaSpace) := by
  have cleared : term.vgaClear.vga = vgaBlank term.vga 0 (80 * 25) := by rw [VgaTerminal.vgaClear]
  have blanks : ∀ i < 25 * 80, term.vgaClear.vga i = vgaSpace := by
    intro i low
    have blank : vgaBlank term.vga 0 (80 * 25) (0 + i) = vgaSpace := vgaBlankInside (by omega)
    rw [Nat.zero_add] at blank
    rw [cleared,blank]
  refine ⟨.clear (by decide) blanks,fun i far => ?_⟩
  rw [cleared]
  exact vgaBlankOther (by omega)

/- After `vga_clear` and any characters the cursor is on the screen, nothing behind the
frame buffer has been written, and row `i` is row `top + i` of what was printed. -/
theorem vgaWindow (term : VgaTerminal) (text : List Byte) :
    let shown := term.vgaClear.vgaPuts text
    let screen := vgaTyped text
    shown.curR ≤ 24 ∧ shown.curC ≤ 79 ∧ (∀ i ≥ 2000, shown.vga i = term.vga i) ∧
      ∀ i < 25, ∀ c < 80, shown.vga (i * 80 + c) = screen.cells (screen.row - 24 + i) c := by
  obtain ⟨shows,outside⟩ := (clearDisplays term).puts text
  have row := shows.row
  have col := shows.col
  have inside := shows.inside
  exact ⟨by omega,by omega,outside,shows.cells⟩

end
end Mukern
