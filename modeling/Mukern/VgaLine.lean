import Mukern.TerminalLines
import Mukern.VgaWindow
import Mukern.Library.Trace

/-! The line that is being read, on the screen of the VGA terminal: its cells follow the
place where the read began, over row ends and scrolls. -/
namespace Mukern
open Buffers TextScreen

/- The length of the line after a key, and the greatest it had. -/
def widthKey (room : Nat) (width : Nat × Nat) (c : Byte) : Nat × Nat :=
  if c = 8 then (width.1 - 1,width.2)
  else if 0x20 ≤ c ∧ c < 0x7f ∧ width.1 + 1 < room then (width.1 + 1,max width.2 (width.1 + 1))
  else width

def widths (room : Nat) (keys : List Byte) : Nat × Nat := keys.foldl (widthKey room) (0,0)

/- The rows that have left the screen, for a line of this length that began at `origin`. -/
def scrolledRows (origin peak : Nat) : Nat := (origin + peak) / 80 - 24

namespace VgaTerminal

/- Where the cursor stands, in reading order. -/
def place (term : VgaTerminal) : Nat := term.curR * 80 + term.curC

def typeKeys (term : VgaTerminal) (keys : List Byte) : VgaTerminal := keys.foldl editKey term

/- What is left on the screen of a line that began at `origin` and was at most `peak` long:
its characters, the cursor behind them, and blanks where characters were erased. -/
structure ShowsLine (origin peak : Nat) (term : VgaTerminal) : Prop where
  row : term.curR < 25
  col : term.curC < 80
  cursor : term.place + 80 * scrolledRows origin peak = origin + term.rdN
  line : ∀ i < term.rdN, 80 * scrolledRows origin peak ≤ origin + i →
    term.vga (origin + i - 80 * scrolledRows origin peak) = vgaCell (term.memory (term.rdBuf + i))
  erased : ∀ i < peak, term.rdN ≤ i → 80 * scrolledRows origin peak ≤ origin + i → term.vga (origin + i - 80 * scrolledRows origin peak) = vgaSpace

/- The line shows, and nothing of it was erased across a row end. -/
structure KeepsRow (origin peak : Nat) (term : VgaTerminal) : Prop where
  shows : ShowsLine origin peak term
  low : term.rdN ≤ peak
  level : (origin + term.rdN) / 80 = (origin + peak) / 80

variable {term : VgaTerminal} {origin peak room n : Nat} {c : Byte} {keys : List Byte}

theorem scrollMoved (term : VgaTerminal) {j : Nat} (low : j < 24 * 80) : term.scroll.vga j = term.vga (j + 80) := by
  have moved := (scrollScrolled term).moved (j / 80) (by omega) (j % 80) (Nat.mod_lt j (by decide))
  have here : j / 80 * 80 + j % 80 = j := Nat.div_add_mod' j 80
  have next : (j / 80 + 1) * 80 + j % 80 = j + 80 := by omega
  rwa [here,next] at moved

theorem lastRow (last : term.curR + 1 ≥ 25) : term.nextRow = { term with vga := term.scroll.vga, curR := 24, curC := 0 } := by
  unfold nextRow scroll
  exact if_pos last

/- The row of the cursor, on the screen and in the line. -/
theorem KeepsRow.rows (keeps : KeepsRow origin peak term) : (origin + peak) / 80 = term.curR + scrolledRows origin peak ∧
    (scrolledRows origin peak = 0 ∨ term.curR = 24) := by
  have row := keeps.shows.row
  have col := keeps.shows.col
  have cursor := keeps.shows.cursor
  have level := keeps.level
  have rows : scrolledRows origin peak = (origin + peak) / 80 - 24 := rfl
  unfold place at cursor
  omega

/- A character drawn at the cursor, before the cursor moves. -/
def drawn (term : VgaTerminal) (c : Byte) : VgaTerminal :=
  { term with vga := term.vga.set term.place (vgaCell c), memory := term.memory.set (term.rdBuf + term.rdN) c, rdN := term.rdN + 1, curC := term.curC + 1 }

theorem insertIs (graphic : 0x20 ≤ c ∧ c < 0x7f) (free : unsigned (term.rdN + 1) < term.rdMax) :
    term.editKey c = if term.curC + 1 ≥ 80 then (term.drawn c).nextRow else term.drawn c := by
  have plain : ∀ c : Byte, 0x20 ≤ c ∧ c < 0x7f → c ≠ 10 ∧ c ≠ 8 ∧ c ≠ 13 := by decide +kernel
  obtain ⟨newline,back,home⟩ := plain c graphic
  rw [editKey,if_neg newline,if_neg back,if_pos ⟨graphic.1,graphic.2,free⟩,vgaPutc,if_neg newline,if_neg back,if_neg home]
  rfl

/- The cells of the line after one more character, on a screen that has not moved yet. -/
theorem drawnCells (shows : ShowsLine origin peak term) (c : Byte) : ∀ i < term.rdN + 1, 80 * scrolledRows origin peak ≤ origin + i →
    (term.drawn c).vga (origin + i - 80 * scrolledRows origin peak) = vgaCell ((term.drawn c).memory ((term.drawn c).rdBuf + i)) := by
  intro i low visible
  have cursor := shows.cursor
  rcases Nat.lt_succ_iff_lt_or_eq.mp low with earlier | rfl
  · have cell : (term.drawn c).vga (origin + i - 80 * scrolledRows origin peak) = term.vga (origin + i - 80 * scrolledRows origin peak) :=
      setOther (by omega)
    have byte : (term.drawn c).memory (term.rdBuf + i) = term.memory (term.rdBuf + i) := setOther (by omega)
    rw [cell,shows.line i earlier visible]
    exact congrArg vgaCell byte.symm
  · have here : origin + term.rdN - 80 * scrolledRows origin peak = term.place := by omega
    have cell : (term.drawn c).vga term.place = vgaCell c := setSame
    have byte : (term.drawn c).memory (term.rdBuf + term.rdN) = c := setSame
    rw [here,cell]
    exact congrArg vgaCell byte.symm

/- The cursor stays in its row. -/
theorem insertInside (keeps : KeepsRow origin peak term) (inside : term.curC + 1 < 80) (c : Byte) :
    KeepsRow origin (max peak (term.rdN + 1)) (term.drawn c) := by
  obtain ⟨rows,top⟩ := keeps.rows
  have shows := keeps.shows
  have cursor := shows.cursor
  have level := keeps.level
  have place : term.place = term.curR * 80 + term.curC := rfl
  have same : (origin + max peak (term.rdN + 1)) / 80 = (origin + peak) / 80 := by omega
  have still : scrolledRows origin (max peak (term.rdN + 1)) = scrolledRows origin peak := by rw [scrolledRows,same,scrolledRows]
  refine ⟨⟨shows.row,inside,?_,?_,?_⟩,Nat.le_max_right _ _,?_⟩
  · rw [still]
    change term.curR * 80 + (term.curC + 1) + 80 * scrolledRows origin peak = origin + (term.rdN + 1)
    omega
  · rw [still]
    exact drawnCells shows c
  · rw [still]
    intro i below behind visible
    have later : term.rdN + 1 ≤ i := behind
    have cell : (term.drawn c).vga (origin + i - 80 * scrolledRows origin peak) = term.vga (origin + i - 80 * scrolledRows origin peak) :=
      setOther (by omega)
    rw [cell]
    exact shows.erased i (by omega) (by omega) visible
  · change (origin + (term.rdN + 1)) / 80 = _
    rw [same]
    omega

/- The row is full, so that nothing was erased behind the cursor, and it goes to the next. -/
theorem insertEdge (keeps : KeepsRow origin peak term) (edge : term.curC + 1 ≥ 80) (c : Byte) :
    KeepsRow origin (max peak (term.rdN + 1)) (term.drawn c).nextRow := by
  obtain ⟨rows,top⟩ := keeps.rows
  have cells := drawnCells keeps.shows c
  have row := keeps.shows.row
  have col := keeps.shows.col
  have cursor := keeps.shows.cursor
  have low := keeps.low
  have level := keeps.level
  have place : term.place = term.curR * 80 + term.curC := rfl
  have longer : max peak (term.rdN + 1) = term.rdN + 1 := by omega
  have next : (origin + (term.rdN + 1)) / 80 = (origin + peak) / 80 + 1 := by omega
  rw [longer]
  rcases Nat.lt_or_ge (term.curR + 1) 25 with free | last
  · have still : scrolledRows origin (term.rdN + 1) = scrolledRows origin peak := by rw [scrolledRows,next,scrolledRows]; omega
    have moved : (term.drawn c).nextRow = { term.drawn c with curC := 0, curR := term.curR + 1 } := if_neg (Nat.not_le.mpr free)
    rw [moved]
    refine ⟨⟨free,(by decide : 0 < 80),?_,?_,fun i below behind => absurd below (Nat.not_lt.mpr behind)⟩,le_refl _,rfl⟩
    · rw [still]
      change (term.curR + 1) * 80 + 0 + 80 * scrolledRows origin peak = origin + (term.rdN + 1)
      omega
    · rw [still]
      exact cells
  · have more : scrolledRows origin (term.rdN + 1) = scrolledRows origin peak + 1 := by rw [scrolledRows,next,scrolledRows]; omega
    have bottom : (term.drawn c).curR + 1 ≥ 25 := last
    rw [lastRow bottom]
    refine ⟨⟨(by decide : 24 < 25),(by decide : 0 < 80),?_,?_,fun i below behind => absurd below (Nat.not_lt.mpr behind)⟩,le_refl _,rfl⟩
    · rw [more]
      change 24 * 80 + 0 + 80 * (scrolledRows origin peak + 1) = origin + (term.rdN + 1)
      omega
    · rw [more]
      intro i below visible
      have short : i < term.rdN + 1 := below
      have up := scrollMoved (term.drawn c) (by omega : origin + i - 80 * (scrolledRows origin peak + 1) < 24 * 80)
      have index : origin + i - 80 * (scrolledRows origin peak + 1) + 80 = origin + i - 80 * scrolledRows origin peak := by omega
      rw [index] at up
      dsimp only
      rw [up]
      exact cells i short (by omega)

theorem insertKeeps (keeps : KeepsRow origin peak term) (graphic : 0x20 ≤ c ∧ c < 0x7f) (free : unsigned (term.rdN + 1) < term.rdMax) :
    KeepsRow origin (max peak (term.rdN + 1)) (term.editKey c) := by
  rw [insertIs graphic free]
  split
  · rename_i edge
    exact insertEdge keeps edge c
  · rename_i inside
    exact insertInside keeps (Nat.lt_of_not_le inside) c

theorem backIs (some : term.rdN ≠ 0) : term.editKey 8 =
    if term.curC > 0 then
      { term with rdN := term.rdN - 1, curC := term.curC - 1, vga := term.vga.set (term.curR * 80 + (term.curC - 1)) vgaSpace }
    else { term with rdN := term.rdN - 1 } := by
  rw [editKey,if_neg (by decide),if_pos rfl,if_pos some,vgaPutc,if_neg (by decide),if_pos rfl]
  rfl

theorem backKeeps (keeps : KeepsRow origin peak term) (some : term.rdN ≠ 0) (inside : term.curC > 0) : KeepsRow origin peak (term.editKey 8) := by
  have shows := keeps.shows
  have col := shows.col
  have cursor := shows.cursor
  have low := keeps.low
  have level := keeps.level
  have place : term.place = term.curR * 80 + term.curC := rfl
  rw [backIs some,if_pos inside]
  refine ⟨⟨shows.row,Nat.lt_of_le_of_lt (Nat.sub_le _ _) col,?_,?_,?_⟩,(Nat.sub_le _ _).trans low,?_⟩
  · change term.curR * 80 + (term.curC - 1) + 80 * scrolledRows origin peak = origin + (term.rdN - 1)
    omega
  · intro i below visible
    have short : i < term.rdN - 1 := below
    have cell : term.vga.set (term.curR * 80 + (term.curC - 1)) vgaSpace (origin + i - 80 * scrolledRows origin peak) =
        term.vga (origin + i - 80 * scrolledRows origin peak) := setOther (by omega)
    exact cell.trans (shows.line i (by omega) visible)
  · intro i below behind visible
    have later : term.rdN - 1 ≤ i := behind
    change term.vga.set (term.curR * 80 + (term.curC - 1)) vgaSpace (origin + i - 80 * scrolledRows origin peak) = vgaSpace
    rcases Nat.eq_or_lt_of_le later with here | further
    · have index : origin + i - 80 * scrolledRows origin peak = term.curR * 80 + (term.curC - 1) := by omega
      rw [index]
      exact setSame
    · rw [setOther (by omega)]
      exact shows.erased i below (by omega) visible
  · change (origin + (term.rdN - 1)) / 80 = _
    omega

/- The fields that a key other than Enter leaves. -/
structure SameRead (term term' : VgaTerminal) : Prop where
  active : term'.rdActive = term.rdActive
  buf : term'.rdBuf = term.rdBuf
  max : term'.rdMax = term.rdMax

theorem putcRead (term : VgaTerminal) (ch : Byte) : SameRead term (term.vgaPutc ch) ∧ (term.vgaPutc ch).rdN = term.rdN := by
  obtain ⟨_,_,_,printed⟩ := term.vgaPutcScreen ch
  rw [printed]
  exact ⟨⟨rfl,rfl,rfl⟩,rfl⟩

/- What a key does to the length of the line. -/
theorem keyLength (term : VgaTerminal) (other : c ≠ 10) : SameRead term (term.editKey c) ∧ (term.editKey c).rdN =
    if c = 8 then term.rdN - 1
    else if 0x20 ≤ c ∧ c < 0x7f ∧ unsigned (term.rdN + 1) < term.rdMax then term.rdN + 1
    else term.rdN := by
  rw [editKey,if_neg other]
  by_cases back : c = 8
  · rw [if_pos back,if_pos back]
    split
    · obtain ⟨same,length⟩ := putcRead { term with rdN := term.rdN - 1 } 8
      exact ⟨⟨same.active,same.buf,same.max⟩,length⟩
    · exact ⟨⟨rfl,rfl,rfl⟩,by omega⟩
  · rw [if_neg back,if_neg back]
    split
    · obtain ⟨same,length⟩ := putcRead { term with memory := term.memory.set (term.rdBuf + term.rdN) c, rdN := term.rdN + 1 } c
      exact ⟨⟨same.active,same.buf,same.max⟩,length⟩
    · exact ⟨⟨rfl,rfl,rfl⟩,rfl⟩

/- The state of a read as far as the length of its line goes. -/
structure Reads (room : Nat) (keys : List Byte) (term : VgaTerminal) : Prop where
  max : term.rdMax = room
  length : term.rdN = (widths room keys).1
  short : term.rdN = 0 ∨ term.rdN < room
  bound : room < 2 ^ 32

theorem Reads.unsigned (reads : Reads room keys term) : unsigned (term.rdN + 1) = term.rdN + 1 := by
  have short := reads.short
  have bound := reads.bound
  exact Nat.mod_eq_of_lt (by omega)

theorem widthsSnoc (room : Nat) (keys : List Byte) (c : Byte) : widths room (keys ++ [c]) = widthKey room (widths room keys) c := by
  rw [widths,List.foldl_append]
  rfl

theorem keyReads (reads : Reads room keys term) (other : c ≠ 10) : Reads room (keys ++ [c]) (term.editKey c) := by
  obtain ⟨same,length⟩ := keyLength term other
  have short := reads.short
  rw [reads.unsigned,reads.max] at length
  refine ⟨same.max.trans reads.max,?_,?_,reads.bound⟩
  · rw [length,widthsSnoc,widthKey,reads.length]
    by_cases back : c = 8
    · rw [if_pos back,if_pos back]
    · rw [if_neg back,if_neg back]
      split <;> rfl
  · rw [length]
    by_cases back : c = 8
    · rw [if_pos back]
      omega
    · rw [if_neg back]
      split
      · rename_i free
        exact .inr free.2.2
      · exact short

/- No Backspace comes while the line ends at the right margin. -/
def OffMargin (origin room : Nat) (keys : List Byte) : Prop :=
  ∀ front rest, keys = front ++ 8 :: rest → 0 < (widths room front).1 → (origin + (widths room front).1) % 80 ≠ 0

theorem keyKeeps (reads : Reads room keys term) (keeps : KeepsRow origin (widths room keys).2 term) (other : c ≠ 10)
    (off : c = 8 → 0 < (widths room keys).1 → (origin + (widths room keys).1) % 80 ≠ 0) :
    KeepsRow origin (widths room (keys ++ [c])).2 (term.editKey c) := by
  rw [widthsSnoc,widthKey]
  by_cases back : c = 8
  · rw [if_pos back,back]
    by_cases some : term.rdN = 0
    · have same : term.editKey 8 = term := by
        rw [editKey,if_neg (by decide),if_pos rfl,if_neg (not_not.mpr some)]
      rw [same]
      exact keeps
    · have inside : term.curC > 0 := by
        have margin := off back (by rw [← reads.length]; omega)
        have cursor := keeps.shows.cursor
        have col := keeps.shows.col
        rw [← reads.length] at margin
        unfold place at cursor
        omega
      exact backKeeps keeps some inside
  · rw [if_neg back,← reads.length]
    by_cases free : 0x20 ≤ c ∧ c < 0x7f ∧ term.rdN + 1 < room
    · rw [if_pos free]
      exact insertKeeps keeps ⟨free.1,free.2.1⟩ (by rw [reads.unsigned,reads.max]; exact free.2.2)
    · have same : term.editKey c = term := by
        rw [editKey,if_neg other,if_neg back,reads.unsigned,reads.max,if_neg free]
      rw [if_neg free,same]
      exact keeps

/- A Backspace at the margin leaves the cursor where it is, one place too far. -/
theorem marginLost (shows : ShowsLine origin peak term) (some : term.rdN ≠ 0) (margin : (origin + term.rdN) % 80 = 0) :
    ¬ ShowsLine origin peak (term.editKey 8) := by
  have cursor := shows.cursor
  have col := shows.col
  have edge : ¬ term.curC > 0 := by
    unfold place at cursor
    omega
  rw [backIs some,if_neg edge]
  intro broken
  have cursor' : term.place + 80 * scrolledRows origin peak = origin + (term.rdN - 1) := broken.cursor
  omega

theorem typeSnoc (term : VgaTerminal) (keys : List Byte) (c : Byte) : term.typeKeys (keys ++ [c]) = (term.typeKeys keys).editKey c := by
  rw [typeKeys,List.foldl_append]
  rfl

/- The loop of `edit` types the keys that wait, as long as none of them is Enter. -/
theorem editTypes (active : term.rdActive = true) (waiting : term.kr.contents = keys) (open' : 10 ∉ keys) :
    ∃ kr, term.edit keys.length = { term.typeKeys keys with kr := kr } ∧ kr.contents = [] := by
  have putc (kr : Ring Byte 128) (term : VgaTerminal) (ch : Byte) :
      ({ term with kr := kr } : VgaTerminal).vgaPutc ch = { term.vgaPutc ch with kr := kr } := by
    unfold vgaPutc nextRow scroll
    dsimp only
    repeat' split
    all_goals rfl
  have key (kr : Ring Byte 128) (term : VgaTerminal) (c : Byte) :
      ({ term with kr := kr } : VgaTerminal).editKey c = { term.editKey c with kr := kr } := by
    unfold editKey
    dsimp only
    split
    · rw [putc]
    · split
      · split
        · exact putc kr { term with rdN := term.rdN - 1 } 8
        · rfl
      · split
        · exact putc kr { term with memory := term.memory.set (term.rdBuf + term.rdN) c, rdN := term.rdN + 1 } c
        · rfl
  induction keys generalizing term with
  | nil => exact ⟨term.kr,rfl,waiting⟩
  | cons c keys ih =>
    obtain ⟨kr,popped,left⟩ := Ring.popSome waiting
    have stays : c ≠ 10 := fun enter => open' (enter ▸ List.mem_cons_self)
    have rest : 10 ∉ keys := fun member => open' (List.mem_cons_of_mem _ member)
    have still := (keyLength { term with kr := kr } stays).1
    have same : (({ term with kr := kr } : VgaTerminal).editKey c).kr = kr := by rw [key]
    obtain ⟨kr',typed,empty⟩ := ih (still.active.trans active) ((congrArg Ring.contents same).trans left) rest
    refine ⟨kr',?_,empty⟩
    rw [List.length_cons,edit,if_pos active,popped]
    dsimp only
    rw [typed,key]
    have moved : ∀ (keys : List Byte) (term : VgaTerminal) (kr : Ring Byte 128),
        ({ term with kr := kr } : VgaTerminal).typeKeys keys = { term.typeKeys keys with kr := kr } := by
      intro keys
      induction keys with
      | nil => exact fun _ _ => rfl
      | cons c keys ih =>
        intro term kr
        rw [typeKeys,List.foldl_cons,key]
        exact ih _ _
    rw [moved]
    rfl

/- Wherever the cursor stands when a read begins, its line shows on the screen after each
key exactly when no Backspace comes while the line ends at the right margin. -/
theorem lineShown (term : VgaTerminal) (row : term.curR < 25) (col : term.curC < 80) (sender : Int) (data0 data1 : Nat) (keys : List Byte)
    (open' : 10 ∉ keys) :
    (∀ front rest, keys = front ++ rest →
      ShowsLine term.place (widths (unsigned data1) front).2 ((term.takeRequest sender data0 data1).typeKeys front)) ↔
    OffMargin term.place (unsigned data1) keys := by
  have start : Reads (unsigned data1) [] (term.takeRequest sender data0 data1) := ⟨rfl,rfl,.inl rfl,Nat.mod_lt _ (by decide)⟩
  have other : ∀ front c rest, keys = front ++ c :: rest → c ≠ 10 := fun front c rest split enter => open' (by rw [split,enter]; simp)
  have reads : ∀ front rest, keys = front ++ rest → Reads (unsigned data1) front ((term.takeRequest sender data0 data1).typeKeys front) := by
    refine Trace.beginnings start fun front c rest split before => ?_
    rw [typeSnoc]
    exact keyReads before (other front c rest split)
  constructor
  · intro shows front rest split some margin
    have before := shows front (8 :: rest) split
    have after := shows (front ++ [8]) rest (by rw [split,List.append_assoc]; rfl)
    have length := (reads front (8 :: rest) split).length
    rw [typeSnoc,widthsSnoc,widthKey,if_pos rfl] at after
    exact marginLost before (by omega) (by rw [length]; exact margin) after
  · intro off
    have keeps : ∀ front rest, keys = front ++ rest →
        KeepsRow term.place (widths (unsigned data1) front).2 ((term.takeRequest sender data0 data1).typeKeys front) := by
      refine Trace.beginnings ?_ fun front c rest split before => ?_
      · have none : scrolledRows term.place 0 = 0 := by
          unfold scrolledRows place
          omega
        refine ⟨⟨row,col,?_,nofun,nofun⟩,le_refl _,rfl⟩
        change term.place + 80 * scrolledRows term.place 0 = term.place + 0
        rw [none]
      · rw [typeSnoc]
        exact keyKeeps (reads front _ split) before (other front c rest split) fun back => off front rest (back ▸ split)
    exact fun front rest split => (keeps front rest split).shows

/- A prompt of 79 characters in the row below the greeting. -/
def prompted : VgaTerminal := Transition.run vgaSystem (.boot (fun _ => 0) fun _ => 32) [.write 5 0 79]

theorem lineShownPrompted :
    (∀ front rest, [ascii 'a',ascii 'b',8] = front ++ rest →
      ShowsLine prompted.place (widths (unsigned 64) front).2 ((prompted.takeRequest 5 1000 64).typeKeys front)) ↔
    OffMargin prompted.place (unsigned 64) [ascii 'a',ascii 'b',8] :=
  lineShown prompted (by decide +kernel) (by decide +kernel) 5 1000 64 _ (by decide)

/- A character that filled the row is erased from the line and stays on the screen. -/
theorem eraseAcrossRows : ¬ ShowsLine prompted.place (widths 64 [ascii 'a',8]).2 ((prompted.takeRequest 5 1000 64).typeKeys [ascii 'a',8]) ∧
    ((prompted.takeRequest 5 1000 64).typeKeys [ascii 'a',8]).rdN = 0 ∧
    ((prompted.takeRequest 5 1000 64).typeKeys [ascii 'a',8]).vga prompted.place = vgaCell (ascii 'a') := by
  refine ⟨fun shows => absurd shows.cursor (by decide +kernel),by decide +kernel,by decide +kernel⟩

end VgaTerminal
end Mukern
