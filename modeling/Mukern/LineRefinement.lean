import Mukern.LineEditor

/-! The driver's globals against the pure editor: each function of the driver does to
the text, as the buffer and the indices hold it, what the editor's command does. -/
namespace Mukern
open Buffers

namespace Console
variable {con : Console} {c : Byte} {room : Nat}

/- The text before and after the cursor, in the client's buffer. -/
def before (con : Console) : List Byte := read con.memory con.rdBuf con.rdPos

def after (con : Console) : List Byte := read con.memory (con.rdBuf + con.rdPos) (con.rdN - con.rdPos)

/- The slot of the entry that `h_nav` selects. -/
def slot (con : Console) (nav : Nat) : Nat := (con.hNext + 16 - nav) % 16

def entry (con : Console) (nav : Nat) : List Byte := read (con.hist (con.slot nav)) 0 (con.histLen (con.slot nav))

def textOf (con : Console) : LineText :=
  { left := con.before.reverse
    right := con.after
    history := (List.range con.hCount).map fun k => con.entry (k + 1)
    depth := con.hNav
    parked := read con.hSaved 0 con.hSavedN }

/- The indices stay inside the line, the line inside the client's buffer, and the
history inside its array. -/
structure Inside (con : Console) : Prop where
  pos : con.rdPos ≤ con.rdN
  room : con.rdN < con.rdMax
  buffer : con.rdMax < 2 ^ 32
  count : con.hCount ≤ 16
  next : con.hNext < 16
  nav : con.hNav ≤ con.hCount

theorem Inside.withRing {con : Console} (inside : Inside con) (ring : Ring Byte 256) : Inside { con with ring := ring } :=
  ⟨inside.pos,inside.room,inside.buffer,inside.count,inside.next,inside.nav⟩

/- What no editing function touches. -/
structure Framed (con con' : Console) : Prop where
  ring : con'.ring = con.ring
  active : con'.rdActive = con.rdActive
  sender : con'.rdFrom = con.rdFrom
  buf : con'.rdBuf = con.rdBuf
  max : con'.rdMax = con.rdMax
  esc : con'.esc = con.esc
  csi : con'.csiNum = con.csiNum
  wrote : con'.wrote = con.wrote
  lines : con'.lines = con.lines

theorem Framed.refl : Framed con con := ⟨rfl,rfl,rfl,rfl,rfl,rfl,rfl,rfl,rfl⟩

theorem Framed.trans {con' con'' : Console} (first : Framed con con') (second : Framed con' con'') : Framed con con'' :=
  ⟨second.ring.trans first.ring,second.active.trans first.active,second.sender.trans first.sender,second.buf.trans first.buf,
    second.max.trans first.max,second.esc.trans first.esc,second.csi.trans first.csi,second.wrote.trans first.wrote,
    second.lines.trans first.lines⟩

theorem beforeLength : con.before.length = con.rdPos := readLength

theorem afterLength : con.after.length = con.rdN - con.rdPos := readLength

theorem lineRead (inside : Inside con) : read con.memory con.rdBuf con.rdN = con.before ++ con.after := by
  have cells : con.rdN = con.rdPos + (con.rdN - con.rdPos) := by
    have := inside.pos
    omega
  rw [cells,readAppend]
  rfl

/- `go_home`, as one step. -/
theorem goHomeIs : con.goHome = { con with rdPos := 0, uart := con.uart ++ List.replicate con.rdPos 8 } := by
  have steps : ∀ k (con : Console), con.rdPos = k → goLeft^[k] con = { con with rdPos := 0, uart := con.uart ++ List.replicate k 8 } := by
    intro k
    induction k with
    | zero =>
      intro con start
      rw [Function.iterate_zero,id,List.replicate_zero,List.append_nil,← start]
    | succ k ih =>
      intro con start
      have one : con.goLeft = { con with rdPos := k, uart := con.uart ++ [8] } := by
        rw [goLeft,if_pos (by omega),start]
        rfl
      rw [Function.iterate_succ_apply,one,ih _ rfl,List.replicate_succ,List.append_assoc]
      rfl
  exact steps _ _ rfl

theorem goEndIs (inside : con.rdPos ≤ con.rdN) : con.goEnd = { con with rdPos := con.rdN, uart := con.uart ++ con.after } := by
  have steps : ∀ k (con : Console), con.rdPos + k ≤ con.rdN → goRight^[k] con =
      { con with rdPos := con.rdPos + k, uart := con.uart ++ read con.memory (con.rdBuf + con.rdPos) k } := by
    intro k
    induction k with
    | zero =>
      intro con _
      rw [Function.iterate_zero,id,readNil,List.append_nil]
      rfl
    | succ k ih =>
      intro con short
      have one : con.goRight = { con with rdPos := con.rdPos + 1, uart := con.uart ++ [con.memory (con.rdBuf + con.rdPos)] } := by
        rw [goRight,if_pos (by omega)]
        rfl
      rw [Function.iterate_succ_apply,one,ih _ (by simp only; omega),readCons,List.append_assoc,Nat.add_right_comm con.rdPos]
      rfl
  have whole : con.rdPos + (con.rdN - con.rdPos) = con.rdN := Nat.add_sub_cancel' inside
  rw [goEnd,steps _ _ (by omega),whole]
  rfl

theorem eraseLineIs : con.eraseLine = { con with rdN := 0, uart := con.uart ++ (List.replicate con.rdN [8,ascii ' ',8]).flatten } := by
  have steps : ∀ k (con : Console), con.rdN = k →
      rubOut^[k] con = { con with rdN := 0, uart := con.uart ++ (List.replicate k [8,ascii ' ',8]).flatten } := by
    intro k
    induction k with
    | zero =>
      intro con start
      rw [Function.iterate_zero,id,List.replicate_zero,List.flatten_nil,List.append_nil,← start]
    | succ k ih =>
      intro con start
      have one : con.rubOut = { con with rdN := k, uart := con.uart ++ [8,ascii ' ',8] } := by
        rw [rubOut,start]
        rfl
      rw [Function.iterate_succ_apply,one,ih _ rfl,List.replicate_succ,List.flatten_cons,List.append_assoc]
  exact steps _ _ rfl

theorem insCharFull (inside : Inside con) (full : ¬ con.rdN + 1 < con.rdMax) : con.insChar c = con := by
  have fits : unsigned (con.rdN + 1) = con.rdN + 1 := Nat.mod_eq_of_lt (by have := inside.room; have := inside.buffer; omega)
  exact if_pos (by rw [fits]; omega)

theorem insCharIs (inside : Inside con) (free : con.rdN + 1 < con.rdMax) :
    con.insChar c =
      { con with
        memory := (shiftUp con.memory (con.rdBuf + con.rdPos) (con.rdN - con.rdPos)).set (con.rdBuf + con.rdPos) c
        rdN := con.rdN + 1
        rdPos := con.rdPos + 1
        uart := con.uart ++ (c :: con.after) ++ List.replicate (con.rdN - con.rdPos) 8 } := by
  have pos := inside.pos
  have fits : unsigned (con.rdN + 1) = con.rdN + 1 := Nat.mod_eq_of_lt (by have := inside.buffer; omega)
  have cells : con.rdN + 1 - con.rdPos = con.rdN - con.rdPos + 1 := by omega
  have rest : con.rdN + 1 - (con.rdPos + 1) = con.rdN - con.rdPos := by omega
  have shown := insertRead con.memory (con.rdBuf + con.rdPos) c (Nat.zero_le (con.rdN - con.rdPos))
  simp only [Nat.add_zero,Nat.sub_zero,readNil,List.nil_append] at shown
  rw [insChar,if_neg (by rw [fits]; omega)]
  simp only [echo,backspaces,uartPuts,cells,rest,shown]
  rfl

theorem delLeftStart (start : con.rdPos = 0) : con.delLeft = con := if_pos start

theorem delLeftIs (inside : Inside con) (later : con.rdPos ≠ 0) :
    con.delLeft =
      { con with
        memory := shiftDown con.memory 1 (con.rdBuf + (con.rdPos - 1)) (con.rdN - con.rdPos)
        rdN := con.rdN - 1
        rdPos := con.rdPos - 1
        uart := con.uart ++ [8] ++ con.after ++ List.replicate (con.rdN - con.rdPos) 8 ++ [ascii ' '] ++
          List.replicate (con.rdN - con.rdPos + 1) 8 } := by
  have pos := inside.pos
  have cells : con.rdN - 1 - (con.rdPos - 1) = con.rdN - con.rdPos := by omega
  have next : con.rdBuf + (con.rdPos - 1) + 1 = con.rdBuf + con.rdPos := by omega
  have shown := shiftDownRead con.memory (con.rdBuf + (con.rdPos - 1)) (con.rdN - con.rdPos) Nat.one_pos
  rw [next] at shown
  rw [delLeft,if_neg later]
  simp only [redrawFrom,echo,backspaces,uartPutc,uartPuts,cells,shown]
  rfl

theorem delAtEnd (last : con.rdPos ≥ con.rdN) : con.delAt = con := if_pos last

theorem delAtIs (earlier : con.rdPos < con.rdN) :
    con.delAt =
      { con with
        memory := shiftDown con.memory 1 (con.rdBuf + con.rdPos) (con.rdN - 1 - con.rdPos)
        rdN := con.rdN - 1
        uart := con.uart ++ con.after.tail ++ List.replicate (con.rdN - 1 - con.rdPos) 8 ++ [ascii ' '] ++
          List.replicate (con.rdN - 1 - con.rdPos + 1) 8 } := by
  have cells : con.rdN - con.rdPos = con.rdN - 1 - con.rdPos + 1 := by omega
  have shown := shiftDownRead con.memory (con.rdBuf + con.rdPos) (con.rdN - 1 - con.rdPos) Nat.one_pos
  rw [delAt,if_neg (by omega)]
  simp only [redrawFrom,echo,backspaces,uartPutc,uartPuts,after,shown]
  rw [cells,readCons,List.tail_cons]

/- The length of the line that `set_line` leaves. -/
def loaded (con : Console) (n : Nat) : Nat := if n ≥ con.rdMax then con.rdMax - 1 else n

theorem setLineIs (inside : Inside con) (s : Buffer Byte) (n : Nat) :
    con.setLine s n =
      { con with
        memory := copy con.memory con.rdBuf s 0 (con.loaded n)
        rdN := con.loaded n
        rdPos := con.loaded n
        uart := con.uart ++ con.after ++ (List.replicate con.rdN [8,ascii ' ',8]).flatten ++ read s 0 (con.loaded n) } := by
  have bound : unsigned (con.rdMax + 2 ^ 32 - 1) = con.rdMax - 1 := by
    have := inside.room
    have := inside.buffer
    unfold unsigned
    omega
  rw [setLine,goEndIs inside.pos,eraseLineIs]
  simp only [bound,echo,uartPuts,Nat.add_zero,Nat.sub_zero]
  rw [← loaded,copyRead]

/- The history and the parked line stay. -/
structure Stored (con con' : Console) : Prop where
  hist : con'.hist = con.hist
  lengths : con'.histLen = con.histLen
  count : con'.hCount = con.hCount
  next : con'.hNext = con.hNext
  nav : con'.hNav = con.hNav
  saved : con'.hSaved = con.hSaved
  savedN : con'.hSavedN = con.hSavedN

/- Only the line and the cursor changed: `left` stands before the cursor, `right` after it. -/
structure Retyped (con con' : Console) (left right : List Byte) : Prop where
  framed : Framed con con'
  stored : Stored con con'
  inside : Inside con'
  before : con'.before = left
  after : con'.after = right

variable {con' : Console} {left right : List Byte}

theorem Retyped.of (inside : Inside con) (framed : Framed con con') (stored : Stored con con') (room : con'.rdN < con.rdMax)
    (whole : read con'.memory con'.rdBuf con'.rdN = left ++ right) (length : left.length = con'.rdPos) :
    Retyped con con' left right := by
  have total : con'.rdN = left.length + right.length := by
    have lengths := congrArg List.length whole
    rwa [readLength,List.length_append] at lengths
  have inside' : Inside con' :=
    { pos := by omega
      room := by rwa [framed.max]
      buffer := by rw [framed.max]; exact inside.buffer
      count := by rw [stored.count]; exact inside.count
      next := by rw [stored.next]; exact inside.next
      nav := by rw [stored.nav,stored.count]; exact inside.nav }
  rw [lineRead inside'] at whole
  obtain ⟨before,after⟩ := List.append_inj whole (beforeLength.trans length.symm)
  exact ⟨framed,stored,inside',before,after⟩

theorem Retyped.text (retyped : Retyped con con' left right) :
    con'.textOf = { con.textOf with left := left.reverse, right := right } := by
  obtain ⟨_,⟨hist,lengths,count,next,nav,saved,savedN⟩,_,before,after⟩ := retyped
  simp only [textOf,entry,slot,before,after,hist,lengths,count,next,nav,saved,savedN]

theorem lengths (inside : Inside con) : con.before.length + con.after.length = con.rdN := by
  rw [beforeLength,afterLength]
  exact Nat.add_sub_cancel' inside.pos

theorem insCharRetyped (inside : Inside con) (free : con.rdN + 1 < con.rdMax) :
    Retyped con (con.insChar c) (con.before ++ [c]) con.after := by
  rw [insCharIs inside free]
  refine .of inside ⟨rfl,rfl,rfl,rfl,rfl,rfl,rfl,rfl,rfl⟩ ⟨rfl,rfl,rfl,rfl,rfl,rfl,rfl⟩ free ?_ ?_
  · exact (insertRead _ _ _ inside.pos).trans (List.append_cons _ _ _)
  · rw [List.length_append,beforeLength]
    rfl

theorem delLeftRetyped (inside : Inside con) (shape : con.before = left ++ [c]) : Retyped con con.delLeft left con.after := by
  have pos : left.length + 1 = con.rdPos := by
    have lengths := congrArg List.length shape
    rw [beforeLength,List.length_append] at lengths
    exact lengths.symm
  have bound := inside.pos
  have room := inside.room
  have cells : con.rdN - 1 - (con.rdPos - 1) = con.rdN - con.rdPos := by omega
  have next : con.rdBuf + (con.rdPos - 1) + 1 = con.rdBuf + con.rdPos := by omega
  have kept : read con.memory con.rdBuf (con.rdPos - 1) = left := by
    have whole : con.before = read con.memory con.rdBuf (con.rdPos - 1) ++ [con.memory (con.rdBuf + (con.rdPos - 1))] := by
      rw [← readLast,Nat.sub_add_cancel (by omega)]
      rfl
    exact (List.append_inj' (whole.symm.trans shape) rfl).1
  rw [delLeftIs inside (by omega)]
  refine .of inside ⟨rfl,rfl,rfl,rfl,rfl,rfl,rfl,rfl,rfl⟩ ⟨rfl,rfl,rfl,rfl,rfl,rfl,rfl⟩ (by simp only; omega) ?_ (by simp only; omega)
  have closed := deleteRead con.memory con.rdBuf (by omega : con.rdPos - 1 < con.rdN)
  rw [cells,next,kept] at closed
  exact closed

theorem delAtRetyped (inside : Inside con) (shape : con.after = c :: right) : Retyped con con.delAt con.before right := by
  have later : con.rdN - con.rdPos = right.length + 1 := by
    rw [← afterLength,shape]
    rfl
  have room := inside.room
  have cells : con.rdN - 1 - con.rdPos = right.length := by omega
  have rest : read con.memory (con.rdBuf + con.rdPos + 1) right.length = right := by
    rw [Console.after,later,readCons] at shape
    exact (List.cons.inj shape).2
  rw [delAtIs (by omega)]
  refine .of inside ⟨rfl,rfl,rfl,rfl,rfl,rfl,rfl,rfl,rfl⟩ ⟨rfl,rfl,rfl,rfl,rfl,rfl,rfl⟩ (by simp only; omega) ?_ beforeLength
  have closed := deleteRead con.memory con.rdBuf (by omega : con.rdPos < con.rdN)
  rw [cells,rest] at closed
  rw [cells]
  exact closed

theorem goLeftRetyped (inside : Inside con) (shape : con.before = left ++ [c]) : Retyped con con.goLeft left (c :: con.after) := by
  have pos : left.length + 1 = con.rdPos := by
    have lengths := congrArg List.length shape
    rw [beforeLength,List.length_append] at lengths
    exact lengths.symm
  have whole := lineRead inside
  rw [shape,List.append_assoc] at whole
  rw [goLeft,if_pos (by omega)]
  exact .of inside ⟨rfl,rfl,rfl,rfl,rfl,rfl,rfl,rfl,rfl⟩ ⟨rfl,rfl,rfl,rfl,rfl,rfl,rfl⟩ inside.room whole
    (Nat.eq_sub_of_add_eq pos)

theorem goRightRetyped (inside : Inside con) (shape : con.after = c :: right) : Retyped con con.goRight (con.before ++ [c]) right := by
  have later : con.rdN - con.rdPos = right.length + 1 := by
    rw [← afterLength,shape]
    rfl
  have whole := lineRead inside
  rw [shape,List.append_cons] at whole
  rw [goRight,if_pos (by omega)]
  refine .of inside ⟨rfl,rfl,rfl,rfl,rfl,rfl,rfl,rfl,rfl⟩ ⟨rfl,rfl,rfl,rfl,rfl,rfl,rfl⟩ inside.room whole ?_
  rw [List.length_append,beforeLength]
  rfl

theorem goHomeRetyped (inside : Inside con) : Retyped con con.goHome [] (con.before ++ con.after) := by
  rw [goHomeIs]
  exact .of inside ⟨rfl,rfl,rfl,rfl,rfl,rfl,rfl,rfl,rfl⟩ ⟨rfl,rfl,rfl,rfl,rfl,rfl,rfl⟩ inside.room (lineRead inside) rfl

theorem goEndRetyped (inside : Inside con) : Retyped con con.goEnd (con.before ++ con.after) [] := by
  have whole := lineRead inside
  rw [← List.append_nil (con.before ++ con.after)] at whole
  rw [goEndIs inside.pos]
  refine .of inside ⟨rfl,rfl,rfl,rfl,rfl,rfl,rfl,rfl,rfl⟩ ⟨rfl,rfl,rfl,rfl,rfl,rfl,rfl⟩ inside.room whole ?_
  rw [List.length_append]
  exact lengths inside

theorem killLineRetyped (inside : Inside con) : Retyped con con.killLine [] [] := by
  rw [killLine,goEndIs inside.pos,eraseLineIs]
  exact .of inside ⟨rfl,rfl,rfl,rfl,rfl,rfl,rfl,rfl,rfl⟩ ⟨rfl,rfl,rfl,rfl,rfl,rfl,rfl⟩ (Nat.zero_lt_of_lt inside.room) rfl rfl

theorem loadedBound (inside : Inside con) (n : Nat) : con.loaded n < con.rdMax := by
  have := inside.room
  unfold loaded
  split <;> omega

theorem setLineRetyped (inside : Inside con) (s : Buffer Byte) (n : Nat) : Retyped con (con.setLine s n) (read s 0 (con.loaded n)) [] := by
  rw [setLineIs inside]
  refine .of inside ⟨rfl,rfl,rfl,rfl,rfl,rfl,rfl,rfl,rfl⟩ ⟨rfl,rfl,rfl,rfl,rfl,rfl,rfl⟩ (loadedBound inside n) ?_ readLength
  rw [List.append_nil]
  exact copyRead

theorem loadedText (fits : con.rdMax = room + 1) (s : Buffer Byte) (n : Nat) : read s 0 (con.loaded n) = (read s 0 n).take room := by
  rw [readTake]
  congr 1
  unfold loaded
  split <;> omega

/- `h_saved` as `hist_nav` leaves it when it goes to an older line. -/
def park (con : Console) : Console := if con.hNav = 0 then con.parkLine else con

theorem histNavStays (last : ¬ con.hNav < con.hCount) : con.histNav (-1) = con := by
  refine if_pos (.inr ?_)
  rw [if_pos (by decide)]
  omega

theorem histNavLive (live : con.hNav = 0) : con.histNav 1 = con := by
  refine if_pos (.inl ?_)
  rw [if_neg (by decide)]
  omega

theorem histNavOlder (more : con.hNav < con.hCount) :
    con.histNav (-1) = { con.park with hNav := con.hNav + 1 }.setLine (con.hist (con.slot (con.hNav + 1))) (con.histLen (con.slot (con.hNav + 1))) := by
  have up : (con.hNav : Int) + (if (-1 : Int) < 0 then 1 else -1) = ((con.hNav + 1 : Nat) : Int) := by simp
  have inside : ¬ (((con.hNav + 1 : Nat) : Int) < 0 ∨ ((con.hNav + 1 : Nat) : Int) > con.hCount) := by omega
  have older : ((con.hNav + 1 : Nat) : Int) > 0 := by omega
  have entry : ¬ ((con.hNav + 1 : Nat) : Int) = 0 := by omega
  simp only [histNav,up,if_neg inside,if_neg entry,Int.toNat_natCast,and_iff_left older]
  unfold park slot
  split <;> rfl

theorem histNavNewest (first : con.hNav = 1) :
    con.histNav 1 = { con with hNav := 0 }.setLine con.hSaved con.hSavedN := by
  have down : (con.hNav : Int) + (if (1 : Int) < 0 then 1 else -1) = 0 := by rw [first]; rfl
  have bound : ¬ ((0 : Int) < 0 ∨ (0 : Int) > con.hCount) := by omega
  have browsing : ¬ (con.hNav = 0 ∧ (0 : Int) > 0) := by omega
  simp only [histNav,down,if_neg bound,if_neg browsing,if_pos,Int.toNat_zero]

theorem histNavNewer (inside : Inside con) {depth : Nat} (deep : con.hNav = depth + 2) :
    con.histNav 1 = { con with hNav := depth + 1 }.setLine (con.hist (con.slot (depth + 1))) (con.histLen (con.slot (depth + 1))) := by
  have nav := inside.nav
  have down : (con.hNav : Int) + (if (1 : Int) < 0 then 1 else -1) = ((depth + 1 : Nat) : Int) := by rw [deep]; simp; omega
  have bound : ¬ (((depth + 1 : Nat) : Int) < 0 ∨ ((depth + 1 : Nat) : Int) > con.hCount) := by omega
  have browsing : ¬ (con.hNav = 0 ∧ ((depth + 1 : Nat) : Int) > 0) := by omega
  have entry : ¬ ((depth + 1 : Nat) : Int) = 0 := by omega
  simp only [histNav,down,if_neg bound,if_neg browsing,if_neg entry,Int.toNat_natCast]
  rfl

/- What an editing function does, seen from the pure editor. -/
structure Performed (con con' : Console) (text : LineText) : Prop where
  framed : Framed con con'
  inside : Inside con'
  text : con'.textOf = text

theorem Retyped.performed (retyped : Retyped con con' left right) :
    Performed con con' { con.textOf with left := left.reverse, right := right } :=
  ⟨retyped.framed,retyped.inside,retyped.text⟩

theorem Performed.refl (inside : Inside con) : Performed con con con.textOf := ⟨Framed.refl,inside,rfl⟩

theorem historyGet (nav : Nat) : con.textOf.history[nav]? = if nav < con.hCount then some (con.entry (nav + 1)) else none := by
  simp only [textOf,List.getElem?_map]
  split
  · rename_i low
    rw [List.getElem?_range low]
    rfl
  · rename_i high
    rw [List.getElem?_eq_none (by rw [List.length_range]; omega)]
    rfl

theorem lineOf (inside : Inside con) : con.textOf.line = read con.memory con.rdBuf con.rdN := by
  rw [lineRead inside,LineText.line]
  simp only [textOf,List.reverse_reverse]

/- `con'` differs from `con` in `h_nav`, and maybe in `h_saved`. -/
structure Browsed (con con' : Console) : Prop where
  framed : Framed con con'
  hist : con'.hist = con.hist
  histLen : con'.histLen = con.histLen
  count : con'.hCount = con.hCount
  next : con'.hNext = con.hNext
  memory : con'.memory = con.memory
  n : con'.rdN = con.rdN
  pos : con'.rdPos = con.rdPos
  uart : con'.uart = con.uart

theorem Browsed.inside (browsed : Browsed con con') (inside : Inside con) (nav : con'.hNav ≤ con.hCount) : Inside con' where
  pos := by rw [browsed.n,browsed.pos]; exact inside.pos
  room := by rw [browsed.n,browsed.framed.max]; exact inside.room
  buffer := by rw [browsed.framed.max]; exact inside.buffer
  count := by rw [browsed.count]; exact inside.count
  next := by rw [browsed.next]; exact inside.next
  nav := by rwa [browsed.count]

theorem Browsed.text (browsed : Browsed con con') : con'.before = con.before ∧ con'.after = con.after := by
  obtain ⟨framed,_,_,_,_,memory,n,pos,_⟩ := browsed
  rw [before,after,memory,framed.buf,pos,n]
  exact ⟨rfl,rfl⟩

theorem setLinePerformed (inside : Inside con) (browsed : Browsed con con') (nav : con'.hNav ≤ con.hCount) (fits : con.rdMax = room + 1)
    (s : Buffer Byte) (n : Nat) :
    Performed con (con'.setLine s n)
      ({ con.textOf with depth := con'.hNav, parked := read con'.hSaved 0 con'.hSavedN }.load room (read s 0 n)) := by
  have retyped := setLineRetyped (browsed.inside inside nav) s n
  obtain ⟨framed,hist,lengths,count,next,_,_,_,_⟩ := browsed
  refine ⟨framed.trans retyped.framed,retyped.inside,?_⟩
  rw [retyped.text,loadedText (framed.max.trans fits)]
  simp only [textOf,entry,slot,LineText.load,hist,lengths,count,next]

theorem parkBrowsed (nav : Nat) : Browsed con { con.park with hNav := nav } := by
  unfold park
  split <;> exact ⟨⟨rfl,rfl,rfl,rfl,rfl,rfl,rfl,rfl,rfl⟩,rfl,rfl,rfl,rfl,rfl,rfl,rfl,rfl⟩

theorem navBrowsed (nav : Nat) : Browsed con { con with hNav := nav } :=
  ⟨⟨rfl,rfl,rfl,rfl,rfl,rfl,rfl,rfl,rfl⟩,rfl,rfl,rfl,rfl,rfl,rfl,rfl,rfl⟩

/- To an older entry, with whatever was parked. -/
theorem olderMoves (inside : Inside con) (fits : con.rdMax = room + 1) (more : con.hNav < con.hCount) :
    Performed con (con.histNav (-1))
      ({ con.textOf with depth := con.hNav + 1, parked := read con.park.hSaved 0 con.park.hSavedN }.load room (con.entry (con.hNav + 1))) := by
  rw [histNavOlder more]
  exact setLinePerformed inside (parkBrowsed (con.hNav + 1)) more fits _ _

theorem olderPerformed (inside : Inside con) (fits : con.rdMax = room + 1) (small : con.rdMax ≤ 128) :
    Performed con (con.histNav (-1)) (con.textOf.older room) := by
  by_cases more : con.hNav < con.hCount
  · have found : con.textOf.history[con.textOf.depth]? = some (con.entry (con.hNav + 1)) := (historyGet _).trans (if_pos more)
    have parked : read con.park.hSaved 0 con.park.hSavedN = if con.hNav = 0 then con.textOf.line else con.textOf.parked := by
      unfold park
      split
      · have whole : con.rdN < 128 := by
          have := inside.room
          omega
        simp only [parkLine,if_pos whole]
        rw [copyRead,lineOf inside]
      · rfl
    have done := olderMoves inside fits more
    rw [parked] at done
    rw [LineText.older,found]
    exact done
  · have missing : con.textOf.history[con.textOf.depth]? = none := (historyGet _).trans (if_neg more)
    rw [histNavStays more,LineText.older,missing]
    exact .refl inside

theorem newerPerformed (inside : Inside con) (fits : con.rdMax = room + 1) : Performed con (con.histNav 1) (con.textOf.newer room) := by
  have bound := inside.nav
  rcases depth : con.hNav with _ | _ | deeper
  · have live : con.textOf.depth = 0 := depth
    rw [histNavLive depth,LineText.newer,live]
    exact .refl inside
  · have first : con.textOf.depth = 1 := depth
    rw [histNavNewest depth,LineText.newer,first]
    exact setLinePerformed inside (navBrowsed 0) (Nat.zero_le _) fits con.hSaved con.hSavedN
  · have further : con.textOf.depth = deeper + 2 := depth
    have found : con.textOf.history.getD deeper [] = con.entry (deeper + 1) := by
      rw [List.getD_eq_getElem?_getD,historyGet,if_pos (by omega)]
      rfl
    rw [histNavNewer inside depth,LineText.newer,further]
    simp only [found]
    exact setLinePerformed inside (navBrowsed (deeper + 1)) (by simp only; omega) fits _ _

theorem insertPerformed (inside : Inside con) (fits : con.rdMax = room + 1) : Performed con (con.insChar c) (con.textOf.apply room (.insert c)) := by
  have total : con.textOf.left.length + con.textOf.right.length = con.rdN := by
    rw [← lengths inside]
    simp only [textOf,List.length_reverse]
  rw [LineText.apply,total]
  split
  · have done := (insCharRetyped inside (by omega) (c := c)).performed
    rw [List.reverse_append] at done
    exact done
  · rw [insCharFull inside (by omega)]
    exact .refl inside

theorem deleteLeftPerformed (inside : Inside con) : Performed con con.delLeft (con.textOf.apply room .deleteLeft) := by
  rcases List.eq_nil_or_concat con.before with none | ⟨left,c,shape⟩
  · have start : con.rdPos = 0 := by rw [← beforeLength,none]; rfl
    rw [delLeftStart start]
    refine ⟨Framed.refl,inside,?_⟩
    simp only [LineText.apply,textOf,none,List.reverse_nil,List.tail_nil]
  · rw [List.concat_eq_append] at shape
    have done := (delLeftRetyped inside shape).performed
    simp only [LineText.apply]
    simp only [textOf,shape,List.reverse_append,List.reverse_singleton,List.singleton_append,List.tail_cons] at done ⊢
    exact done

theorem deleteAtPerformed (inside : Inside con) : Performed con con.delAt (con.textOf.apply room .deleteAt) := by
  rcases shape : con.after with _ | ⟨c,right⟩
  · have last : con.rdPos ≥ con.rdN := by
      have none := con.afterLength
      rw [shape,List.length_nil] at none
      omega
    rw [delAtEnd last]
    refine ⟨Framed.refl,inside,?_⟩
    simp only [LineText.apply,textOf,shape,List.tail_nil]
  · have done := (delAtRetyped inside shape).performed
    simp only [LineText.apply]
    simp only [textOf,shape,List.tail_cons] at done ⊢
    exact done

theorem leftPerformed (inside : Inside con) : Performed con con.goLeft (con.textOf.apply room .left) := by
  rcases List.eq_nil_or_concat con.before with none | ⟨left,c,shape⟩
  · have start : con.rdPos = 0 := by rw [← beforeLength,none]; rfl
    have first : con.textOf.left = [] := by rw [textOf,none]; rfl
    rw [goLeft,if_neg (by omega),LineText.apply,first]
    exact .refl inside
  · rw [List.concat_eq_append] at shape
    have some : con.textOf.left = c :: left.reverse := by simp only [textOf,shape,List.reverse_append]; rfl
    rw [LineText.apply,some]
    exact (goLeftRetyped inside shape).performed

theorem rightPerformed (inside : Inside con) : Performed con con.goRight (con.textOf.apply room .right) := by
  rcases shape : con.after with _ | ⟨c,right⟩
  · have last : con.rdPos ≥ con.rdN := by
      have none := con.afterLength
      rw [shape,List.length_nil] at none
      omega
    have none : con.textOf.right = [] := shape
    rw [goRight,if_neg (by omega),LineText.apply,none]
    exact .refl inside
  · have some : con.textOf.right = c :: right := shape
    have done := (goRightRetyped inside shape).performed
    rw [List.reverse_append] at done
    rw [LineText.apply,some]
    exact done

def perform (con : Console) : LineCommand → Console
  | .insert c => con.insChar c
  | .deleteLeft => con.delLeft
  | .deleteAt => con.delAt
  | .left => con.goLeft
  | .right => con.goRight
  | .home => con.goHome
  | .toEnd => con.goEnd
  | .kill => con.killLine
  | .older => con.histNav (-1)
  | .newer => con.histNav 1
  | .nothing => con

theorem performs (inside : Inside con) (fits : con.rdMax = room + 1) (k : LineCommand) (small : k = .older → con.rdMax ≤ 128) :
    Performed con (con.perform k) (con.textOf.apply room k) := by
  cases k with
  | insert c => exact insertPerformed inside fits
  | deleteLeft => exact deleteLeftPerformed inside
  | deleteAt => exact deleteAtPerformed inside
  | left => exact leftPerformed inside
  | right => exact rightPerformed inside
  | home =>
    have done := (goHomeRetyped inside).performed
    rwa [← lineRead inside,← lineOf inside] at done
  | toEnd =>
    have done := (goEndRetyped inside).performed
    rwa [← lineRead inside,← lineOf inside] at done
  | kill => exact (killLineRetyped inside).performed
  | older => exact olderPerformed inside fits (small rfl)
  | newer => exact newerPerformed inside fits
  | nothing => exact .refl inside

/- In a buffer of any size. -/
theorem performsInside (inside : Inside con) (k : LineCommand) : ∃ text, Performed con (con.perform k) text := by
  have fits : con.rdMax = con.rdMax - 1 + 1 := (Nat.sub_add_cancel (Nat.one_le_of_lt inside.room)).symm
  by_cases older : k = .older
  · subst older
    by_cases more : con.hNav < con.hCount
    · exact ⟨_,olderMoves inside fits more⟩
    · rw [perform,histNavStays more]
      exact ⟨_,.refl inside⟩
  · exact ⟨_,performs inside fits k (absurd · older)⟩

theorem slotPushed (next : con.hNext < 16) {k : Nat} (low : k < 16) :
    ((con.hNext + 1) % 16 + 16 - (k + 1)) % 16 = if k = 0 then con.hNext else con.slot k := by
  unfold slot
  split <;> omega

theorem slotOther (next : con.hNext < 16) {k : Nat} (low : k < 16) (positive : k ≠ 0) : con.slot k ≠ con.hNext := by
  unfold slot
  omega

/- The line goes in front of the entries, of which the 16th drops out. -/
theorem historyPushed (count : con.hCount ≤ 16) (next : con.hNext < 16) (stored : Buffer Byte) (n : Nat) :
    { con with
      hist := Function.update con.hist con.hNext stored
      histLen := Function.update con.histLen con.hNext n
      hNext := (con.hNext + 1) % 16
      hCount := if con.hCount < 16 then con.hCount + 1 else con.hCount }.textOf.history =
    (read stored 0 n :: con.textOf.history).take 16 := by
  apply List.ext_getElem?
  intro k
  rw [historyGet]
  rcases Nat.lt_or_ge k 16 with low | high
  · rw [List.getElem?_take_of_lt low]
    cases k with
    | zero =>
      rw [if_pos (by simp only; split <;> omega)]
      simp only [entry,slot,List.getElem?_cons_zero,slotPushed next low,if_pos,Function.update_self]
    | succ k =>
      have other := slotOther next low (Nat.succ_ne_zero k)
      have again : { con with
          hist := Function.update con.hist con.hNext stored
          histLen := Function.update con.histLen con.hNext n
          hNext := (con.hNext + 1) % 16
          hCount := if con.hCount < 16 then con.hCount + 1 else con.hCount }.entry (k + 1 + 1) = con.entry (k + 1) := by
        have place := slotPushed next low
        rw [if_neg (Nat.succ_ne_zero k)] at place
        simp only [entry,slot] at place other ⊢
        rw [place,Function.update_of_ne other,Function.update_of_ne other]
      rw [again,List.getElem?_cons_succ,historyGet]
      have bound : k + 1 < (if con.hCount < 16 then con.hCount + 1 else con.hCount) ↔ k < con.hCount := by
        split <;> omega
      simp only [bound]
  · rw [List.getElem?_take_eq_none high]
    exact if_neg (by simp only; split <;> omega)

theorem newestIs (con : Console) (s n : Nat) :
    con.textOf.history.head? = some (read con.memory s n) ↔ con.hCount ≠ 0 ∧
      con.histLen ((con.hNext + 16 - 1) % 16) = n ∧ ∀ i < n, con.hist ((con.hNext + 16 - 1) % 16) i = con.memory (s + i) := by
  rw [List.head?_eq_getElem?,historyGet]
  split
  · rename_i stored
    rw [Option.some.injEq,entry,readSame]
    simp only [slot,Nat.zero_add]
    constructor
    · intro ⟨length,same⟩
      exact ⟨by omega,length,length ▸ same⟩
    · intro ⟨_,length,same⟩
      exact ⟨length,length ▸ same⟩
  · rename_i empty
    constructor
    · intro impossible
      cases impossible
    · intro ⟨stored,_⟩
      omega

theorem histPushInside (inside : Inside con) (s n : Nat) : Framed con (con.histPush s n) ∧ Inside (con.histPush s n) ∧
    (con.histPush s n).memory = con.memory ∧ (con.histPush s n).rdN = con.rdN := by
  have nav := inside.nav
  have count := inside.count
  unfold histPush
  split
  · exact ⟨.refl,inside,rfl,rfl⟩
  · simp only
    split
    · exact ⟨.refl,inside,rfl,rfl⟩
    · refine ⟨⟨rfl,rfl,rfl,rfl,rfl,rfl,rfl,rfl,rfl⟩,?_,rfl,rfl⟩
      exact ⟨inside.pos,inside.room,inside.buffer,by simp only; split <;> omega,Nat.mod_lt _ (by decide),by simp only; split <;> omega⟩

/- `hist_push` of the line that is edited. -/
theorem histPushText (inside : Inside con) (small : con.rdMax ≤ 128) : (con.histPush con.rdBuf con.rdN).textOf = con.textOf.remember := by
  have room := inside.room
  have line := lineOf inside
  rcases Nat.eq_zero_or_pos con.rdN with empty | some
  · have none : con.textOf.line = [] := by rw [line,empty,readNil]
    rw [histPush,if_pos empty,LineText.remember,if_pos (.inl none)]
  · have nonempty : con.textOf.line ≠ [] := by
      rw [line]
      exact List.ne_nil_of_length_pos (by rwa [readLength])
    have same := con.newestIs con.rdBuf con.rdN
    rw [← line] at same
    rw [histPush,if_neg (by omega),LineText.remember]
    by_cases newest : con.textOf.history.head? = Option.some con.textOf.line
    · simp only [if_pos (same.mp newest)]
      rw [if_pos (.inr newest)]
    · have whole : ¬ con.rdN ≥ 128 := by omega
      simp only [if_neg (mt same.mpr newest),if_neg whole]
      rw [if_neg (not_or.mpr ⟨nonempty,newest⟩)]
      have pushed := historyPushed inside.count inside.next (copy (con.hist con.hNext) 0 con.memory con.rdBuf con.rdN) con.rdN
      rw [copyRead,← line] at pushed
      rw [← pushed]
      rfl

/- The reply that carries a line. -/
def lineReply (sender : Int) (line : List Byte) : LineReply := ⟨sender,line.length,line ++ [0]⟩

/- The state in which `finish_line` calls `hist_push`. -/
def terminated (con : Console) : Console :=
  { con with uart := con.uart ++ [10], memory := con.memory.set (con.rdBuf + con.rdN) 0 }

theorem finishLineIs (con : Console) : con.finishLine =
    let pushed := con.terminated.histPush con.rdBuf con.rdN
    { pushed with
      rdActive := false
      lines := pushed.lines ++ [⟨pushed.rdFrom,pushed.rdN,read pushed.memory pushed.rdBuf (pushed.rdN + 1)⟩] } := rfl

theorem terminatedRetyped (inside : Inside con) : Retyped con con.terminated con.before con.after := by
  refine .of inside ⟨rfl,rfl,rfl,rfl,rfl,rfl,rfl,rfl,rfl⟩ ⟨rfl,rfl,rfl,rfl,rfl,rfl,rfl⟩ inside.room ?_ beforeLength
  rw [← lineRead inside]
  exact readCongr fun i _ high => setOther (Nat.ne_of_lt high)

/- What typing a byte does to the driver, beside what it does to the editor. -/
structure Typed (con con' : Console) (answer : Option (List Byte)) : Prop where
  inside : Inside con'
  ring : con'.ring = con.ring
  sender : con'.rdFrom = con.rdFrom
  buf : con'.rdBuf = con.rdBuf
  max : con'.rdMax = con.rdMax
  active : con'.rdActive = (con.rdActive && answer.isNone)
  lines : con'.lines = con.lines ++ (answer.map (lineReply con.rdFrom)).toList

theorem Performed.typed {text : LineText} (performed : Performed con con' text) : Typed con con' none := by
  obtain ⟨framed,inside,_⟩ := performed
  exact ⟨inside,framed.ring,framed.sender,framed.buf,framed.max,framed.active.trans (Bool.and_true _).symm,
    framed.lines.trans (List.append_nil _).symm⟩

theorem finishedTyped (inside : Inside con) : Typed con con.finishLine (some con.textOf.line) := by
  have ended := terminatedRetyped inside
  have pushed : Framed con.terminated (con.terminated.histPush con.rdBuf con.rdN) ∧ Inside (con.terminated.histPush con.rdBuf con.rdN) ∧
      (con.terminated.histPush con.rdBuf con.rdN).memory = con.terminated.memory ∧ (con.terminated.histPush con.rdBuf con.rdN).rdN = con.rdN :=
    histPushInside ended.inside _ _
  obtain ⟨framed,kept,memory,n⟩ := pushed
  have line : read con.terminated.memory con.rdBuf con.rdN = con.textOf.line := by
    rw [lineOf inside]
    exact readCongr fun i _ high => setOther (by omega)
  have length : con.textOf.line.length = con.rdN := by rw [lineOf inside,readLength]
  have nul : con.terminated.memory (con.rdBuf + con.rdN) = 0 := setSame
  have buffer : read con.terminated.memory con.rdBuf (con.rdN + 1) = con.textOf.line ++ [0] := by
    rw [readLast,line,nul]
  rw [finishLineIs]
  refine ⟨⟨kept.pos,kept.room,kept.buffer,kept.count,kept.next,kept.nav⟩,framed.ring,framed.sender,framed.buf,framed.max,
    (Bool.and_false _).symm,?_⟩
  dsimp only
  rw [memory,n,framed.lines,framed.sender,framed.buf]
  change con.lines ++ [⟨con.rdFrom,con.rdN,read con.terminated.memory con.rdBuf (con.rdN + 1)⟩] = _
  rw [buffer,← length]
  rfl

theorem finishedEsc (inside : Inside con) : con.finishLine.esc = con.esc :=
  (histPushInside (terminatedRetyped inside).inside con.rdBuf con.rdN).1.esc

theorem finishedText (inside : Inside con) (small : con.rdMax ≤ 128) : con.finishLine.textOf = con.textOf.remember := by
  have ended := terminatedRetyped inside
  have pushed : (con.terminated.histPush con.rdBuf con.rdN).textOf = con.terminated.textOf.remember := histPushText ended.inside small
  rw [finishLineIs]
  exact pushed.trans (congrArg LineText.remember ended.text)

/- The state in which `Ctrl-C` calls `finish_line`. -/
def emptied (con : Console) : Console := { con.uartPuts (asciiText "^C\n") with rdN := 0, rdPos := 0 }

theorem emptiedRetyped (inside : Inside con) : Retyped con con.emptied [] [] :=
  .of inside ⟨rfl,rfl,rfl,rfl,rfl,rfl,rfl,rfl,rfl⟩ ⟨rfl,rfl,rfl,rfl,rfl,rfl,rfl⟩ (Nat.zero_lt_of_lt inside.room) rfl rfl

theorem cancelledTyped (inside : Inside con) : Typed con con.cancelLine (some []) := by
  have emptied := emptiedRetyped inside
  have typed := finishedTyped emptied.inside
  rw [emptied.text] at typed
  exact ⟨typed.inside,typed.ring,typed.sender,typed.buf,typed.max,typed.active,typed.lines⟩

theorem cancelledText (inside : Inside con) (small : con.rdMax ≤ 128) :
    con.cancelLine.textOf = { con.textOf with left := [], right := [] } := by
  have emptied := emptiedRetyped inside
  have text := finishedText emptied.inside small
  rw [emptied.text] at text
  exact text

theorem normalKeyIs (c : Byte) : con.normalKey c =
    match LineKey.ofByte c with
    | .command k => con.perform k
    | .escape => { con with esc := .sawEsc }
    | .accept => con.finishLine
    | .cancel => con.cancelLine := by
  let act : LineKey → Console
    | .command k => con.perform k
    | .escape => { con with esc := .sawEsc }
    | .accept => con.finishLine
    | .cancel => con.cancelLine
  change con.normalKey c = act (LineKey.ofByte c)
  unfold normalKey LineKey.ofByte
  simp only [apply_ite act]
  rfl

theorem csiFinalIs (c : Byte) : con.csiFinal c = con.perform (.ofCsi con.csiNum.toNat c) := by
  have number (n : BitVec 32) : con.csiNum.toNat = n.toNat ↔ con.csiNum = n := BitVec.toNat_inj
  have three : con.csiNum.toNat = 3 ↔ con.csiNum = 3 := number 3
  have one : con.csiNum.toNat = 1 ↔ con.csiNum = 1 := number 1
  have seven : con.csiNum.toNat = 7 ↔ con.csiNum = 7 := number 7
  have four : con.csiNum.toNat = 4 ↔ con.csiNum = 4 := number 4
  have eight : con.csiNum.toNat = 8 ↔ con.csiNum = 8 := number 8
  unfold csiFinal LineCommand.ofCsi tilde
  simp only [three,one,seven,four,eight,apply_ite con.perform]
  rfl

/- The parser, as `esc` and `csi_num` hold it. -/
def Parses (con : Console) : LineParser → Prop
  | .ground => con.esc = .normal
  | .escape => con.esc = .sawEsc
  | .csi digits number => con.esc = .inCsi ∧ con.csiNum.toNat = number ∧ number < 10 ^ digits ∧ digits ≤ 9

structure Matches (con : Console) (ed : LineEditor) : Prop where
  text : con.textOf = ed.text
  parses : Parses con ed.parser

theorem digitIs {number digits : Nat} (value : con.csiNum.toNat = number) (short : number < 10 ^ digits) (few : digits < 9)
    (low : ascii '0' ≤ c) (high : c ≤ ascii '9') :
    (con.csiNum * 10 + (c.setWidth 32 - 48)).toNat = number * 10 + (c.toNat - 48) ∧ number * 10 + (c.toNat - 48) < 10 ^ (digits + 1) := by
  have least : 48 ≤ c.toNat := low
  have most : c.toNat ≤ 57 := high
  have bound : 10 ^ digits ≤ 10 ^ 8 := Nat.pow_le_pow_right (by decide) (by omega)
  have width : (c.setWidth 32).toNat = c.toNat := by
    rw [BitVec.toNat_setWidth]
    exact Nat.mod_eq_of_lt (by omega)
  have digit : (c.setWidth 32 - 48).toNat = c.toNat - 48 := by
    rw [BitVec.toNat_sub_of_le (BitVec.le_def.mpr (by rw [width]; exact least)),width]
    rfl
  constructor
  · rw [BitVec.toNat_add,BitVec.toNat_mul,value,digit]
    have ten : (10 : BitVec 32).toNat = 10 := rfl
    rw [ten,Nat.mod_eq_of_lt (by omega : number * 10 < 2 ^ 32),Nat.mod_eq_of_lt (by omega)]
  · rw [Nat.pow_succ]
    omega

theorem escTyped (inside : Inside con) (esc : Esc) (num : BitVec 32) : Typed con { con with esc := esc, csiNum := num } none :=
  ⟨⟨inside.pos,inside.room,inside.buffer,inside.count,inside.next,inside.nav⟩,rfl,rfl,rfl,rfl,(Bool.and_true _).symm,
    (List.append_nil _).symm⟩

theorem Typed.grounded {answer : Option (List Byte)} (typed : Typed con con' answer) : Typed con { con' with esc := .normal } answer :=
  ⟨⟨typed.inside.pos,typed.inside.room,typed.inside.buffer,typed.inside.count,typed.inside.next,typed.inside.nav⟩,typed.ring,
    typed.sender,typed.buf,typed.max,typed.active,typed.lines⟩

/- Whatever the byte and the parser's state, in a buffer of any size. -/
theorem typesInside (inside : Inside con) (c : Byte) : ∃ answer, Typed con (con.editByte c) answer := by
  unfold editByte
  split
  · exact ⟨none,escTyped inside _ _⟩
  · unfold insideCsi
    split
    · exact ⟨none,escTyped inside _ _⟩
    · rw [csiFinalIs]
      obtain ⟨_,done⟩ := performsInside inside (.ofCsi con.csiNum.toNat c)
      exact ⟨none,done.typed.grounded⟩
  · rw [normalKeyIs]
    split
    · rename_i k _
      obtain ⟨_,done⟩ := performsInside inside k
      exact ⟨none,done.typed⟩
    · exact ⟨none,escTyped inside _ _⟩
    · exact ⟨_,finishedTyped inside⟩
    · exact ⟨_,cancelledTyped inside⟩

/- One byte: the driver's turn of the loop is the editor's. -/
theorem types (inside : Inside con) (fits : con.rdMax = room + 1) (small : con.rdMax ≤ 128) {ed : LineEditor}
    (same : Matches con ed) (short : (ed.type room c).1.overlong = false) :
    Typed con (con.editByte c) (ed.type room c).2 ∧ Matches (con.editByte c) (ed.type room c).1 := by
  obtain ⟨text,parses⟩ := same
  rcases parser : ed.parser with _ | _ | ⟨digits,number⟩
  · rw [parser] at parses
    have normal : con.esc = .normal := parses
    simp only [editByte,normal,LineEditor.type,parser,normalKeyIs] at short ⊢
    rcases LineKey.ofByte c with k | _ | _ | _
    · have done := performs inside fits k fun _ => small
      exact ⟨done.typed,done.text.trans (congrArg (·.apply room k) text),done.framed.esc.trans normal⟩
    · exact ⟨escTyped inside _ _,text,rfl⟩
    · rw [← text]
      exact ⟨finishedTyped inside,finishedText inside small,(finishedEsc inside).trans normal⟩
    · rw [← text]
      exact ⟨cancelledTyped inside,cancelledText inside small,(finishedEsc (emptiedRetyped inside).inside).trans normal⟩
  · rw [parser] at parses
    have escape : con.esc = .sawEsc := parses
    simp only [editByte,escape,LineEditor.type,parser,afterEsc] at short ⊢
    refine ⟨escTyped inside _ _,text,?_⟩
    split
    · exact ⟨rfl,rfl,Nat.one_pos,by decide⟩
    · exact rfl
  · rw [parser] at parses
    obtain ⟨csi,value,bound,few⟩ := parses
    simp only [editByte,csi,LineEditor.type,parser,insideCsi] at short ⊢
    split
    · rename_i digit
      rw [if_pos digit] at short
      have fewer : digits < 9 := by
        simp only [Bool.or_eq_false_iff,decide_eq_false_iff_not] at short
        omega
      obtain ⟨value',bound'⟩ := digitIs value bound fewer digit.1 digit.2
      exact ⟨escTyped inside _ _,text,rfl,value',bound',fewer⟩
    · have done := performs inside fits (.ofCsi number c) fun _ => small
      rw [csiFinalIs,value]
      exact ⟨done.typed.grounded,done.text.trans (congrArg (·.apply room (.ofCsi number c)) text),rfl⟩

end Console
end Mukern
