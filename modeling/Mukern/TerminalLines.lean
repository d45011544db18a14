import Mukern.SerialTiming

/-! The two terminals speak one line protocol. On printable characters, backspace and
newline the console driver's editor and the VGA terminal's do what a plain line does:
append at the end, take back from the end, reply. -/
namespace Mukern
open Buffers Transition TypeAhead

/- Printable, backspace or newline. -/
def Plain (c : Byte) : Prop := c = 8 ∨ c = 10 ∨ 0x20 ≤ c ∧ c ≤ 0x7e

instance (c : Byte) : Decidable (Plain c) := by unfold Plain; infer_instance

theorem plainShown {c : Byte} (shown : 0x20 ≤ c ∧ c ≤ 0x7e) : 0x20 ≤ c ∧ c < 0x7f := ⟨shown.1,by bv_omega⟩

/- `reader` is who waits for the line and the size of its buffer. -/
structure PlainTerminal where
  reader : Option (Int × Nat)
  typed : List Byte
  answers : List LineReply

namespace PlainTerminal

def key (term : PlainTerminal) (c : Byte) : PlainTerminal :=
  match term.reader with
  | none => term
  | some (sender,max) =>
    if c = 10 then { term with reader := none, answers := term.answers ++ [Console.lineReply sender term.typed] }
    else if c = 8 then { term with typed := term.typed.dropLast }
    else if term.typed.length + 1 < max then { term with typed := term.typed ++ [c] }
    else term

def discipline : Discipline PlainTerminal Byte (Int × Nat × Nat) where
  busy term := term.reader.isSome
  eat := key
  ask term request := { term with reader := some (request.1,unsigned request.2.2), typed := [] }

end PlainTerminal

theorem servesPlain {term : PlainTerminal} {queue : List Byte} (plain : ∀ c ∈ queue, Plain c) : ∀ c ∈ (PlainTerminal.discipline.serve term queue).2, Plain c :=
  fun c member => plain c (Discipline.serveMember member)

/- A line of at most `max - 1` bytes, in a buffer of `max`. -/
structure Fits (n max : Nat) : Prop where
  small : n ≤ max - 1
  word : max < 2 ^ 32

theorem Fits.room {n max : Nat} (fits : Fits n max) : unsigned (n + 1) < max ↔ n + 1 < max := by
  obtain ⟨small,word⟩ := fits
  rcases Nat.lt_or_ge (n + 1) (2 ^ 32) with low | high
  · rw [unsigned,Nat.mod_eq_of_lt low]
  · omega

namespace Console
variable {con : Console} {term : PlainTerminal}

/- The driver's line, when no escape sequence and no history is in play. -/
structure Plays (term : PlainTerminal) (con : Console) : Prop where
  lines : con.lines = term.answers
  reader : match term.reader with
    | none => con.rdActive = false
    | some (sender,max) => con.rdActive = true ∧ con.rdFrom = sender ∧ con.rdMax = max ∧ con.rdPos = con.rdN ∧ con.esc = .normal ∧
        Fits con.rdN max ∧ read con.memory con.rdBuf con.rdN = term.typed

theorem insertEnd (last : con.rdPos = con.rdN) (free : unsigned (con.rdN + 1) < con.rdMax) (c : Byte) : ∃ uart, con.insChar c =
    { con with memory := con.memory.set (con.rdBuf + con.rdN) c, rdN := con.rdN + 1, rdPos := con.rdN + 1, uart := uart } := by
  rw [insChar,if_neg (not_le.mpr free),last,Nat.sub_self]
  exact ⟨_,rfl⟩

theorem deleteEnd (last : con.rdPos = con.rdN) (later : con.rdN ≠ 0) : ∃ uart, con.delLeft =
    { con with rdN := con.rdN - 1, rdPos := con.rdN - 1, uart := uart } := by
  rw [delLeft,last,if_neg later]
  simp only [Nat.sub_self,shiftDown,redrawFrom,echo,backspaces,uartPutc,uartPuts]
  exact ⟨_,rfl⟩

theorem plainKey {c : Byte} (shown : 0x20 ≤ c ∧ c ≤ 0x7e) : LineKey.ofByte c = .command (.insert c) ∧ c ≠ 8 ∧ c ≠ 10 := by
  have other {b : Byte} (low : b < 0x20 ∨ 0x7e < b) : c ≠ b := by
    rintro rfl
    exact low.elim (BitVec.not_lt.mpr shown.1) (BitVec.not_lt.mpr shown.2)
  have neither {a b : Byte} (low : a < 0x20 ∨ 0x7e < a) (low' : b < 0x20 ∨ 0x7e < b) : ¬ (c = a ∨ c = b) := not_or.mpr ⟨other low,other low'⟩
  refine ⟨?_,other (by decide),other (by decide)⟩
  rw [LineKey.ofByte,if_neg (other (by decide)),if_neg (neither (by decide) (by decide)),if_neg (neither (by decide) (by decide)),
    if_neg (other (by decide)),if_neg (other (by decide)),if_neg (other (by decide)),if_neg (other (by decide)),
    if_neg (other (by decide)),if_neg (other (by decide)),if_pos (plainShown shown)]

/- The reply to a line in the buffer. -/
theorem finishReplies (con : Console) : con.finishLine.rdActive = false ∧
    con.finishLine.lines = con.lines ++ [lineReply con.rdFrom (read con.memory con.rdBuf con.rdN)] := by
  obtain ⟨cells,buf,n,_⟩ := histPushKeeps con.terminated con.rdBuf con.rdN
  have framed := con.terminated.histPushFramed con.rdBuf con.rdN
  have line : read con.terminated.memory con.rdBuf con.rdN = read con.memory con.rdBuf con.rdN := readCongr fun i _ high => setOther (by omega)
  have nul : con.terminated.memory (con.rdBuf + con.rdN) = 0 := setSame
  have whole : read con.terminated.memory con.rdBuf (con.rdN + 1) = read con.memory con.rdBuf con.rdN ++ [0] := by
    rw [readLast,line,nul]
  refine ⟨rfl,?_⟩
  rw [finishLineIs]
  dsimp only
  rw [framed.lines,framed.sender,n,cells,buf,lineReply,readLength]
  exact congrArg (fun text => con.lines ++ [⟨con.rdFrom,con.rdN,text⟩]) whole

/- One byte of the line. -/
theorem bytePlays (plays : Plays term con) (busy : PlainTerminal.discipline.busy term = true) {c : Byte} (plain : Plain c) :
    Plays (term.key c) (con.editByte c) := by
  obtain ⟨lines,reader⟩ := plays
  rcases reading : term.reader with _ | ⟨sender,max⟩
  · have none : term.reader.isSome = true := busy
    rw [reading] at none
    cases none
  rw [reading] at reader
  obtain ⟨active,asker,size,last,esc,fits,text⟩ := reader
  have length : term.typed.length = con.rdN := by rw [← text,readLength]
  have typed : con.editByte c = con.normalKey c := by simp only [editByte,esc]
  rw [typed,normalKeyIs,PlainTerminal.key,reading]
  rcases plain with rfl | rfl | shown
  · have key : LineKey.ofByte 8 = .command .deleteLeft := rfl
    have notEnter : (8 : Byte) ≠ 10 := by decide
    simp only [key,if_neg notEnter,if_true]
    by_cases start : con.rdN = 0
    · have empty : term.typed = [] := List.length_eq_zero_iff.mp (length.trans start)
      rw [perform,delLeftStart (last.trans start)]
      refine ⟨lines,active,asker,size,last,esc,fits,?_⟩
      rw [start,empty]
      rfl
    · obtain ⟨uart,done⟩ := deleteEnd last start
      rw [perform,done]
      refine ⟨lines,active,asker,size,rfl,esc,⟨(Nat.sub_le _ _).trans fits.small,fits.word⟩,?_⟩
      rw [List.dropLast_eq_take,length,← text,readTake,Nat.min_eq_left (Nat.sub_le _ _)]
  · have key : LineKey.ofByte 10 = .accept := rfl
    obtain ⟨idle,replied⟩ := con.finishReplies
    simp only [key,if_true]
    refine ⟨?_,idle⟩
    rw [replied,lines,asker,text]
  · obtain ⟨key,notBack,notEnter⟩ := plainKey shown
    simp only [key,if_neg notBack,if_neg notEnter,length]
    have room := fits.room
    rw [← size] at room
    by_cases free : con.rdN + 1 < max
    · obtain ⟨uart,done⟩ := insertEnd last (room.mpr (size ▸ free)) c
      rw [if_pos free,perform,done]
      refine ⟨lines,active,asker,size,rfl,esc,⟨Nat.le_sub_one_of_lt free,fits.word⟩,?_⟩
      have before : read (con.memory.set (con.rdBuf + con.rdN) c) con.rdBuf con.rdN = term.typed :=
        (readCongr fun i _ high => setOther (by omega)).trans text
      have cell : con.memory.set (con.rdBuf + con.rdN) c (con.rdBuf + con.rdN) = c := setSame
      exact readLast.trans (congrArg₂ (fun line c => line ++ [c]) before cell)
    · have full : con.insChar c = con := if_pos (not_lt.mp fun low => free (size ▸ room.mp low))
      rw [if_neg free,perform,full]
      refine ⟨lines,?_⟩
      rw [reading]
      exact ⟨active,asker,size,last,esc,fits,text⟩

theorem Plays.busy (plays : Plays term con) : con.rdActive = PlainTerminal.discipline.busy term := by
  have reader := plays.reader
  rcases reading : term.reader with _ | ⟨sender,max⟩
  · rw [reading] at reader
    exact reader.trans (by simp [PlainTerminal.discipline,reading])
  · rw [reading] at reader
    exact reader.1.trans (by simp [PlainTerminal.discipline,reading])

/- What does not touch the line. -/
theorem Plays.beside {con' : Console} (plays : Plays term con) (beside : Beside con con') : Plays term con' := by
  refine ⟨beside.lines.trans plays.lines,?_⟩
  have reader := plays.reader
  rcases reading : term.reader with _ | ⟨sender,max⟩
  · rw [reading] at reader
    exact beside.active.trans reader
  · rw [reading] at reader
    obtain ⟨active,asker,size,last,esc,fits,text⟩ := reader
    have same : read con'.memory con.rdBuf con.rdN = read con.memory con.rdBuf con.rdN := by
      refine readMoved fun i low => beside.cells active i ?_
      have := fits.small
      omega
    refine ⟨beside.active.trans active,beside.sender.trans asker,beside.max.trans size,?_,beside.esc.trans esc,?_,?_⟩
    · rw [beside.pos,beside.n,last]
    · rw [beside.n]
      exact fits
    · rw [beside.buf,beside.n,same,text]

theorem playDrains : Drains PlainTerminal.discipline edit (fun con => con.ring.contents) Plain Plays where
  done _ := rfl
  idle plays idle := editIdle (plays.busy.trans idle) _
  turn := by
    intro term con c queue turns plays busy held plain
    obtain ⟨ring,popped,left⟩ := Ring.popSome held
    have moved : Plays term { con with ring := ring } := ⟨plays.lines,plays.reader⟩
    have rest := byteRing { con with ring := ring } c
    exact ⟨_,editTurn (plays.busy.trans busy) popped turns,bytePlays moved busy plain,(congrArg Ring.contents rest).trans left⟩

theorem editPlays {queue : List Byte} (plays : Plays term con) (held : con.ring.contents = queue) (plain : ∀ c ∈ queue, Plain c) :
    Plays (PlainTerminal.discipline.serve term queue).1 (con.edit con.ring.used) ∧
      (con.edit con.ring.used).ring.contents = (PlainTerminal.discipline.serve term queue).2 := by
  rw [← Ring.contentsLength,held]
  exact playDrains.drained plays held plain

/- What is served comes out of the queue. -/
def Acts (con : Console) (p : PlainTerminal × List Byte) : Prop := Plays p.1 con ∧ con.ring.contents = p.2 ∧ ∀ c ∈ p.2, Plain c

theorem actsRun : Runs consoleSystem (fun con event => event.timely con ∧ ∀ c ∈ event.typed, Plain c) PlainTerminal.discipline
    (fun _ => ConsoleEvent.brings) Acts where
  step := by
    rintro con event ⟨term,queue⟩ ⟨plays,held,plain⟩ enabled ⟨meets,fine⟩
    replace plays : Plays term con := plays
    replace held : con.ring.contents = queue := held
    cases event with
    | irq waiting =>
      have pushed : (con.drainRx waiting).ring.contents = queue ++ waiting := by
        rw [← held]
        exact Ring.pushAllContents meets
      have all : ∀ c ∈ queue ++ waiting, Plain c := fun c member => (List.mem_append.mp member).elim (plain c) (fine c)
      obtain ⟨played,left⟩ := editPlays (plays.beside (con.drainBeside waiting)) pushed all
      exact ⟨played,left,servesPlain all⟩
    | write sender data0 data1 => exact ⟨plays.beside (con.writeBeside sender data0 data1),held,plain⟩
    | readline sender data0 data1 =>
      have asked : Plays (PlainTerminal.discipline.ask term (sender,data0,data1)) (con.takeRequest sender data0 data1) :=
        ⟨plays.lines,rfl,rfl,rfl,rfl,rfl,⟨Nat.zero_le _,Nat.mod_lt _ (by decide)⟩,rfl⟩
      obtain ⟨played,left⟩ := editPlays asked held plain
      exact ⟨played,left,servesPlain plain⟩
    | clients memory => exact ⟨plays.beside (clientsBeside enabled),held,plain⟩
  free := by
    rintro con event ⟨term,queue⟩ a ⟨plays,_⟩ ⟨meets,_⟩ brought request
    cases event with
    | readline sender data0 data1 => exact (Plays.busy plays).symm.trans meets
    | irq waiting =>
      cases brought
      cases request
    | write sender data0 data1 => cases brought
    | clients memory => cases brought

end Console

namespace VgaTerminal
variable {vga : VgaTerminal} {term : PlainTerminal}

structure Plays (term : PlainTerminal) (vga : VgaTerminal) : Prop where
  lines : vga.lines = term.answers
  reader : match term.reader with
    | none => vga.rdActive = false
    | some (sender,max) => vga.rdActive = true ∧ vga.rdFrom = sender ∧ vga.rdMax = max ∧ Fits vga.rdN max ∧
        read vga.memory vga.rdBuf vga.rdN = term.typed

/- Drawing changes the screen alone. -/
theorem nextRowScreen (vga : VgaTerminal) : ∃ cells row column, vga.nextRow = { vga with vga := cells, curR := row, curC := column } := by
  unfold nextRow
  dsimp only
  split <;> exact ⟨_,_,_,rfl⟩

theorem vgaPutcScreen (vga : VgaTerminal) (ch : Byte) :
    ∃ cells row column, vga.vgaPutc ch = { vga with vga := cells, curR := row, curC := column } := by
  unfold vgaPutc
  split
  · exact vga.nextRowScreen
  · split
    · dsimp only
      split <;> exact ⟨_,_,_,rfl⟩
    · split
      · exact ⟨_,_,_,rfl⟩
      · dsimp only
        split
        · obtain ⟨cells,row,column,same⟩ :=
            nextRowScreen { vga with vga := vga.vga.set (vga.curR * 80 + vga.curC) (vgaCell ch), curC := vga.curC + 1 }
          exact ⟨cells,row,column,same⟩
        · exact ⟨_,_,_,rfl⟩

theorem vgaPutsScreen (vga : VgaTerminal) (text : List Byte) :
    ∃ cells row column, vga.vgaPuts text = { vga with vga := cells, curR := row, curC := column } := by
  induction text generalizing vga with
  | nil => exact ⟨_,_,_,rfl⟩
  | cons ch text ih =>
    obtain ⟨_,_,_,first⟩ := vga.vgaPutcScreen ch
    obtain ⟨cells,row,column,rest⟩ := ih (vga.vgaPutc ch)
    refine ⟨cells,row,column,?_⟩
    rw [vgaPuts,List.foldl_cons,← vgaPuts,rest,first]

theorem keyPlays (plays : Plays term vga) (busy : PlainTerminal.discipline.busy term = true) {c : Byte} (plain : Plain c) :
    Plays (term.key c) (vga.editKey c) := by
  obtain ⟨lines,reader⟩ := plays
  rcases reading : term.reader with _ | ⟨sender,max⟩
  · have none : term.reader.isSome = true := busy
    rw [reading] at none
    cases none
  rw [reading] at reader
  obtain ⟨active,asker,size,fits,text⟩ := reader
  have length : term.typed.length = vga.rdN := by rw [← text,readLength]
  rw [PlainTerminal.key,reading]
  dsimp only
  rw [editKey]
  split
  · obtain ⟨cells,row,column,drawn⟩ := vga.vgaPutcScreen 10
    have before : read (vga.memory.set (vga.rdBuf + vga.rdN) 0) vga.rdBuf vga.rdN = term.typed :=
      (readCongr fun i _ high => setOther (by omega)).trans text
    have nul : vga.memory.set (vga.rdBuf + vga.rdN) 0 (vga.rdBuf + vga.rdN) = 0 := setSame
    have whole : read (vga.memory.set (vga.rdBuf + vga.rdN) 0) vga.rdBuf (vga.rdN + 1) = term.typed ++ [0] := by
      rw [readLast,before,nul]
    rw [drawn]
    refine ⟨?_,rfl⟩
    dsimp only
    rw [whole,lines,asker,Console.lineReply,length]
  · rename_i notEnter
    split
    · split
      · obtain ⟨cells,row,column,drawn⟩ := vgaPutcScreen { vga with rdN := vga.rdN - 1 } 8
        rw [drawn]
        refine ⟨lines,active,asker,size,⟨(Nat.sub_le _ _).trans fits.small,fits.word⟩,?_⟩
        rw [List.dropLast_eq_take,length,← text,readTake,Nat.min_eq_left (Nat.sub_le _ _)]
      · rename_i start
        have zero : vga.rdN = 0 := not_not.mp start
        have empty : term.typed = [] := List.length_eq_zero_iff.mp (length.trans zero)
        refine ⟨lines,active,asker,size,fits,?_⟩
        rw [zero,empty]
        rfl
    · rename_i notBack
      have shown := plainShown ((plain.resolve_left notBack).resolve_left notEnter)
      have room := fits.room
      by_cases free : vga.rdN + 1 < max
      · have fitting : 0x20 ≤ c ∧ c < 0x7f ∧ unsigned (vga.rdN + 1) < vga.rdMax := ⟨shown.1,shown.2,size ▸ room.mpr free⟩
        obtain ⟨cells,row,column,drawn⟩ :=
          vgaPutcScreen { vga with memory := vga.memory.set (vga.rdBuf + vga.rdN) c, rdN := vga.rdN + 1 } c
        have before : read (vga.memory.set (vga.rdBuf + vga.rdN) c) vga.rdBuf vga.rdN = term.typed :=
          (readCongr fun i _ high => setOther (by omega)).trans text
        have cell : vga.memory.set (vga.rdBuf + vga.rdN) c (vga.rdBuf + vga.rdN) = c := setSame
        rw [if_pos fitting,length,if_pos free,drawn]
        refine ⟨lines,active,asker,size,⟨Nat.le_sub_one_of_lt free,fits.word⟩,?_⟩
        exact readLast.trans (congrArg₂ (fun line c => line ++ [c]) before cell)
      · have full : ¬ (0x20 ≤ c ∧ c < 0x7f ∧ unsigned (vga.rdN + 1) < vga.rdMax) := fun fitting => free (room.mp (size ▸ fitting.2.2))
        rw [if_neg full,length,if_neg free]
        refine ⟨lines,?_⟩
        rw [reading]
        exact ⟨active,asker,size,fits,text⟩

theorem Plays.busy (plays : Plays term vga) : vga.rdActive = PlainTerminal.discipline.busy term := by
  have reader := plays.reader
  rcases reading : term.reader with _ | ⟨sender,max⟩
  · rw [reading] at reader
    exact reader.trans (by simp [PlainTerminal.discipline,reading])
  · rw [reading] at reader
    exact reader.1.trans (by simp [PlainTerminal.discipline,reading])

theorem keyRing (vga : VgaTerminal) (c : Byte) : (vga.editKey c).kr = vga.kr := by
  rcases vga.keyServes c with ⟨rfl,_⟩ | ⟨_,_,_,_,kr⟩
  · exact (vga.vgaPutcDrawn 10).kr
  · exact kr

theorem playDrains : Drains PlainTerminal.discipline edit (fun vga => vga.kr.contents) Plain Plays where
  done _ := rfl
  idle plays idle := editIdle (plays.busy.trans idle) _
  turn := by
    intro term vga c queue turns plays busy held plain
    obtain ⟨kr,popped,left⟩ := Ring.popSome held
    have moved : Plays term { vga with kr := kr } := ⟨plays.lines,plays.reader⟩
    have rest := keyRing { vga with kr := kr } c
    refine ⟨_,?_,keyPlays moved busy plain,(congrArg Ring.contents rest).trans left⟩
    rw [edit,if_pos (plays.busy.trans busy),popped]

theorem editPlays {queue : List Byte} (plays : Plays term vga) (held : vga.kr.contents = queue) (plain : ∀ c ∈ queue, Plain c) :
    Plays (PlainTerminal.discipline.serve term queue).1 (vga.edit vga.kr.used) ∧
      (vga.edit vga.kr.used).kr.contents = (PlainTerminal.discipline.serve term queue).2 := by
  rw [← Ring.contentsLength,held]
  exact playDrains.drained plays held plain

end VgaTerminal

/- The character that a scancode stands for, and what it does to the shift key. -/
def keyOf (shift : Bool) (sc : Byte) : Option Byte :=
  if sc = 0x2a ∨ sc = 0x36 then none
  else if sc &&& 0x80 ≠ 0 ∨ sc ≥ 0x3a then none
  else if (if shift then mapHi else mapLo).getD sc.toNat 0 = 0 then none
  else some ((if shift then mapHi else mapLo).getD sc.toNat 0)

def shiftAfter (shift : Bool) (sc : Byte) : Bool :=
  if sc = 0x2a ∨ sc = 0x36 then true
  else if sc = 0xaa ∨ sc = 0xb6 then false
  else shift

/- Every character of the protocol is on the keyboard. -/
theorem plainTyped (c : Byte) (plain : Plain c) : ∃ shift, ∃ sc : Byte, keyOf shift sc = some c ∧ shiftAfter shift sc = shift := by
  have found : ∀ c : Byte, Plain c →
      (keyOf false (BitVec.ofNat 8 (mapLo.idxOf c)) = some c ∧ shiftAfter false (BitVec.ofNat 8 (mapLo.idxOf c)) = false) ∨
        keyOf true (BitVec.ofNat 8 (mapHi.idxOf c)) = some c ∧ shiftAfter true (BitVec.ofNat 8 (mapHi.idxOf c)) = true := by
    decide +kernel
  rcases found c plain with lower | upper
  · exact ⟨false,_,lower⟩
  · exact ⟨true,_,upper⟩

namespace VgaTerminal
variable {vga : VgaTerminal} {term : PlainTerminal}

theorem kbdDrainIs (vga : VgaTerminal) (sc : Byte) :
    vga.kbdDrain sc = { vga with shift := shiftAfter vga.shift sc, kr := vga.kr.pushAll (keyOf vga.shift sc).toList } := by
  unfold kbdDrain keyOf shiftAfter
  by_cases press : sc = 0x2a ∨ sc = 0x36
  · simp only [if_pos press]
    rfl
  · simp only [if_neg press]
    by_cases release : sc = 0xaa ∨ sc = 0xb6
    · have high : sc &&& 0x80 ≠ 0 ∨ sc ≥ 0x3a := by
        rcases release with rfl | rfl <;> decide
      simp only [if_pos release,if_pos high]
      rfl
    · simp only [if_neg release]
      by_cases up : sc &&& 0x80 ≠ 0
      · simp only [if_pos up,if_pos (Or.inl up)]
        rfl
      · simp only [if_neg up]
        by_cases far : sc ≥ 0x3a
        · simp only [if_pos far,if_pos (Or.inr far)]
          rfl
        · have known : ¬ (sc &&& 0x80 ≠ 0 ∨ sc ≥ 0x3a) := not_or.mpr ⟨up,far⟩
          simp only [if_neg far,if_neg known]
          generalize (if vga.shift then mapHi else mapLo).getD sc.toNat 0 = c
          by_cases empty : c = 0
          · rw [if_neg (not_not.mpr empty),if_pos empty]
            rfl
          · rw [if_pos empty,if_neg empty]
            rfl

/- The ring has room for the key, and a request comes after the reply to the one before. -/
def timely (vga : VgaTerminal) : VgaEvent → Prop
  | .irq sc => vga.kr.used + (keyOf vga.shift sc).toList.length < 128
  | .readline _ _ _ => vga.rdActive = false
  | .write _ _ _ | .clients _ => True

instance (vga : VgaTerminal) (event : VgaEvent) : Decidable (vga.timely event) :=
  match event with
  | .irq sc => inferInstanceAs (Decidable (vga.kr.used + (keyOf vga.shift sc).toList.length < 128))
  | .readline _ _ _ => inferInstanceAs (Decidable (vga.rdActive = false))
  | .write _ _ _ | .clients _ => inferInstanceAs (Decidable True)

def typed (vga : VgaTerminal) : VgaEvent → List Byte
  | .irq sc => (keyOf vga.shift sc).toList
  | .write _ _ _ | .readline _ _ _ | .clients _ => []

def brings (vga : VgaTerminal) : VgaEvent → Option (Arrival Byte (Int × Nat × Nat))
  | .irq sc => some (.input (keyOf vga.shift sc).toList)
  | .readline sender data0 data1 => some (.request (sender,data0,data1))
  | .write _ _ _ | .clients _ => none

/- What does not touch the line. -/
theorem Plays.beside {vga' : VgaTerminal} (plays : Plays term vga) (lines : vga'.lines = vga.lines) (active : vga'.rdActive = vga.rdActive)
    (sender : vga'.rdFrom = vga.rdFrom) (buf : vga'.rdBuf = vga.rdBuf) (max : vga'.rdMax = vga.rdMax) (n : vga'.rdN = vga.rdN)
    (cells : vga.rdActive = true → ∀ i < vga.rdMax, vga'.memory (vga.rdBuf + i) = vga.memory (vga.rdBuf + i)) : Plays term vga' := by
  refine ⟨lines.trans plays.lines,?_⟩
  have reader := plays.reader
  rcases reading : term.reader with _ | ⟨asker,size⟩
  · rw [reading] at reader
    exact active.trans reader
  · rw [reading] at reader
    obtain ⟨active',sender',max',fits,text⟩ := reader
    have same : read vga'.memory vga.rdBuf vga.rdN = read vga.memory vga.rdBuf vga.rdN := by
      refine readMoved fun i low => cells active' i ?_
      have := fits.small
      omega
    refine ⟨active.trans active',sender.trans sender',max.trans max',?_,?_⟩
    · rw [n]
      exact fits
    · rw [buf,n,same,text]

def Acts (vga : VgaTerminal) (p : PlainTerminal × List Byte) : Prop := Plays p.1 vga ∧ vga.kr.contents = p.2 ∧ ∀ c ∈ p.2, Plain c

theorem actsRun : Runs vgaSystem (fun vga event => vga.timely event ∧ ∀ c ∈ vga.typed event, Plain c) PlainTerminal.discipline brings Acts where
  step := by
    rintro vga event ⟨term,queue⟩ ⟨plays,held,plain⟩ enabled ⟨meets,fine⟩
    replace plays : Plays term vga := plays
    replace held : vga.kr.contents = queue := held
    cases event with
    | irq sc =>
      have drained := vga.kbdDrainIs sc
      have pushed : (vga.kbdDrain sc).kr.contents = queue ++ (keyOf vga.shift sc).toList := by
        rw [← held,drained]
        exact Ring.pushAllContents meets
      have kept : Plays term (vga.kbdDrain sc) := by
        rw [drained]
        exact plays.beside rfl rfl rfl rfl rfl rfl fun _ _ _ => rfl
      have all : ∀ c ∈ queue ++ (keyOf vga.shift sc).toList, Plain c := fun c member => (List.mem_append.mp member).elim (plain c) (fine c)
      obtain ⟨played,left⟩ := editPlays kept pushed all
      exact ⟨played,left,servesPlain all⟩
    | write sender data0 data1 =>
      obtain ⟨cells,row,column,printed⟩ := vga.vgaPutsScreen (read vga.memory data0 (unsigned data1))
      have written : vgaSystem.next vga (.write sender data0 data1) =
          { vga with vga := cells, curR := row, curC := column, wrote := vga.wrote ++ [sender] } := by
        change { vga.vgaPuts (read vga.memory data0 (unsigned data1)) with wrote := vga.wrote ++ [sender] } = _
        rw [printed]
      rw [written]
      exact ⟨plays.beside rfl rfl rfl rfl rfl rfl fun _ _ _ => rfl,held,plain⟩
    | readline sender data0 data1 =>
      have asked : Plays (PlainTerminal.discipline.ask term (sender,data0,data1)) (vga.takeRequest sender data0 data1) :=
        ⟨plays.lines,rfl,rfl,rfl,⟨Nat.zero_le _,Nat.mod_lt _ (by decide)⟩,rfl⟩
      obtain ⟨played,left⟩ := editPlays asked held plain
      exact ⟨played,left,servesPlain plain⟩
    | clients memory => exact ⟨plays.beside rfl rfl rfl rfl rfl rfl enabled,held,plain⟩
  free := by
    rintro vga event ⟨term,queue⟩ a ⟨plays,_⟩ ⟨meets,_⟩ brought request
    cases event with
    | readline sender data0 data1 => exact (Plays.busy plays).symm.trans meets
    | irq sc =>
      cases brought
      cases request
    | write sender data0 data1 => cases brought
    | clients memory => cases brought

theorem bootIs (screen : Buffer (BitVec 16)) (memory : Buffer Byte) : ∃ cells row column, boot screen memory =
    { vga := cells, curR := row, curC := column, shift := false, kr := ⟨fun _ => 0,0,0,by decide,by decide⟩, memory := memory,
      rdActive := false, rdFrom := 0, rdBuf := 0, rdMax := 0, rdN := 0, wrote := [], lines := [] } := vgaPutsScreen _ _

theorem bootActs (screen : Buffer (BitVec 16)) (memory : Buffer Byte) : Acts (boot screen memory) (⟨none,[],[]⟩,[]) := by
  obtain ⟨cells,row,column,started⟩ := bootIs screen memory
  rw [started]
  exact ⟨⟨rfl,rfl⟩,rfl,nofun⟩

theorem keyShift (vga : VgaTerminal) (c : Byte) : (vga.editKey c).shift = vga.shift := by
  have drawn (vga : VgaTerminal) (ch : Byte) : (vga.vgaPutc ch).shift = vga.shift := by
    obtain ⟨_,_,_,same⟩ := vga.vgaPutcScreen ch
    rw [same]
  unfold editKey
  split
  · exact drawn vga 10
  · split
    · split
      · exact drawn _ 8
      · rfl
    · split
      · exact drawn _ c
      · rfl

theorem editShift (vga : VgaTerminal) (turns : Nat) : (vga.edit turns).shift = vga.shift := by
  induction turns generalizing vga with
  | zero => rfl
  | succ turns ih =>
    unfold edit
    split
    · split
      · rfl
      · exact (ih _).trans (keyShift _ _)
    · rfl

end VgaTerminal

/- The characters of the scancodes, from a state of the shift key on. -/
def keysTyped : Bool → List VgaEvent → List Byte
  | _,[] => []
  | shift,.irq sc :: rest => (keyOf shift sc).toList ++ keysTyped (shiftAfter shift sc) rest
  | shift,.write _ _ _ :: rest | shift,.readline _ _ _ :: rest | shift,.clients _ :: rest => keysTyped shift rest

def VgaEvent.request? : VgaEvent → Option (Int × Nat × Nat)
  | .readline sender data0 data1 => some (sender,data0,data1)
  | .irq _ | .write _ _ _ | .clients _ => none

theorem keysBrought (vga : VgaTerminal) (events : List VgaEvent) :
    (arrivals vgaSystem VgaTerminal.brings vga events).flatMap Arrival.bytes = keysTyped vga.shift events ∧
      (arrivals vgaSystem VgaTerminal.brings vga events).filterMap Arrival.request? = events.filterMap VgaEvent.request? := by
  induction events generalizing vga with
  | nil => exact ⟨rfl,rfl⟩
  | cons event events ih =>
    obtain ⟨bytes,requests⟩ := ih (vgaSystem.next vga event)
    cases event with
    | irq sc =>
      have shift : (vgaSystem.next vga (.irq sc)).shift = shiftAfter vga.shift sc := by
        refine (VgaTerminal.editShift _ _).trans ?_
        exact congrArg VgaTerminal.shift (vga.kbdDrainIs sc)
      rw [shift] at bytes
      exact ⟨congrArg ((keyOf vga.shift sc).toList ++ ·) bytes,requests⟩
    | readline sender data0 data1 =>
      have shift : (vgaSystem.next vga (.readline sender data0 data1)).shift = vga.shift := VgaTerminal.editShift _ _
      rw [shift] at bytes
      exact ⟨bytes,congrArg ((sender,data0,data1) :: ·) requests⟩
    | write sender data0 data1 =>
      obtain ⟨_,_,_,printed⟩ := vga.vgaPutsScreen (read vga.memory data0 (unsigned data1))
      have drawn : (vga.vgaPuts (read vga.memory data0 (unsigned data1))).shift = vga.shift := by rw [printed]
      have shift : (vgaSystem.next vga (.write sender data0 data1)).shift = vga.shift := drawn
      rw [shift] at bytes
      exact ⟨bytes,requests⟩
    | clients memory => exact ⟨bytes,requests⟩

/- The lines of a plain terminal, from what the console driver takes. -/
theorem consoleLines {memory : Buffer Byte} {waiting : List Byte} {self : Nat} {events : List ConsoleEvent} (fits : waiting.length < 256)
    (plain : ∀ c ∈ waiting, Plain c)
    (admits : Admits consoleSystem (fun con event => event.timely con ∧ ∀ c ∈ event.typed, Plain c) (.boot memory waiting self) events) :
    (run consoleSystem (.boot memory waiting self) events).lines =
      (PlainTerminal.discipline.outcome ⟨none,[],[]⟩ (waiting ++ events.flatMap ConsoleEvent.typed) (events.filterMap ConsoleEvent.request?)).1.answers := by
  have acts : Console.Acts (.boot memory waiting self) (⟨none,[],[]⟩,waiting) := by
    have empty : Ring.used ⟨fun _ => (0 : Byte),0,0,(by decide : 0 < 256),by decide⟩ = 0 := rfl
    exact ⟨⟨rfl,rfl⟩,Ring.pushAllContents (by rwa [empty,Nat.zero_add]),plain⟩
  obtain ⟨⟨plays,_⟩,timely⟩ := Console.actsRun.run acts admits
  obtain ⟨bytes,requests⟩ := typedBrought consoleSystem (.boot memory waiting self) events
  rw [plays.lines,Discipline.runOutcome (fun busy => by cases busy) timely,bytes,requests]

theorem vgaLines {screen : Buffer (BitVec 16)} {memory : Buffer Byte} {events : List VgaEvent}
    (admits : Admits vgaSystem (fun vga event => vga.timely event ∧ ∀ c ∈ vga.typed event, Plain c) (.boot screen memory) events) :
    (run vgaSystem (.boot screen memory) events).lines =
      (PlainTerminal.discipline.outcome ⟨none,[],[]⟩ (keysTyped false events) (events.filterMap VgaEvent.request?)).1.answers := by
  obtain ⟨⟨plays,_⟩,timely⟩ := VgaTerminal.actsRun.run (VgaTerminal.bootActs screen memory) admits
  obtain ⟨bytes,requests⟩ := keysBrought (.boot screen memory) events
  have lower : (VgaTerminal.boot screen memory).shift = false := by
    obtain ⟨_,_,_,started⟩ := VgaTerminal.bootIs screen memory
    rw [started]
  rw [lower] at bytes
  rw [plays.lines,Discipline.runOutcome (fun _ => rfl) timely,bytes,requests]
  rfl

/- Both servers reply to the same requests and the same characters with the same lines. -/
theorem terminalLines {memory memory' : Buffer Byte} {waiting : List Byte} {self : Nat} {screen : Buffer (BitVec 16)} {events : List ConsoleEvent}
    {vgaEvents : List VgaEvent} (fits : waiting.length < 256) (plain : ∀ c ∈ waiting, Plain c)
    (admits : Admits consoleSystem (fun con event => event.timely con ∧ ∀ c ∈ event.typed, Plain c) (.boot memory waiting self) events)
    (vgaAdmits : Admits vgaSystem (fun vga event => vga.timely event ∧ ∀ c ∈ vga.typed event, Plain c) (.boot screen memory') vgaEvents)
    (bytes : waiting ++ events.flatMap ConsoleEvent.typed = keysTyped false vgaEvents)
    (requests : events.filterMap ConsoleEvent.request? = vgaEvents.filterMap VgaEvent.request?) :
    (run consoleSystem (.boot memory waiting self) events).lines = (run vgaSystem (.boot screen memory') vgaEvents).lines := by
  rw [consoleLines fits plain admits,vgaLines vgaAdmits,bytes,requests]

/- A capital letter, a letter that is taken back, and one that the buffer has no room for. -/
def typedBoth : List ConsoleEvent × List VgaEvent :=
  ([.readline 5 1000 3,.irq (asciiText "Ab" ++ [8]),.irq (asciiText "cd" ++ [10])],
    [.readline 5 1000 3,.irq 0x2a,.irq 0x1e,.irq 0x9e,.irq 0xaa,.irq 0x30,.irq 0x0e,.irq 0x2e,.irq 0x20,.irq 0x1c])

theorem terminalLinesTyped : (run consoleSystem (.boot (fun _ => 0) [] 1) typedBoth.1).lines =
    (run vgaSystem (.boot (fun _ => 0) (fun _ => 1)) typedBoth.2).lines :=
  terminalLines (by decide) (by decide) (by decide +kernel) (by decide +kernel) (by decide +kernel) (by decide +kernel)

end Mukern
