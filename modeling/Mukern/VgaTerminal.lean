import Mukern.Console

/-! The VGA terminal server: `servers/vga/main.c`. Its globals and the screen it draws
on are one record, as for the console driver. -/
namespace Mukern
open Buffers Transition

def mapLo : List Byte :=
  [0,27] ++ asciiText "1234567890-=" ++ [8,9] ++ asciiText "qwertyuiop[]" ++ [10,0] ++ asciiText "asdfghjkl;'`" ++ [0] ++
    asciiText "\\zxcvbnm,./" ++ [0] ++ asciiText "*" ++ [0] ++ asciiText " "

def mapHi : List Byte :=
  [0,27] ++ asciiText "!@#$%^&*()_+" ++ [8,9] ++ asciiText "QWERTYUIOP\x7b\x7d" ++ [10,0] ++ asciiText "ASDFGHJKL:\"~" ++ [0] ++
    asciiText "|ZXCVBNM<>?" ++ [0] ++ asciiText "*" ++ [0] ++ asciiText " "

example : mapLo.length = 0x3a ∧ mapHi.length = 0x3a := by decide

structure VgaTerminal where
  vga : Buffer (BitVec 16)
  curR : Nat
  curC : Nat
  shift : Bool
  kr : Ring Byte 128
  memory : Buffer Byte
  rdActive : Bool
  rdFrom : Int
  rdBuf : Nat
  rdMax : Nat
  rdN : Nat
  wrote : List Int
  lines : List LineReply

/- `(ATTR << 8) | ch`: light grey on black. -/
def vgaCell (ch : Byte) : BitVec 16 := 0x0700 ||| ch.setWidth 16

/- `for (i = lo; i < lo + n; i++) VGA[i] = (ATTR << 8) | ' '`. -/
def vgaBlank (vga : Buffer (BitVec 16)) : (lo n : Nat) → Buffer (BitVec 16)
  | _, 0 => vga
  | lo, n + 1 => vgaBlank (vga.set lo (vgaCell (ascii ' '))) (lo + 1) n

namespace VgaTerminal
variable (term : VgaTerminal)

def scroll : VgaTerminal := { term with vga := vgaBlank (shiftDown term.vga 80 0 (24 * 80)) (24 * 80) 80 }

/- `cur_c = 0; if (++cur_r >= ROWS) { scroll(); cur_r = ROWS - 1; }`. -/
def nextRow : VgaTerminal :=
  let term := { term with curC := 0, curR := term.curR + 1 }
  if term.curR ≥ 25 then { term.scroll with curR := 25 - 1 } else term

def vgaPutc (ch : Byte) : VgaTerminal :=
  if ch = 10 then term.nextRow
  else if ch = 8 then
    if term.curC > 0 then
      let term := { term with curC := term.curC - 1 }
      { term with vga := term.vga.set (term.curR * 80 + term.curC) (vgaCell (ascii ' ')) }
    else term
  else if ch = 13 then { term with curC := 0 }
  else
    let term := { term with vga := term.vga.set (term.curR * 80 + term.curC) (vgaCell ch), curC := term.curC + 1 }
    if term.curC ≥ 80 then term.nextRow else term

def vgaPuts (text : List Byte) : VgaTerminal := text.foldl vgaPutc term

def vgaClear : VgaTerminal := { term with vga := vgaBlank term.vga 0 (80 * 25), curR := 0, curC := 0 }

/- The scancode is the byte that `u_inb(KBD_DATA)` returns. -/
def kbdDrain (sc : Byte) : VgaTerminal :=
  if sc = 0x2a ∨ sc = 0x36 then { term with shift := true }
  else if sc = 0xaa ∨ sc = 0xb6 then { term with shift := false }
  else if sc &&& 0x80 ≠ 0 then term
  else if sc ≥ 0x3a then term
  else
    let c := (if term.shift then mapHi else mapLo).getD sc.toNat 0
    if c ≠ 0 then { term with kr := term.kr.push c } else term

/- One turn of the loop of `edit`, on the key that `kr_pop` returned. -/
def editKey (c : Byte) : VgaTerminal :=
  if c = 10 then
    let term := term.vgaPutc 10
    let term := { term with memory := term.memory.set (term.rdBuf + term.rdN) 0 }
    let reply := ⟨term.rdFrom,term.rdN,read term.memory term.rdBuf (term.rdN + 1)⟩
    { term with rdActive := false, lines := term.lines ++ [reply] }
  else if c = 8 then
    if term.rdN ≠ 0 then { term with rdN := term.rdN - 1 }.vgaPutc 8 else term
  else if 0x20 ≤ c ∧ c < 0x7f ∧ unsigned (term.rdN + 1) < term.rdMax then
    { term with memory := term.memory.set (term.rdBuf + term.rdN) c, rdN := term.rdN + 1 }.vgaPutc c
  else term

end VgaTerminal

/- At most `turns` turns of the loop, which returns after the reply. -/
def VgaTerminal.edit : (turns : Nat) → VgaTerminal → VgaTerminal
  | 0, term => term
  | turns + 1, term =>
    if term.rdActive then
      match term.kr.pop with
      | none => term
      | some (c,kr) => edit turns ({ term with kr := kr }.editKey c)
    else term

inductive VgaEvent where
  | irq (sc : Byte)
  | write (sender : Int) (data0 data1 : Nat)
  | readline (sender : Int) (data0 data1 : Nat)
  | clients (memory : Buffer Byte)

namespace VgaTerminal

def takeRequest (term : VgaTerminal) (sender : Int) (data0 data1 : Nat) : VgaTerminal :=
  { term with rdActive := true, rdFrom := sender, rdBuf := data0, rdMax := unsigned data1, rdN := 0 }

/- `main` up to `edit`, for the messages that run it. -/
def arrive (term : VgaTerminal) : VgaEvent → VgaTerminal
  | .irq sc => term.kbdDrain sc
  | .write sender data0 data1 => { term.vgaPuts (read term.memory data0 (unsigned data1)) with wrote := term.wrote ++ [sender] }
  | .readline sender data0 data1 => term.takeRequest sender data0 data1
  | .clients memory => { term with memory := memory }

def handle (term : VgaTerminal) (event : VgaEvent) : VgaTerminal :=
  match event with
  | .irq _ | .readline _ _ _ => edit (term.arrive event).kr.used (term.arrive event)
  | .write _ _ _ | .clients _ => term.arrive event

/- The server after its start; `screen` is what the frame buffer held before. -/
def boot (screen : Buffer (BitVec 16)) (memory : Buffer Byte) : VgaTerminal :=
  let zero : VgaTerminal :=
    { vga := screen, curR := 0, curC := 0, shift := false, kr := ⟨fun _ => 0,0,0,by decide,by decide⟩, memory := memory,
      rdActive := false, rdFrom := 0, rdBuf := 0, rdMax := 0, rdN := 0, wrote := [], lines := [] }
  zero.vgaClear.vgaPuts (asciiText "muKern VGA terminal -- type below\n")

end VgaTerminal

/- The steps of the main loop. Nobody writes to a buffer whose owner waits for its line. -/
def vgaSystem : System VgaTerminal VgaEvent where
  start term := ∃ screen memory, term = .boot screen memory
  enabled term
    | .clients memory => term.rdActive = true → ∀ i < term.rdMax, memory (term.rdBuf + i) = term.memory (term.rdBuf + i)
    | .irq _ | .write _ _ _ | .readline _ _ _ => True
  next := VgaTerminal.handle

instance (term : VgaTerminal) (event : VgaEvent) : Decidable (vgaSystem.enabled term event) :=
  match event with
  | .clients memory =>
    inferInstanceAs (Decidable (term.rdActive = true → ∀ i < term.rdMax, memory (term.rdBuf + i) = term.memory (term.rdBuf + i)))
  | .irq _ | .write _ _ _ | .readline _ _ _ => inferInstanceAs (Decidable True)

end Mukern
