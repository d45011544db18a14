import Mukern.Library.Ring
import Mukern.Library.Transition
import Mathlib.Logic.Function.Iterate

/-! The console driver: `drivers/console/main.c`. Its globals are one record, the
clients' memory that `rd_buf` points into is a flat array of bytes, and the bytes
given to `uart_putc` are kept in order. `u_send` of a reply to `MSG_WRITE` is noted
in `wrote`, that of a reply to `MSG_READLINE` in `lines`. -/
namespace Mukern
open Buffers Transition

abbrev Byte := BitVec 8

def ascii (ch : Char) : Byte := BitVec.ofNat 8 ch.toNat

def asciiText (s : String) : List Byte := s.toList.map ascii

/- The value of an `unsigned`. -/
def unsigned (n : Nat) : Nat := n % 2 ^ 32

/- `0 normal, 1 saw ESC, 2 in CSI`. -/
inductive Esc where
  | normal
  | sawEsc
  | inCsi
  deriving DecidableEq, Repr

/- A reply of `finish_line`, with what `rd_buf[0..rd_n]` holds as it is sent. -/
structure LineReply where
  receiver : Int
  data0 : Nat
  buffer : List Byte
  deriving DecidableEq, Repr

structure Console where
  memory : Buffer Byte
  ring : Ring Byte 256
  hist : Nat → Buffer Byte
  histLen : Nat → Nat
  hCount : Nat
  hNext : Nat
  hNav : Nat
  hSaved : Buffer Byte
  hSavedN : Nat
  rdActive : Bool
  rdFrom : Int
  rdBuf : Nat
  rdMax : Nat
  rdN : Nat
  rdPos : Nat
  esc : Esc
  csiNum : BitVec 32
  uart : List Byte
  wrote : List Int
  lines : List LineReply

namespace Console
variable (con : Console)

def uartPuts (text : List Byte) : Console := { con with uart := con.uart ++ text }

def uartPutc (c : Byte) : Console := con.uartPuts [c]

def uartPutu (v : Nat) : Console := con.uartPuts ((Nat.toDigits 10 v).map ascii)

def backspaces (k : Nat) : Console := con.uartPuts (List.replicate k 8)

/- The bytes that wait in the UART when `drain_rx` runs. -/
def drainRx (waiting : List Byte) : Console := { con with ring := con.ring.pushAll waiting }

def histPush (s n : Nat) : Console :=
  if n = 0 then con
  else
    let newest := (con.hNext + 16 - 1) % 16
    if con.hCount ≠ 0 ∧ con.histLen newest = n ∧ ∀ i < n, con.hist newest i = con.memory (s + i) then con
    else
      let n := if n ≥ 128 then 128 - 1 else n
      { con with
        hist := Function.update con.hist con.hNext (copy (con.hist con.hNext) 0 con.memory s n)
        histLen := Function.update con.histLen con.hNext n
        hNext := (con.hNext + 1) % 16
        hCount := if con.hCount < 16 then con.hCount + 1 else con.hCount }

/- `for (i = start; i < rd_n; i++) uart_putc(rd_buf[i])`. -/
def echo (start : Nat) : Console := con.uartPuts (read con.memory (con.rdBuf + start) (con.rdN - start))

def redrawFrom (start : Nat) : Console := (con.echo start).backspaces (con.rdN - con.rdPos)

def insChar (c : Byte) : Console :=
  if unsigned (con.rdN + 1) ≥ con.rdMax then con
  else
    let shifted := shiftUp con.memory (con.rdBuf + con.rdPos) (con.rdN - con.rdPos)
    let con := { con with memory := shifted.set (con.rdBuf + con.rdPos) c, rdN := con.rdN + 1 }
    let con := con.echo con.rdPos
    let con := { con with rdPos := con.rdPos + 1 }
    con.backspaces (con.rdN - con.rdPos)

def delLeft : Console :=
  if con.rdPos = 0 then con
  else
    let closed := shiftDown con.memory 1 (con.rdBuf + (con.rdPos - 1)) (con.rdN - 1 - (con.rdPos - 1))
    let con := { con with memory := closed, rdN := con.rdN - 1, rdPos := con.rdPos - 1 }
    let con := con.uartPutc 8
    let con := (con.redrawFrom con.rdPos).uartPutc (ascii ' ')
    con.backspaces (con.rdN - con.rdPos + 1)

def delAt : Console :=
  if con.rdPos ≥ con.rdN then con
  else
    let closed := shiftDown con.memory 1 (con.rdBuf + con.rdPos) (con.rdN - 1 - con.rdPos)
    let con := { con with memory := closed, rdN := con.rdN - 1 }
    let con := (con.redrawFrom con.rdPos).uartPutc (ascii ' ')
    con.backspaces (con.rdN - con.rdPos + 1)

def goLeft : Console :=
  if con.rdPos ≠ 0 then { con with rdPos := con.rdPos - 1 }.uartPutc 8 else con

def goRight : Console :=
  if con.rdPos < con.rdN then { con with rdPos := con.rdPos + 1 }.uartPutc (con.memory (con.rdBuf + con.rdPos)) else con

/- Each turn of the two loops is what `go_left` and `go_right` do. -/
def goHome : Console := goLeft^[con.rdPos] con

def goEnd : Console := goRight^[con.rdN - con.rdPos] con

/- `uart_puts("\b \b"); rd_n--`. -/
def rubOut : Console := { con.uartPuts [8,ascii ' ',8] with rdN := con.rdN - 1 }

def eraseLine : Console := rubOut^[con.rdN] con

def setLine (s : Buffer Byte) (n : Nat) : Console :=
  let con := con.goEnd.eraseLine
  let n := if n ≥ con.rdMax then unsigned (con.rdMax + 2 ^ 32 - 1) else n
  let con := { con with memory := copy con.memory con.rdBuf s 0 n, rdN := n, rdPos := n }
  con.echo 0

/- `park the live line`. -/
def parkLine : Console :=
  let n := if con.rdN < 128 then con.rdN else 128 - 1
  { con with hSavedN := n, hSaved := copy con.hSaved 0 con.memory con.rdBuf n }

def histNav (delta : Int) : Console :=
  let nav : Int := con.hNav + (if delta < 0 then 1 else -1)
  if nav < 0 ∨ nav > con.hCount then con
  else
    let con := if con.hNav = 0 ∧ nav > 0 then con.parkLine else con
    let con := { con with hNav := nav.toNat }
    if nav = 0 then con.setLine con.hSaved con.hSavedN
    else
      let idx := (con.hNext + 16 - con.hNav) % 16
      con.setLine (con.hist idx) (con.histLen idx)

def finishLine : Console :=
  let con := con.uartPutc 10
  let con := { con with memory := con.memory.set (con.rdBuf + con.rdN) 0 }
  let con := con.histPush con.rdBuf con.rdN
  let reply := ⟨con.rdFrom,con.rdN,read con.memory con.rdBuf (con.rdN + 1)⟩
  { con with rdActive := false, lines := con.lines ++ [reply] }

def killLine : Console := { con.goEnd.eraseLine with rdPos := 0 }

def cancelLine : Console := { con.uartPuts (asciiText "^C\n") with rdN := 0, rdPos := 0 }.finishLine

def afterEsc (c : Byte) : Console :=
  { con with esc := if c = ascii '[' ∨ c = ascii 'O' then .inCsi else .normal, csiNum := 0 }

def tilde : Console :=
  if con.csiNum = 3 then con.delAt
  else if con.csiNum = 1 ∨ con.csiNum = 7 then con.goHome
  else if con.csiNum = 4 ∨ con.csiNum = 8 then con.goEnd
  else con

def csiFinal (c : Byte) : Console :=
  if c = ascii 'A' then con.histNav (-1)
  else if c = ascii 'B' then con.histNav 1
  else if c = ascii 'C' then con.goRight
  else if c = ascii 'D' then con.goLeft
  else if c = ascii 'H' then con.goHome
  else if c = ascii 'F' then con.goEnd
  else if c = ascii '~' then con.tilde
  else con

def insideCsi (c : Byte) : Console :=
  if ascii '0' ≤ c ∧ c ≤ ascii '9' then
    { con with csiNum := con.csiNum * 10 + ((c.setWidth 32) - 48) }
  else { con.csiFinal c with esc := .normal }

def normalKey (c : Byte) : Console :=
  if c = 0x1b then { con with esc := .sawEsc }
  else if c = 13 ∨ c = 10 then con.finishLine
  else if c = 0x7f ∨ c = 8 then con.delLeft
  else if c = 0x01 then con.goHome
  else if c = 0x05 then con.goEnd
  else if c = 0x02 then con.goLeft
  else if c = 0x06 then con.goRight
  else if c = 0x15 then con.killLine
  else if c = 0x03 then con.cancelLine
  else if 0x20 ≤ c ∧ c < 0x7f then con.insChar c
  else con

/- One turn of the loop of `edit`, on the byte that `ring_pop` returned. -/
def editByte (c : Byte) : Console :=
  match con.esc with
  | .sawEsc => con.afterEsc c
  | .inCsi => con.insideCsi c
  | .normal => con.normalKey c

end Console

/- At most `turns` turns of the loop. `finish_line` alone clears `rd_active`, and
the loop returns right after it. -/
def Console.edit : (turns : Nat) → Console → Console
  | 0, con => con
  | turns + 1, con =>
    if con.rdActive then
      match con.ring.pop with
      | none => con
      | some (c,ring) => edit turns ({ con with ring := ring }.editByte c)
    else con

/- What the loop of `main` receives. Between two messages the clients do as they like
with their memory. -/
inductive ConsoleEvent where
  | irq (waiting : List Byte)
  | write (sender : Int) (data0 data1 : Nat)
  | readline (sender : Int) (data0 data1 : Nat)
  | clients (memory : Buffer Byte)

namespace Console

def takeRequest (con : Console) (sender : Int) (data0 data1 : Nat) : Console :=
  { con with
    rdActive := true
    rdFrom := sender
    rdBuf := data0
    rdMax := unsigned data1
    rdN := 0
    rdPos := 0
    esc := .normal
    hNav := 0 }

/- `main` up to `edit`, for the messages that run it. -/
def arrive (con : Console) : ConsoleEvent → Console
  | .irq waiting => con.drainRx waiting
  | .write sender data0 data1 =>
    { con.uartPuts (read con.memory data0 (unsigned data1)) with wrote := con.wrote ++ [sender] }
  | .readline sender data0 data1 => con.takeRequest sender data0 data1
  | .clients memory => { con with memory := memory }

/- The message up to `turns` turns of `edit`. -/
def during (con : Console) (event : ConsoleEvent) (turns : Nat) : Console :=
  match event with
  | .irq _ | .readline _ _ _ => edit turns (con.arrive event)
  | .write _ _ _ | .clients _ => con.arrive event

/- A turn of the loop uses up a byte of the ring, so that many turns end it. -/
def handle (con : Console) (event : ConsoleEvent) : Console := con.during event (con.arrive event).ring.used

/- The driver after its start: the ring holds what `drain_rx` found. -/
def boot (memory : Buffer Byte) (waiting : List Byte) (self : Nat) : Console :=
  let zero : Console :=
    { memory := memory, ring := ⟨fun _ => 0,0,0,by decide,by decide⟩, hist := fun _ _ => 0, histLen := fun _ => 0,
      hCount := 0, hNext := 0, hNav := 0, hSaved := fun _ => 0, hSavedN := 0,
      rdActive := false, rdFrom := 0, rdBuf := 0, rdMax := 0, rdN := 0, rdPos := 0, esc := .normal, csiNum := 0,
      uart := [], wrote := [], lines := [] }
  let con := (zero.drainRx waiting).uartPuts (asciiText "[con] console driver up (tid=")
  (con.uartPutu self).uartPuts (asciiText ", line editor + history)\n")

end Console
end Mukern
