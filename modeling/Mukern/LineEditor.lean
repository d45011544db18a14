import Mukern.Console

/-! What the line editor is for, without buffers and indices: a text split at the
cursor, a parser for escape sequences, and a history that is browsed by depth.
`LineServer` reads one line after the other from a queue of type-ahead. -/
namespace Mukern

/- The text before the cursor is kept nearest byte first. -/
structure LineText where
  left : List Byte
  right : List Byte
  history : List (List Byte)
  depth : Nat
  parked : List Byte
  deriving DecidableEq, Repr

inductive LineCommand where
  | insert (c : Byte)
  | deleteLeft
  | deleteAt
  | left
  | right
  | home
  | toEnd
  | kill
  | older
  | newer
  | nothing
  deriving DecidableEq, Repr

namespace LineText

def line (text : LineText) : List Byte := text.left.reverse ++ text.right

def load (text : LineText) (room : Nat) (line : List Byte) : LineText :=
  { text with left := (line.take room).reverse, right := [] }

def older (text : LineText) (room : Nat) : LineText :=
  match text.history[text.depth]? with
  | none => text
  | some entry =>
    { text with depth := text.depth + 1, parked := if text.depth = 0 then text.line else text.parked }.load room entry

def newer (text : LineText) (room : Nat) : LineText :=
  match text.depth with
  | 0 => text
  | 1 => { text with depth := 0 }.load room text.parked
  | depth + 2 => { text with depth := depth + 1 }.load room (text.history.getD depth [])

def apply (text : LineText) (room : Nat) : LineCommand → LineText
  | .insert c => if text.left.length + text.right.length < room then { text with left := c :: text.left } else text
  | .deleteLeft => { text with left := text.left.tail }
  | .deleteAt => { text with right := text.right.tail }
  | .left =>
    match text.left with
    | [] => text
    | c :: left => { text with left := left, right := c :: text.right }
  | .right =>
    match text.right with
    | [] => text
    | c :: right => { text with left := c :: text.left, right := right }
  | .home => { text with left := [], right := text.line }
  | .toEnd => { text with left := text.line.reverse, right := [] }
  | .kill => { text with left := [], right := [] }
  | .older => text.older room
  | .newer => text.newer room
  | .nothing => text

/- At most the 16 latest lines, none empty and none right after itself. -/
def remember (text : LineText) : LineText :=
  if text.line = [] ∨ text.history.head? = some text.line then text
  else { text with history := (text.line :: text.history).take 16 }

end LineText

inductive LineParser where
  | ground
  | escape
  | csi (digits number : Nat)
  deriving DecidableEq, Repr

inductive LineKey where
  | command (k : LineCommand)
  | escape
  | accept
  | cancel
  deriving DecidableEq, Repr

def LineKey.ofByte (c : Byte) : LineKey :=
  if c = 0x1b then .escape
  else if c = 13 ∨ c = 10 then .accept
  else if c = 0x7f ∨ c = 8 then .command .deleteLeft
  else if c = 0x01 then .command .home
  else if c = 0x05 then .command .toEnd
  else if c = 0x02 then .command .left
  else if c = 0x06 then .command .right
  else if c = 0x15 then .command .kill
  else if c = 0x03 then .cancel
  else if 0x20 ≤ c ∧ c < 0x7f then .command (.insert c)
  else .command .nothing

/- The command of `ESC [ number c`. -/
def LineCommand.ofCsi (number : Nat) (c : Byte) : LineCommand :=
  if c = ascii 'A' then .older
  else if c = ascii 'B' then .newer
  else if c = ascii 'C' then .right
  else if c = ascii 'D' then .left
  else if c = ascii 'H' then .home
  else if c = ascii 'F' then .toEnd
  else if c = ascii '~' then
    if number = 3 then .deleteAt
    else if number = 1 ∨ number = 7 then .home
    else if number = 4 ∨ number = 8 then .toEnd
    else .nothing
  else .nothing

/- The commands that neither insert nor delete a byte at the cursor. -/
def LineCommand.Plain : LineCommand → Prop
  | .insert _ | .deleteLeft | .deleteAt => False
  | .left | .right | .home | .toEnd | .kill | .older | .newer | .nothing => True

/- The bytes that type a key. -/
inductive LineKey.TypedBy (c : Byte) : LineKey → Prop where
  | escape : c = 0x1b → TypedBy c .escape
  | accept : c = 13 ∨ c = 10 → TypedBy c .accept
  | cancel : c = 0x03 → TypedBy c .cancel
  | deleteLeft : c = 0x7f ∨ c = 8 → TypedBy c (.command .deleteLeft)
  | insert : 0x20 ≤ c ∧ c < 0x7f → TypedBy c (.command (.insert c))
  | plain {k} : k.Plain → TypedBy c (.command k)

theorem LineKey.typedBy (c : Byte) : TypedBy c (.ofByte c) := by
  unfold ofByte
  refine iteInduction .escape fun _ => iteInduction .accept fun _ => iteInduction .deleteLeft fun _ => ?_
  refine iteInduction (fun _ => .plain trivial) fun _ => iteInduction (fun _ => .plain trivial) fun _ => ?_
  refine iteInduction (fun _ => .plain trivial) fun _ => iteInduction (fun _ => .plain trivial) fun _ => ?_
  refine iteInduction (fun _ => .plain trivial) fun _ => iteInduction .cancel fun _ => ?_
  exact iteInduction .insert fun _ => .plain trivial

/- `ESC [ 3 ~` deletes; the other sequences are plain. -/
theorem LineCommand.ofCsiDeletes (number : Nat) (c : Byte) :
    (.ofCsi number c : LineCommand) = .deleteAt ∧ c = ascii '~' ∧ number = 3 ∨ (LineCommand.ofCsi number c).Plain := by
  unfold ofCsi
  let deletes (k : LineCommand) : Prop := k = .deleteAt ∧ c = ascii '~' ∧ number = 3 ∨ k.Plain
  have plain {k : LineCommand} {p : Prop} (plain : k.Plain) (_ : p) : deletes k := .inr plain
  refine iteInduction (motive := deletes) (plain trivial) fun _ => iteInduction (plain trivial) fun _ => ?_
  refine iteInduction (plain trivial) fun _ => iteInduction (plain trivial) fun _ => ?_
  refine iteInduction (plain trivial) fun _ => iteInduction (plain trivial) fun _ => ?_
  refine iteInduction (fun tilde => ?_) (plain trivial)
  refine iteInduction (fun three => .inl ⟨rfl,tilde,three⟩) fun _ => ?_
  exact iteInduction (plain trivial) fun _ => iteInduction (plain trivial) (plain trivial)

/- `overlong`: some escape sequence had a number of more than nine digits. -/
structure LineEditor where
  text : LineText
  parser : LineParser
  overlong : Bool
  deriving DecidableEq, Repr

/- The editor after a byte, with the line that the byte completed. -/
def LineEditor.type (ed : LineEditor) (room : Nat) (c : Byte) : LineEditor × Option (List Byte) :=
  match ed.parser with
  | .escape => ({ ed with parser := if c = ascii '[' ∨ c = ascii 'O' then .csi 0 0 else .ground },none)
  | .csi digits number =>
    if ascii '0' ≤ c ∧ c ≤ ascii '9' then
      ({ ed with parser := .csi (digits + 1) (number * 10 + (c.toNat - 48)), overlong := ed.overlong || 9 ≤ digits },none)
    else ({ ed with text := ed.text.apply room (.ofCsi number c), parser := .ground },none)
  | .ground =>
    match LineKey.ofByte c with
    | .command k => ({ ed with text := ed.text.apply room k },none)
    | .escape => ({ ed with parser := .escape },none)
    | .accept => ({ ed with text := ed.text.remember },some ed.text.line)
    | .cancel => ({ ed with text := { ed.text with left := [], right := [] } },some [])

/- `reader` is the client that waits for a line and the room in its buffer. -/
structure LineServer where
  editor : LineEditor
  queue : List Byte
  reader : Option (Int × Nat)
  answers : List (Int × List Byte)
  deriving DecidableEq, Repr

namespace LineServer

/- Type-ahead that finds 255 bytes waiting is lost. -/
def enqueue (queue waiting : List Byte) : List Byte :=
  waiting.foldl (fun queue c => if queue.length < 255 then queue ++ [c] else queue) queue

def serve (server : LineServer) : (queue : List Byte) → LineServer
  | [] => { server with queue := [] }
  | c :: rest =>
    match server.reader with
    | none => { server with queue := c :: rest }
    | some (sender,room) =>
      match server.editor.type room c with
      | (editor,none) => serve { server with editor := editor } rest
      | (editor,some line) =>
        serve { server with editor := editor, reader := none, answers := server.answers ++ [(sender,line)] } rest

def handle (server : LineServer) : ConsoleEvent → LineServer
  | .irq waiting =>
    let server := { server with queue := enqueue server.queue waiting }
    server.serve server.queue
  | .readline sender _ data1 =>
    let text := { server.editor.text with left := [], right := [], depth := 0 }
    let server :=
      { server with reader := some (sender,unsigned data1 - 1), editor := { server.editor with text := text, parser := .ground } }
    server.serve server.queue
  | .write _ _ _ | .clients _ => server

theorem serveIdle {server : LineServer} (idle : server.reader = none) (queue : List Byte) : server.serve queue = { server with queue := queue } := by
  cases queue with
  | nil => rfl
  | cons c rest => rw [serve,idle]

theorem serveOpen {server : LineServer} {sender : Int} {room : Nat} (reading : server.reader = some (sender,room)) (c : Byte) (rest : List Byte) :
    server.serve (c :: rest) =
      serve { server with
        editor := (server.editor.type room c).1
        reader := if (server.editor.type room c).2.isNone then some (sender,room) else none
        answers := server.answers ++ ((server.editor.type room c).2.map fun line => (sender,line)).toList } rest := by
  rw [serve,reading]
  rcases typed : server.editor.type room c with ⟨editor,answer⟩
  cases answer with
  | none => simp [← reading,typed]
  | some line => simp [typed]

/- Once a number was too long, the run stays marked. -/
theorem serveOverlong {server : LineServer} (long : server.editor.overlong = true) (queue : List Byte) : (server.serve queue).editor.overlong = true := by
  induction queue generalizing server with
  | nil => exact long
  | cons c rest ih =>
    rcases reading : server.reader with _ | ⟨sender,room⟩
    · rw [serveIdle reading]
      exact long
    · rw [serveOpen reading]
      apply ih
      simp only [LineEditor.type]
      split
      · exact long
      · split
        · exact Bool.or_eq_true_iff.mpr (.inl long)
        · exact long
      · split <;> exact long

def boot (waiting : List Byte) : LineServer :=
  { editor := ⟨⟨[],[],[],0,[]⟩,.ground,false⟩, queue := enqueue [] waiting, reader := none, answers := [] }

end LineServer
end Mukern
