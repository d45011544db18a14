import Mukern.LineRefinement

/-! Whole runs of the driver's main loop: the replies to `MSG_READLINE` are the lines
of the pure editor. -/
namespace Mukern
open Buffers Transition

/- The steps of the main loop. A client is blocked while its request is open, so
nobody else writes to the buffer that it handed over. -/
def consoleSystem : System Console ConsoleEvent where
  start con := ∃ memory waiting self, con = .boot memory waiting self
  enabled con
    | .clients memory => con.rdActive = true → ∀ i < con.rdMax, memory (con.rdBuf + i) = con.memory (con.rdBuf + i)
    | .irq _ | .write _ _ _ | .readline _ _ _ => True
  next := Console.handle

instance (con : Console) (event : ConsoleEvent) : Decidable (consoleSystem.enabled con event) :=
  match event with
  | .clients memory =>
    inferInstanceAs (Decidable (con.rdActive = true → ∀ i < con.rdMax, memory (con.rdBuf + i) = con.memory (con.rdBuf + i)))
  | .irq _ | .write _ _ _ | .readline _ _ _ => inferInstanceAs (Decidable True)

/- Requests come one at a time, each with a buffer of 1 to 128 bytes. -/
def ConsoleEvent.oneAtATime (con : Console) : ConsoleEvent → Prop
  | .readline _ _ data1 => con.rdActive = false ∧ 1 ≤ unsigned data1 ∧ unsigned data1 ≤ 128
  | .irq _ | .write _ _ _ | .clients _ => True

instance (con : Console) (event : ConsoleEvent) : Decidable (event.oneAtATime con) :=
  match event with
  | .readline _ _ data1 => inferInstanceAs (Decidable (con.rdActive = false ∧ 1 ≤ unsigned data1 ∧ unsigned data1 ≤ 128))
  | .irq _ | .write _ _ _ | .clients _ => inferInstanceAs (Decidable True)

/- The buffer that a request hands over has room for the NUL. -/
def ConsoleEvent.roomy : ConsoleEvent → Prop
  | .readline _ _ data1 => 1 ≤ unsigned data1
  | .irq _ | .write _ _ _ | .clients _ => True

namespace Console
variable {con : Console} {server : LineServer} {room : Nat}

/- The history stays inside its array, and an open request stays inside its buffer. -/
structure Sound (con : Console) : Prop where
  count : con.hCount ≤ 16
  next : con.hNext < 16
  reading : con.rdActive = true → Inside con

/- The driver's globals hold what the pure server holds. -/
structure Serves (con : Console) (server : LineServer) : Prop where
  sound : Sound con
  lines : con.lines = server.answers.map fun answer => lineReply answer.1 answer.2
  history : con.textOf.history = server.editor.text.history
  parked : con.textOf.parked = server.editor.text.parked
  reader : match server.reader with
    | none => con.rdActive = false
    | some (sender,room) => con.rdActive = true ∧ con.rdFrom = sender ∧ con.rdMax = room + 1 ∧ con.rdMax ≤ 128 ∧ Matches con server.editor

/- What a message does beside `edit`: the request and its text stay. -/
structure Beside (con con' : Console) : Prop where
  stored : Stored con con'
  active : con'.rdActive = con.rdActive
  sender : con'.rdFrom = con.rdFrom
  buf : con'.rdBuf = con.rdBuf
  max : con'.rdMax = con.rdMax
  n : con'.rdN = con.rdN
  pos : con'.rdPos = con.rdPos
  esc : con'.esc = con.esc
  csi : con'.csiNum = con.csiNum
  lines : con'.lines = con.lines
  cells : con.rdActive = true → ∀ i < con.rdMax, con'.memory (con.rdBuf + i) = con.memory (con.rdBuf + i)

variable {con' : Console}

theorem Beside.sound (beside : Beside con con') (sound : Sound con) : Sound con' := by
  refine ⟨by rw [beside.stored.count]; exact sound.count,by rw [beside.stored.next]; exact sound.next,fun active => ?_⟩
  have inside := sound.reading (beside.active ▸ active)
  refine ⟨?_,?_,?_,?_,?_,?_⟩
  · rw [beside.pos,beside.n]
    exact inside.pos
  · rw [beside.n,beside.max]
    exact inside.room
  · rw [beside.max]
    exact inside.buffer
  · rw [beside.stored.count]
    exact inside.count
  · rw [beside.stored.next]
    exact inside.next
  · rw [beside.stored.nav,beside.stored.count]
    exact inside.nav

theorem Beside.text (beside : Beside con con') (inside : Inside con) (active : con.rdActive = true) : con'.textOf = con.textOf := by
  have same (i : Nat) (low : con.rdBuf ≤ i) (high : i < con.rdBuf + con.rdMax) : con'.memory i = con.memory i := by
    have cell := beside.cells active (i - con.rdBuf) (by omega)
    rwa [Nat.add_sub_cancel' low] at cell
  have pos := inside.pos
  have room := inside.room
  have left : con'.before = con.before := by
    rw [before,before,beside.buf,beside.pos]
    exact readCongr fun i low high => same i low (by omega)
  have right : con'.after = con.after := by
    rw [after,after,beside.buf,beside.pos,beside.n]
    exact readCongr fun i low high => same i (by omega) (by omega)
  obtain ⟨hist,lengths,count,next,nav,saved,savedN⟩ := beside.stored
  simp only [textOf,entry,slot,left,right,hist,lengths,count,next,nav,saved,savedN]

theorem Beside.serves (beside : Beside con con') (serving : Serves con server) : Serves con' server := by
  obtain ⟨hist,lengths,count,next,nav,saved,savedN⟩ := beside.stored
  refine ⟨beside.sound serving.sound,beside.lines.trans serving.lines,?_,?_,?_⟩
  · rw [← serving.history]
    simp only [textOf,entry,slot,hist,lengths,count,next]
  · rw [← serving.parked]
    simp only [textOf,saved,savedN]
  · have reader := serving.reader
    rcases reading : server.reader with _ | ⟨sender,room⟩
    · rw [reading] at reader
      exact beside.active.trans reader
    · rw [reading] at reader
      obtain ⟨active,asker,fits,small,text,parses⟩ := reader
      refine ⟨beside.active.trans active,beside.sender.trans asker,beside.max.trans fits,(Nat.le_of_eq beside.max).trans small,
        (beside.text (serving.sound.reading active) active).trans text,?_⟩
      unfold Parses at parses ⊢
      rw [beside.esc,beside.csi]
      exact parses

theorem editInside (turns : Nat) (sound : Sound con) : Sound (con.edit turns) := by
  induction turns generalizing con with
  | zero => exact sound
  | succ turns ih =>
    unfold edit
    split
    · rename_i active
      split
      · exact sound
      · rename_i c ring _
        have inside := sound.reading active
        obtain ⟨answer,typed⟩ := typesInside (inside.withRing ring) c
        exact ih ⟨typed.inside.count,typed.inside.next,fun _ => typed.inside⟩
    · exact sound

theorem editIdle (idle : con.rdActive = false) (turns : Nat) : con.edit turns = con := by
  cases turns with
  | zero => rfl
  | succ turns => rw [edit,idle]; rfl

theorem editTurn (active : con.rdActive = true) {c : Byte} {ring : Ring Byte 256} (popped : con.ring.pop = some (c,ring)) (turns : Nat) :
    con.edit (turns + 1) = edit turns ({ con with ring := ring }.editByte c) := by
  rw [edit,if_pos active,popped]

/- One byte of the queue, for both. -/
theorem servesByte (serving : Serves con server) {sender : Int} (reading : server.reader = some (sender,room)) {c : Byte} (ring : Ring Byte 256)
    (short : (server.editor.type room c).1.overlong = false) :
    Serves ({ con with ring := ring }.editByte c)
      { server with
        editor := (server.editor.type room c).1
        reader := if (server.editor.type room c).2.isNone then some (sender,room) else none
        answers := server.answers ++ ((server.editor.type room c).2.map fun line => (sender,line)).toList } ∧
    ({ con with ring := ring }.editByte c).ring = ring := by
  have reader := serving.reader
  rw [reading] at reader
  obtain ⟨active,asker,fits,small,matching⟩ := reader
  have inside := serving.sound.reading active
  have moved := inside.withRing ring
  have same : Matches { con with ring := ring } server.editor := ⟨matching.text,matching.parses⟩
  obtain ⟨typed,after⟩ := types moved fits small same short
  refine ⟨⟨⟨typed.inside.count,typed.inside.next,fun _ => typed.inside⟩,?_,?_,?_,?_⟩,typed.ring⟩
  · rw [typed.lines,serving.lines,List.map_append,asker]
    cases (server.editor.type room c).2 <;> rfl
  · rw [after.text]
  · rw [after.text]
  · have still := typed.active.trans (congrArg (fun busy => busy && (server.editor.type room c).2.isNone) active)
    cases answer : (server.editor.type room c).2 with
    | none =>
      rw [answer] at still
      exact ⟨still,typed.sender.trans asker,typed.max.trans fits,(Nat.le_of_eq typed.max).trans small,after⟩
    | some line =>
      rw [answer] at still
      exact still

/- The queue of the pure server, drained in step with the ring. -/
theorem serves (serving : Serves con server) {queue : List Byte} (same : con.ring.contents = queue)
    (short : (server.serve queue).editor.overlong = false) :
    Serves (con.edit queue.length) (server.serve queue) ∧ (con.edit queue.length).ring.contents = (server.serve queue).queue := by
  induction queue generalizing con server with
  | nil => exact ⟨⟨serving.sound,serving.lines,serving.history,serving.parked,serving.reader⟩,same⟩
  | cons c rest ih =>
    rcases reading : server.reader with _ | ⟨sender,room⟩
    · have idle : con.rdActive = false := by
        have reader := serving.reader
        rwa [reading] at reader
      rw [editIdle idle,LineServer.serveIdle reading]
      exact ⟨⟨serving.sound,serving.lines,serving.history,serving.parked,serving.reader⟩,same⟩
    · have active : con.rdActive = true := by
        have reader := serving.reader
        rw [reading] at reader
        exact reader.1
      obtain ⟨ring,popped,left⟩ := Ring.popSome same
      rw [LineServer.serveOpen reading] at short ⊢
      have now : (server.editor.type room c).1.overlong = false := by
        cases long : (server.editor.type room c).1.overlong with
        | false => rfl
        | true => exact (LineServer.serveOverlong long rest).symm.trans short
      obtain ⟨served,moved⟩ := servesByte serving reading ring now
      rw [List.length_cons,editTurn active popped]
      exact ih served ((congrArg Ring.contents moved).trans left) short

theorem pushes (ring : Ring Byte 256) (waiting : List Byte) : (ring.pushAll waiting).contents = LineServer.enqueue ring.contents waiting := by
  induction waiting generalizing ring with
  | nil => rfl
  | cons c waiting ih =>
    have pushed := Ring.pushContents ring c
    have room : ring.used + 1 < 256 ↔ ring.contents.length < 255 := by
      rw [Ring.contentsLength]
      omega
    simp only [room] at pushed
    exact (ih (ring.push c)).trans (by rw [pushed]; rfl)

theorem drainBeside (con : Console) (waiting : List Byte) : Beside con (con.drainRx waiting) :=
  ⟨⟨rfl,rfl,rfl,rfl,rfl,rfl,rfl⟩,rfl,rfl,rfl,rfl,rfl,rfl,rfl,rfl,rfl,fun _ _ _ => rfl⟩

theorem writeBeside (con : Console) (sender : Int) (data0 data1 : Nat) : Beside con (con.arrive (.write sender data0 data1)) :=
  ⟨⟨rfl,rfl,rfl,rfl,rfl,rfl,rfl⟩,rfl,rfl,rfl,rfl,rfl,rfl,rfl,rfl,rfl,fun _ _ _ => rfl⟩

theorem clientsBeside {memory : Buffer Byte} (enabled : consoleSystem.enabled con (.clients memory)) :
    Beside con (con.arrive (.clients memory)) :=
  ⟨⟨rfl,rfl,rfl,rfl,rfl,rfl,rfl⟩,rfl,rfl,rfl,rfl,rfl,rfl,rfl,rfl,rfl,enabled⟩

/- A message, for both; the queue is drained when `edit` runs. -/
structure Follows (con : Console) (server : LineServer) : Prop where
  serving : Serves con server
  queue : con.ring.contents = server.queue

theorem Follows.drain (follows : Follows con server) (short : (server.serve server.queue).editor.overlong = false) :
    Follows (con.edit con.ring.used) (server.serve server.queue) := by
  have drained := serves follows.serving follows.queue short
  rw [← Ring.contentsLength,follows.queue]
  exact ⟨drained.1,drained.2⟩

theorem readlineFollows (follows : Follows con server) (sender : Int) (data0 data1 : Nat) (least : 1 ≤ unsigned data1) (most : unsigned data1 ≤ 128) :
    Follows (con.takeRequest sender data0 data1)
      { server with
        reader := some (sender,unsigned data1 - 1)
        editor := { server.editor with text := { server.editor.text with left := [], right := [], depth := 0 }, parser := .ground } } := by
  obtain ⟨⟨sound,lines,history,parked,_⟩,queue⟩ := follows
  have inside : Inside (con.takeRequest sender data0 data1) :=
    ⟨Nat.le_refl 0,least,Nat.mod_lt _ (by decide),sound.count,sound.next,Nat.zero_le _⟩
  refine ⟨⟨⟨sound.count,sound.next,fun _ => inside⟩,lines,history,parked,rfl,rfl,(Nat.sub_add_cancel least).symm,most,?_,rfl⟩,queue⟩
  have blank : (con.takeRequest sender data0 data1).textOf = { con.textOf with left := [], right := [], depth := 0 } := rfl
  exact blank.trans (by simp only [history,parked])

theorem handled (follows : Follows con server) {event : ConsoleEvent} (enabled : consoleSystem.enabled con event) (single : event.oneAtATime con)
    (short : (server.handle event).editor.overlong = false) : Follows (con.handle event) (server.handle event) := by
  obtain ⟨serving,queue⟩ := follows
  cases event with
  | irq waiting =>
    have served := (con.drainBeside waiting).serves serving
    have pushed : Follows (con.drainRx waiting) { server with queue := LineServer.enqueue server.queue waiting } :=
      ⟨⟨served.sound,served.lines,served.history,served.parked,served.reader⟩,
        (pushes _ _).trans (congrArg (LineServer.enqueue · waiting) queue)⟩
    exact pushed.drain short
  | write sender data0 data1 => exact ⟨(con.writeBeside sender data0 data1).serves serving,queue⟩
  | readline sender data0 data1 =>
    obtain ⟨_,least,most⟩ := single
    exact (readlineFollows ⟨serving,queue⟩ sender data0 data1 least most).drain short
  | clients memory => exact ⟨(clientsBeside enabled).serves serving,queue⟩

theorem handleOverlong (long : server.editor.overlong = true) (event : ConsoleEvent) : (server.handle event).editor.overlong = true := by
  cases event with
  | irq waiting =>
    have marked : { server with queue := LineServer.enqueue server.queue waiting }.editor.overlong = true := long
    exact LineServer.serveOverlong marked _
  | write sender data0 data1 => exact long
  | readline sender data0 data1 =>
    have marked : { server with
        reader := some (sender,unsigned data1 - 1)
        editor := { server.editor with
          text := { server.editor.text with left := [], right := [], depth := 0 }, parser := .ground } }.editor.overlong = true := long
    exact LineServer.serveOverlong marked _
  | clients memory => exact long

theorem runOverlong (long : server.editor.overlong = true) (events : List ConsoleEvent) :
    (events.foldl LineServer.handle server).editor.overlong = true := by
  induction events generalizing server with
  | nil => exact long
  | cons event events ih => exact ih (handleOverlong long event)

theorem bootFollows (memory : Buffer Byte) (waiting : List Byte) (self : Nat) : Follows (boot memory waiting self) (.boot waiting) := by
  refine ⟨⟨⟨Nat.zero_le _,Nat.zero_lt_succ _,?_⟩,rfl,rfl,rfl,rfl⟩,pushes _ _⟩
  intro active
  cases active

theorem runFollows (follows : Follows con server) {events : List ConsoleEvent} (admits : Admits consoleSystem (fun con event => event.oneAtATime con) con events)
    (short : (events.foldl LineServer.handle server).editor.overlong = false) :
    Follows (run consoleSystem con events) (events.foldl LineServer.handle server) := by
  induction events generalizing con server with
  | nil => exact follows
  | cons event events ih =>
    obtain ⟨enabled,single,rest⟩ := admits
    rw [List.foldl_cons] at short ⊢
    have now : (server.handle event).editor.overlong = false := by
      cases long : (server.handle event).editor.overlong with
      | false => rfl
      | true => exact (runOverlong long events).symm.trans short
    exact ih (handled follows enabled single now) rest short

/- The bounds hold after every turn of the loop of `edit`. -/
theorem duringSound (sound : Sound con) {event : ConsoleEvent} (enabled : consoleSystem.enabled con event) (roomy : event.roomy)
    (turns : Nat) : Sound (con.during event turns) := by
  cases event with
  | irq waiting => exact editInside turns ((con.drainBeside waiting).sound sound)
  | write sender data0 data1 => exact (con.writeBeside sender data0 data1).sound sound
  | readline sender data0 data1 =>
    have inside : Inside (con.takeRequest sender data0 data1) :=
      ⟨Nat.le_refl 0,roomy,Nat.mod_lt _ (by decide),sound.count,sound.next,Nat.zero_le _⟩
    exact editInside turns ⟨sound.count,sound.next,fun _ => inside⟩
  | clients memory => exact (clientsBeside enabled).sound sound

end Console

/- The replies are the lines that the pure server answers, and the indices stay inside
the line, the line inside the client's buffer. -/
theorem readsLines (memory : Buffer Byte) (waiting : List Byte) (self : Nat) (events : List ConsoleEvent)
    (single : Admits consoleSystem (fun con event => event.oneAtATime con) (.boot memory waiting self) events)
    (short : (events.foldl LineServer.handle (.boot waiting)).editor.overlong = false) :
    (run consoleSystem (.boot memory waiting self) events).lines =
      (events.foldl LineServer.handle (.boot waiting)).answers.map (fun answer => ⟨answer.1,answer.2.length,answer.2 ++ [0]⟩) ∧
    ∀ event turns, consoleSystem.enabled (run consoleSystem (.boot memory waiting self) events) event →
      event.oneAtATime (run consoleSystem (.boot memory waiting self) events) →
      let con := (run consoleSystem (.boot memory waiting self) events).during event turns
      con.rdActive = true → con.rdPos ≤ con.rdN ∧ con.rdN ≤ con.rdMax - 1 := by
  have follows := Console.runFollows (Console.bootFollows memory waiting self) single short
  refine ⟨follows.serving.lines,?_⟩
  intro event turns enabled once con active
  have roomy : event.roomy := by
    cases event with
    | readline sender data0 data1 => exact once.2.1
    | irq _ | write _ _ _ | clients _ => trivial
  have inside := (Console.duringSound follows.serving.sound enabled roomy turns).reading active
  exact ⟨inside.pos,Nat.le_pred_of_lt inside.room⟩

/- A line edited in the middle, and the same line recalled from the history. -/
def twoLines : List ConsoleEvent :=
  [.readline 5 1000 128,.irq (asciiText "ab" ++ [0x1b] ++ asciiText "[Dc"),.irq [13],.irq ([0x1b] ++ asciiText "[A!"),
    .readline 6 2000 5,.irq [10]]

theorem readsTwoLines :
    (run consoleSystem (.boot (fun _ => 0) [] 1) twoLines).lines =
      [⟨5,3,asciiText "acb" ++ [0]⟩,⟨6,4,asciiText "acb!" ++ [0]⟩] ∧
    (run consoleSystem (.boot (fun _ => 0) [] 1) twoLines).lines =
      (twoLines.foldl LineServer.handle (.boot [])).answers.map (fun answer => ⟨answer.1,answer.2.length,answer.2 ++ [0]⟩) := by
  have reads := readsLines (fun _ => 0) [] 1 twoLines (by decide +kernel) (by decide +kernel)
  exact ⟨reads.1.trans (by decide +kernel),reads.1⟩

end Mukern
