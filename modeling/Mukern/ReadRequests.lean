import Mukern.LineRefinement
import Mukern.VgaTerminal
import Mukern.ReadLines
import Mukern.Library.Desk

/-! Who gets an answer to `MSG_READLINE`. Both terminal servers keep one pending request
in globals and overwrite it when another comes; as long as none comes too early, every
request is answered once, at the first line that ends after it. -/
namespace Mukern
open Buffers Transition

/- The escape parser, as `edit` moves it. -/
def Esc.next (esc : Esc) (c : Byte) : Esc :=
  match esc with
  | .sawEsc => if c = ascii '[' ∨ c = ascii 'O' then .inCsi else .normal
  | .inCsi => if ascii '0' ≤ c ∧ c ≤ ascii '9' then .inCsi else .normal
  | .normal => if c = 0x1b then .sawEsc else .normal

/- A terminator that is not swallowed by an escape sequence: CR, LF or Ctrl-C. -/
def Esc.ends (esc : Esc) (c : Byte) : Prop := esc = .normal ∧ (c = 13 ∨ c = 10 ∨ c = 3)

instance (esc : Esc) (c : Byte) : Decidable (esc.ends c) := inferInstanceAs (Decidable (_ ∧ _))

/- Some byte of the text ends the line. -/
def Esc.completes : Esc → List Byte → Prop
  | _, [] => False
  | esc, c :: text => esc.ends c ∨ (esc.next c).completes text

namespace Console
variable {con con' : Console} {c : Byte}

/- What a command leaves alone; the parked line never outgrows `h_saved`. -/
structure Edited (con con' : Console) : Prop where
  framed : Framed con con'
  lengths : con'.histLen = con.histLen
  saved : con.hSavedN ≤ 127 → con'.hSavedN ≤ 127

theorem Edited.refl : Edited con con := ⟨.refl,rfl,id⟩

theorem Edited.trans {con'' : Console} (first : Edited con con') (second : Edited con' con'') : Edited con con'' :=
  ⟨first.framed.trans second.framed,second.lengths.trans first.lengths,second.saved ∘ first.saved⟩

/- Most of the commands write only the line, the cursor and to the terminal. -/
theorem lineEdited (con : Console) (memory : Buffer Byte) (n pos : Nat) (uart : List Byte) :
    Edited con { con with memory := memory, rdN := n, rdPos := pos, uart := uart } :=
  ⟨⟨rfl,rfl,rfl,rfl,rfl,rfl,rfl,rfl,rfl⟩,rfl,id⟩

theorem iterateEdited {f : Console → Console} (step : ∀ con, Edited con (f con)) (n : Nat) (con : Console) : Edited con (f^[n] con) := by
  induction n generalizing con with
  | zero => exact .refl
  | succ n ih => exact (step con).trans (ih (f con))

theorem goLeftEdited (con : Console) : Edited con con.goLeft := by
  unfold goLeft
  split
  · exact con.lineEdited _ _ _ _
  · exact .refl

theorem goRightEdited (con : Console) : Edited con con.goRight := by
  unfold goRight
  split
  · exact con.lineEdited _ _ _ _
  · exact .refl

theorem goEndEdited (con : Console) : Edited con con.goEnd := iterateEdited goRightEdited _ _

theorem eraseEdited (con : Console) : Edited con con.goEnd.eraseLine :=
  con.goEndEdited.trans (iterateEdited (fun con => con.lineEdited _ _ _ _) _ _)

theorem setLineEdited (con : Console) (s : Buffer Byte) (n : Nat) : Edited con (con.setLine s n) :=
  con.eraseEdited.trans (lineEdited _ _ _ _ _)

theorem parkEdited (con : Console) : Edited con con.parkLine := by
  refine ⟨⟨rfl,rfl,rfl,rfl,rfl,rfl,rfl,rfl,rfl⟩,rfl,fun _ => ?_⟩
  change (if con.rdN < 128 then con.rdN else 128 - 1) ≤ 127
  split <;> omega

theorem histNavEdited (con : Console) (delta : Int) : Edited con (con.histNav delta) := by
  have moved (saved : Console) (same : Edited con saved) (nav : Nat) : Edited con { saved with hNav := nav } :=
    same.trans ⟨⟨rfl,rfl,rfl,rfl,rfl,rfl,rfl,rfl,rfl⟩,rfl,id⟩
  have parked (p : Prop) [Decidable p] : Edited con (if p then con.parkLine else con) := by
    split
    · exact con.parkEdited
    · exact .refl
  unfold histNav
  generalize (con.hNav : Int) + (if delta < 0 then 1 else -1) = nav
  simp only
  split
  · exact .refl
  · split <;> exact (moved _ (parked _) _).trans (setLineEdited _ _ _)

/- In any state and for any size of the buffer. -/
theorem performEdited (con : Console) (k : LineCommand) : Edited con (con.perform k) := by
  cases k with
  | insert c =>
    simp only [perform,insChar]
    split
    · exact .refl
    · exact con.lineEdited _ _ _ _
  | deleteLeft =>
    simp only [perform,delLeft]
    split
    · exact .refl
    · exact con.lineEdited _ _ _ _
  | deleteAt =>
    simp only [perform,delAt]
    split
    · exact .refl
    · exact con.lineEdited _ _ _ _
  | left => exact con.goLeftEdited
  | right => exact con.goRightEdited
  | home => exact iterateEdited goLeftEdited _ _
  | toEnd => exact con.goEndEdited
  | kill => exact con.eraseEdited.trans (lineEdited _ _ _ _ _)
  | older => exact con.histNavEdited (-1)
  | newer => exact con.histNavEdited 1
  | nothing => exact .refl

theorem histPushFramed (con : Console) (s n : Nat) : Framed con (con.histPush s n) := by
  unfold histPush
  split
  · exact .refl
  · simp only
    split
    · exact .refl
    · exact ⟨rfl,rfl,rfl,rfl,rfl,rfl,rfl,rfl,rfl⟩

def receivers (con : Console) : List Int := con.lines.map LineReply.receiver

theorem finishAnswers (con : Console) : con.finishLine.rdActive = false ∧ con.finishLine.receivers = con.receivers ++ [con.rdFrom] := by
  have framed := con.terminated.histPushFramed con.rdBuf con.rdN
  have lines : con.finishLine.receivers = (con.terminated.histPush con.rdBuf con.rdN).receivers ++
      [(con.terminated.histPush con.rdBuf con.rdN).rdFrom] := List.map_append
  refine ⟨rfl,?_⟩
  rw [lines,receivers,framed.lines,framed.sender]
  rfl

theorem keyEnds (key : LineKey.ofByte c = .accept ∨ LineKey.ofByte c = .cancel) : c = 13 ∨ c = 10 ∨ c = 3 := by
  rcases key with key | key
  · cases key ▸ LineKey.typedBy c with
    | accept enter => exact enter.imp_right .inl
  · cases key ▸ LineKey.typedBy c with
    | cancel interrupt => exact .inr (.inr interrupt)

theorem keyStays {k : LineCommand} (key : LineKey.ofByte c = .command k) : ¬ (c = 13 ∨ c = 10 ∨ c = 3) ∧ c ≠ 0x1b := by
  constructor
  · rintro (rfl | rfl | rfl) <;> cases key
  · rintro rfl
    cases key

/- What a byte does to the request. -/
theorem byteServes (con : Console) (c : Byte) :
    (con.esc.ends c ∧ (con.editByte c).rdActive = false ∧ (con.editByte c).receivers = con.receivers ++ [con.rdFrom]) ∨
    (¬ con.esc.ends c ∧ (con.editByte c).rdActive = con.rdActive ∧ (con.editByte c).rdFrom = con.rdFrom ∧
      (con.editByte c).receivers = con.receivers ∧ (con.editByte c).ring = con.ring ∧ (con.editByte c).esc = con.esc.next c) := by
  have inside {esc : Esc} (escaped : esc ≠ .normal) : ¬ esc.ends c := fun ends => escaped ends.1
  rcases esc : con.esc with _ | _ | _
  · simp only [editByte,esc,normalKeyIs]
    rcases key : LineKey.ofByte c with k | _ | _ | _
    · have framed := (con.performEdited k).framed
      obtain ⟨open',plain⟩ := keyStays key
      refine .inr ⟨fun ends => open' ends.2,framed.active,framed.sender,congrArg (List.map LineReply.receiver) framed.lines,framed.ring,?_⟩
      rw [framed.esc,esc,Esc.next,if_neg plain]
    · have start : c = 0x1b := by
        cases key ▸ LineKey.typedBy c with
        | escape start => exact start
      subst start
      exact .inr ⟨by decide,rfl,rfl,rfl,rfl,rfl⟩
    · exact .inl ⟨⟨rfl,keyEnds (.inl key)⟩,con.finishAnswers⟩
    · exact .inl ⟨⟨rfl,keyEnds (.inr key)⟩,con.emptied.finishAnswers⟩
  · simp only [editByte,esc]
    exact .inr ⟨inside (by decide),rfl,rfl,rfl,rfl,rfl⟩
  · simp only [editByte,esc,insideCsi,Esc.next]
    split
    · exact .inr ⟨inside (by decide),rfl,rfl,rfl,rfl,rfl⟩
    · rw [csiFinalIs]
      have framed := (con.performEdited (.ofCsi con.csiNum.toNat c)).framed
      exact .inr ⟨inside (by decide),framed.active,framed.sender,congrArg (List.map LineReply.receiver) framed.lines,framed.ring,rfl⟩

/- What the loop does to the request: the first terminator answers it, and without one
the whole ring is consumed. -/
theorem editServes (active : con.rdActive = true) {text : List Byte} (waiting : con.ring.contents = text) :
    (con.esc.completes text ∧ (con.edit text.length).rdActive = false ∧ (con.edit text.length).receivers = con.receivers ++ [con.rdFrom]) ∨
    (¬ con.esc.completes text ∧ (con.edit text.length).rdActive = true ∧ (con.edit text.length).rdFrom = con.rdFrom ∧
      (con.edit text.length).receivers = con.receivers ∧ (con.edit text.length).ring.contents = []) := by
  induction text generalizing con with
  | nil => exact .inr ⟨id,active,rfl,rfl,waiting⟩
  | cons c text ih =>
    obtain ⟨ring,popped,left⟩ := Ring.popSome waiting
    rw [List.length_cons,editTurn active popped]
    rcases byteServes { con with ring := ring } c with ⟨ends,closed,answered⟩ | ⟨stays,still,sender,same,rest,esc⟩
    · rw [editIdle closed]
      exact .inl ⟨.inl ends,closed,answered⟩
    · have next := ih (still.trans active) ((congrArg Ring.contents rest).trans left)
      rw [esc,sender,same] at next
      rcases next with ⟨completes,done⟩ | ⟨open',done⟩
      · exact .inl ⟨.inr completes,done⟩
      · exact .inr ⟨fun completes => completes.elim stays open',done⟩

/- The driver as a desk for line requests. -/
def desk : Desk Console ConsoleEvent Int where
  asks
    | .readline sender _ _ => some sender
    | .irq _ | .write _ _ _ | .clients _ => none
  held con := if con.rdActive then some con.rdFrom else none
  answered := receivers

theorem heldActive (active : con.rdActive = true) : desk.held con = some con.rdFrom := if_pos active

theorem heldIdle (idle : con.rdActive = false) : desk.held con = none := by
  simp only [desk,idle]
  rfl

/- `edit` with a request open, as a step of the desk. -/
theorem editDesk (con : Console) (active : con.rdActive = true) :
    (desk.held (con.edit con.ring.used) = some con.rdFrom ∧ (con.edit con.ring.used).receivers = con.receivers) ∨
    ∃ k, some con.rdFrom = some k ∧ desk.held (con.edit con.ring.used) = none ∧ (con.edit con.ring.used).receivers = con.receivers ++ [k] := by
  rw [← Ring.contentsLength]
  rcases editServes active rfl with ⟨_,closed,answered⟩ | ⟨_,still,sender,same,_⟩
  · exact .inr ⟨_,rfl,heldIdle closed,answered⟩
  · exact .inl ⟨(heldActive still).trans (congrArg some sender),same⟩

theorem deskServes (con : Console) (event : ConsoleEvent) : desk.Serves consoleSystem con event := by
  cases event with
  | irq waiting =>
    cases active : con.rdActive with
    | true =>
      have opened : desk.opened con (.irq waiting) = some con.rdFrom := heldActive active
      unfold Desk.Serves
      rw [opened]
      exact editDesk (con.drainRx waiting) active
    | false =>
      have idle : (con.drainRx waiting).rdActive = false := active
      have same : consoleSystem.next con (.irq waiting) = con.drainRx waiting := editIdle idle _
      unfold Desk.Serves
      rw [same]
      exact .inl ⟨rfl,rfl⟩
  | write sender data0 data1 => exact .inl ⟨rfl,rfl⟩
  | readline sender data0 data1 => exact editDesk (con.takeRequest sender data0 data1) rfl
  | clients memory => exact .inl ⟨rfl,rfl⟩

/- A request stays open exactly as long as no terminator has been read. -/
theorem editCloses (active : con.rdActive = true) : (con.edit con.ring.used).rdActive = false ↔ con.esc.completes con.ring.contents := by
  rw [← Ring.contentsLength]
  rcases editServes active rfl with ⟨completes,closed,_⟩ | ⟨open',still,_⟩
  · exact ⟨fun _ => completes,fun _ => closed⟩
  · exact ⟨fun closed => absurd (still.symm.trans closed) (by decide),fun completes => absurd completes open'⟩

end Console
namespace VgaTerminal
variable {term : VgaTerminal}

/- Drawing on the screen leaves the request and the keys alone. -/
structure Drawn (term term' : VgaTerminal) : Prop where
  kr : term'.kr = term.kr
  active : term'.rdActive = term.rdActive
  sender : term'.rdFrom = term.rdFrom
  lines : term'.lines = term.lines

theorem Drawn.refl : Drawn term term := ⟨rfl,rfl,rfl,rfl⟩

theorem nextRowDrawn (term : VgaTerminal) : Drawn term term.nextRow := by
  unfold nextRow
  simp only
  split <;> exact ⟨rfl,rfl,rfl,rfl⟩

theorem vgaPutcDrawn (term : VgaTerminal) (c : Byte) : Drawn term (term.vgaPutc c) := by
  unfold vgaPutc
  split
  · exact term.nextRowDrawn
  · split
    · simp only
      split <;> exact ⟨rfl,rfl,rfl,rfl⟩
    · split
      · exact ⟨rfl,rfl,rfl,rfl⟩
      · simp only
        split
        · obtain ⟨kr,active,sender,lines⟩ :=
            nextRowDrawn { term with vga := term.vga.set (term.curR * 80 + term.curC) (vgaCell c), curC := term.curC + 1 }
          exact ⟨kr,active,sender,lines⟩
        · exact ⟨rfl,rfl,rfl,rfl⟩

theorem vgaPutsDrawn (term : VgaTerminal) (text : List Byte) : Drawn term (term.vgaPuts text) := by
  induction text generalizing term with
  | nil => exact .refl
  | cons c text ih =>
    obtain ⟨kr,active,sender,lines⟩ := ih (term.vgaPutc c)
    obtain ⟨kr',active',sender',lines'⟩ := term.vgaPutcDrawn c
    exact ⟨kr.trans kr',active.trans active',sender.trans sender',lines.trans lines'⟩

theorem kbdDrainKeeps (term : VgaTerminal) (sc : Byte) :
    (term.kbdDrain sc).rdActive = term.rdActive ∧ (term.kbdDrain sc).rdFrom = term.rdFrom ∧ (term.kbdDrain sc).lines = term.lines := by
  unfold kbdDrain
  split
  · exact ⟨rfl,rfl,rfl⟩
  · split
    · exact ⟨rfl,rfl,rfl⟩
    · split
      · exact ⟨rfl,rfl,rfl⟩
      · split
        · exact ⟨rfl,rfl,rfl⟩
        · generalize (if term.shift then mapHi else mapLo).getD sc.toNat 0 = c
          simp only
          split <;> exact ⟨rfl,rfl,rfl⟩

def receivers (term : VgaTerminal) : List Int := term.lines.map LineReply.receiver

/- What a key does to the request. -/
theorem keyServes (term : VgaTerminal) (c : Byte) :
    (c = 10 ∧ (term.editKey c).rdActive = false ∧ (term.editKey c).receivers = term.receivers ++ [term.rdFrom]) ∨
    (c ≠ 10 ∧ (term.editKey c).rdActive = term.rdActive ∧ (term.editKey c).rdFrom = term.rdFrom ∧
      (term.editKey c).receivers = term.receivers ∧ (term.editKey c).kr = term.kr) := by
  unfold editKey
  split
  · rename_i enter
    have drawn := term.vgaPutcDrawn 10
    refine .inl ⟨enter,rfl,?_⟩
    simp only [receivers,List.map_append,List.map_singleton,drawn.lines,drawn.sender]
  · rename_i other
    have kept {drawing term' : VgaTerminal} (same : Drawn drawing term') (start : Drawn term drawing) :
        term'.rdActive = term.rdActive ∧ term'.rdFrom = term.rdFrom ∧ term'.receivers = term.receivers ∧ term'.kr = term.kr :=
      ⟨same.active.trans start.active,same.sender.trans start.sender,congrArg (List.map LineReply.receiver) (same.lines.trans start.lines),
        same.kr.trans start.kr⟩
    split
    · split
      · exact .inr ⟨other,kept (vgaPutcDrawn _ _) ⟨rfl,rfl,rfl,rfl⟩⟩
      · exact .inr ⟨other,rfl,rfl,rfl,rfl⟩
    · split
      · exact .inr ⟨other,kept (vgaPutcDrawn _ _) ⟨rfl,rfl,rfl,rfl⟩⟩
      · exact .inr ⟨other,rfl,rfl,rfl,rfl⟩

theorem editIdle (idle : term.rdActive = false) (turns : Nat) : term.edit turns = term := by
  cases turns with
  | zero => rfl
  | succ turns => rw [edit,idle]; rfl

theorem editServes (active : term.rdActive = true) {keys : List Byte} (waiting : term.kr.contents = keys) :
    (10 ∈ keys ∧ (term.edit keys.length).rdActive = false ∧ (term.edit keys.length).receivers = term.receivers ++ [term.rdFrom]) ∨
    (10 ∉ keys ∧ (term.edit keys.length).rdActive = true ∧ (term.edit keys.length).rdFrom = term.rdFrom ∧
      (term.edit keys.length).receivers = term.receivers ∧ (term.edit keys.length).kr.contents = []) := by
  induction keys generalizing term with
  | nil => exact .inr ⟨nofun,active,rfl,rfl,waiting⟩
  | cons c keys ih =>
    obtain ⟨kr,popped,left⟩ := Ring.popSome waiting
    rw [List.length_cons,edit,if_pos active,popped]
    simp only
    rcases keyServes { term with kr := kr } c with ⟨rfl,closed,answered⟩ | ⟨other,still,sender,same,rest⟩
    · rw [editIdle closed]
      exact .inl ⟨List.mem_cons_self,closed,answered⟩
    · have next := ih (still.trans active) ((congrArg Ring.contents rest).trans left)
      rw [sender,same] at next
      rcases next with ⟨enter,done⟩ | ⟨none,done⟩
      · exact .inl ⟨List.mem_cons_of_mem _ enter,done⟩
      · exact .inr ⟨fun member => (List.mem_cons.mp member).elim (fun first => other first.symm) none,done⟩

def desk : Desk VgaTerminal VgaEvent Int where
  asks
    | .readline sender _ _ => some sender
    | .irq _ | .write _ _ _ | .clients _ => none
  held term := if term.rdActive then some term.rdFrom else none
  answered := receivers

theorem heldActive (active : term.rdActive = true) : desk.held term = some term.rdFrom := if_pos active

theorem heldIdle (idle : term.rdActive = false) : desk.held term = none := by
  simp only [desk,idle]
  rfl

theorem editDesk (term : VgaTerminal) (active : term.rdActive = true) :
    (desk.held (term.edit term.kr.used) = some term.rdFrom ∧ (term.edit term.kr.used).receivers = term.receivers) ∨
    ∃ k, some term.rdFrom = some k ∧ desk.held (term.edit term.kr.used) = none ∧
      (term.edit term.kr.used).receivers = term.receivers ++ [k] := by
  rw [← Ring.contentsLength]
  rcases editServes active rfl with ⟨_,closed,answered⟩ | ⟨_,still,sender,same,_⟩
  · exact .inr ⟨_,rfl,heldIdle closed,answered⟩
  · exact .inl ⟨(heldActive still).trans (congrArg some sender),same⟩

theorem deskServes (term : VgaTerminal) (event : VgaEvent) : desk.Serves vgaSystem term event := by
  cases event with
  | irq sc =>
    obtain ⟨active,sender,lines⟩ := term.kbdDrainKeeps sc
    have held : desk.held (term.kbdDrain sc) = desk.held term := by simp only [desk,active,sender]
    have answered : (term.kbdDrain sc).receivers = term.receivers := by rw [receivers,receivers,lines]
    have opened : desk.opened term (.irq sc) = desk.held (term.kbdDrain sc) := held.symm
    unfold Desk.Serves
    rw [opened]
    have served := (term.kbdDrain sc).editDesk
    cases reading : (term.kbdDrain sc).rdActive with
    | true =>
      have done := served reading
      rw [answered] at done
      rw [heldActive reading]
      exact done
    | false =>
      have same : vgaSystem.next term (.irq sc) = term.kbdDrain sc := editIdle reading _
      rw [same]
      exact .inl ⟨rfl,answered⟩
  | write sender data0 data1 =>
    obtain ⟨kr,active,sender',lines⟩ := term.vgaPutsDrawn (read term.memory data0 (unsigned data1))
    refine .inl ⟨?_,congrArg (List.map LineReply.receiver) lines⟩
    have held : desk.held (term.handle (.write sender data0 data1)) = desk.held term := by
      simp only [desk,handle,arrive,active,sender']
    exact held
  | readline sender data0 data1 => exact editDesk (term.takeRequest sender data0 data1) rfl
  | clients memory => exact .inl ⟨rfl,rfl⟩

theorem editCloses (active : term.rdActive = true) : (term.edit term.kr.used).rdActive = false ↔ 10 ∈ term.kr.contents := by
  rw [← Ring.contentsLength]
  rcases editServes active rfl with ⟨enter,closed,_⟩ | ⟨none,still,_⟩
  · exact ⟨fun _ => enter,fun _ => closed⟩
  · exact ⟨fun closed => absurd (still.symm.trans closed) (by decide),fun enter => absurd enter none⟩

end VgaTerminal
/- Both servers: while requests come one at a time, the clients that have their reply are,
in order, those that asked, but for the last one while its request is open. A request
stays open exactly until a terminator has been read. -/
theorem requestsAnswered (memory : Buffer Byte) (waiting : List Byte) (self : Nat) (events : List ConsoleEvent)
    (free : Admits consoleSystem Console.desk.Free (.boot memory waiting self) events)
    (screen : Buffer (BitVec 16)) (vgaEvents : List VgaEvent) (vgaFree : Admits vgaSystem VgaTerminal.desk.Free (.boot screen memory) vgaEvents) :
    let con := run consoleSystem (.boot memory waiting self) events
    let term := run vgaSystem (.boot screen memory) vgaEvents
    (con.receivers ++ (if con.rdActive then [con.rdFrom] else []) = events.filterMap Console.desk.asks ∧
      (∀ bytes, con.rdActive = true → ((con.handle (.irq bytes)).rdActive = false ↔ con.esc.completes (con.ring.pushAll bytes).contents)) ∧
      ∀ sender data0 data1, (con.handle (.readline sender data0 data1)).rdActive = false ↔ Esc.normal.completes con.ring.contents) ∧
    (term.receivers ++ (if term.rdActive then [term.rdFrom] else []) = vgaEvents.filterMap VgaTerminal.desk.asks ∧
      (∀ sc, term.rdActive = true → ((term.handle (.irq sc)).rdActive = false ↔ 10 ∈ (term.kbdDrain sc).kr.contents)) ∧
      ∀ sender data0 data1, (term.handle (.readline sender data0 data1)).rdActive = false ↔ 10 ∈ term.kr.contents) := by
  intro con term
  have accounts : con.receivers ++ (Console.desk.held con).toList = [] ++ events.filterMap Console.desk.asks :=
    Desk.runAccounts Console.deskServes free
  have noLines : (VgaTerminal.boot screen memory).lines = [] := (VgaTerminal.vgaPutsDrawn _ _).lines
  have noReader : (VgaTerminal.boot screen memory).rdActive = false := (VgaTerminal.vgaPutsDrawn _ _).active
  have vgaAccounts : term.receivers ++ (VgaTerminal.desk.held term).toList = [] ++ vgaEvents.filterMap VgaTerminal.desk.asks := by
    have start : VgaTerminal.desk.answered (.boot screen memory) ++ (VgaTerminal.desk.held (.boot screen memory)).toList = [] := by
      rw [VgaTerminal.heldIdle noReader]
      simp only [VgaTerminal.desk,VgaTerminal.receivers,noLines,List.map_nil,Option.toList_none,List.append_nil]
    rw [← start]
    exact Desk.runAccounts VgaTerminal.deskServes vgaFree
  refine ⟨⟨?_,fun bytes active => ?_,fun sender data0 data1 => ?_⟩,?_,fun sc active => ?_,fun sender data0 data1 => ?_⟩
  · rw [List.nil_append] at accounts
    rw [← accounts]
    cases reading : con.rdActive with
    | true => rw [Console.heldActive reading]; rfl
    | false => rw [Console.heldIdle reading]; rfl
  · have reading : (con.drainRx bytes).rdActive = true := active
    exact Console.editCloses reading
  · have reading : (con.takeRequest sender data0 data1).rdActive = true := rfl
    exact Console.editCloses reading
  · rw [List.nil_append] at vgaAccounts
    rw [← vgaAccounts]
    cases reading : term.rdActive with
    | true => rw [VgaTerminal.heldActive reading]; rfl
    | false => rw [VgaTerminal.heldIdle reading]; rfl
  · exact VgaTerminal.editCloses ((term.kbdDrainKeeps sc).1.trans active)
  · have reading : (term.takeRequest sender data0 data1).rdActive = true := rfl
    exact VgaTerminal.editCloses reading

instance (con : Console) (event : ConsoleEvent) : Decidable (Console.desk.Free con event) := inferInstanceAs (Decidable (_ → _))

instance (term : VgaTerminal) (event : VgaEvent) : Decidable (VgaTerminal.desk.Free term event) := inferInstanceAs (Decidable (_ → _))

/- Two clients, the second asking when the first has its line. -/
def takingTurns : List ConsoleEvent := [.readline 5 1000 128,.irq [13],.readline 6 2000 128,.irq [13]]

def takingTurnsVga : List VgaEvent := [.readline 5 1000 128,.irq 0x1c,.readline 6 2000 128,.irq 0x1c]

theorem requestsAnsweredTwice :
    (run consoleSystem (.boot (fun _ => 0) [] 1) takingTurns).receivers = [5,6] ∧
    (run vgaSystem (.boot (fun _ => 0) fun _ => 0) takingTurnsVga).receivers = [5,6] := by
  have answered := requestsAnswered (fun _ => 0) [] 1 takingTurns (by decide +kernel) (fun _ => 0) takingTurnsVga (by decide +kernel)
  obtain ⟨⟨serial,_⟩,vga,_⟩ := answered
  have closed : (run consoleSystem (.boot (fun _ => 0) [] 1) takingTurns).rdActive = false := by decide +kernel
  have vgaClosed : (run vgaSystem (.boot (fun _ => 0) fun _ => 0) takingTurnsVga).rdActive = false := by decide +kernel
  rw [closed] at serial
  rw [vgaClosed] at vga
  exact ⟨(List.append_nil _).symm.trans (serial.trans (by decide +kernel)),(List.append_nil _).symm.trans (vga.trans (by decide +kernel))⟩

/- The second asks while the first waits. -/
def interrupting : List ConsoleEvent := [.readline 5 1000 128,.readline 6 2000 128,.irq [13],.irq [13],.irq [13]]

def interruptingVga : List VgaEvent := [.readline 5 1000 128,.readline 6 2000 128,.irq 0x1c,.irq 0x1c,.irq 0x1c]

/- Three terminators, and the first client never hears of its request. -/
theorem requestDropped :
    interrupting.filterMap Console.desk.asks = [5,6] ∧
    (run consoleSystem (.boot (fun _ => 0) [] 1) interrupting).receivers = [6] ∧
    (run consoleSystem (.boot (fun _ => 0) [] 1) interrupting).rdActive = false ∧
    interruptingVga.filterMap VgaTerminal.desk.asks = [5,6] ∧
    (run vgaSystem (.boot (fun _ => 0) fun _ => 0) interruptingVga).receivers = [6] ∧
    (run vgaSystem (.boot (fun _ => 0) fun _ => 0) interruptingVga).rdActive = false := by
  decide +kernel

end Mukern
