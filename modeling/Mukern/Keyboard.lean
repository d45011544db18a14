import Mukern.TerminalLines

/-! The keyboard of the VGA terminal: which keys are down after a run of set-1 scancodes,
and which of its two maps `kbd_drain` reads for the next one. -/
namespace Mukern
open Buffers Transition

/- What stands before a code: nothing, or one of the extension bytes. -/
inductive Lead where
  | plain
  | e0
  | e1
  deriving DecidableEq, Repr

def Lead.bytes : Lead → List Byte
  | .plain => []
  | .e0 => [0xe0]
  | .e1 => [0xe1]

structure Key where
  lead : Lead
  code : Fin 0x60
  deriving DecidableEq, Repr

/- A key goes down, as it also says when it repeats, or comes up. -/
structure Scancode where
  key : Key
  down : Bool
  deriving DecidableEq, Repr

/- The byte after the lead, for a code that goes down or comes up. -/
def codeByte (code : Fin 0x60) (down : Bool) : Byte := BitVec.ofNat 8 (code.val + if down then 0 else 0x80)

/- The character of a key that goes down, on the upper map or on the lower. -/
def mapped (upper : Bool) (code : Fin 0x60) (down : Bool) : Option Byte :=
  if down then ((if upper then mapHi else mapLo)[code.val]?).filter (· ≠ 0) else none

namespace Scancode

def byte (s : Scancode) : Byte := codeByte s.key.code s.down

def bytes (s : Scancode) : List Byte := s.key.lead.bytes ++ [s.byte]

def character (upper : Bool) (s : Scancode) : Option Byte := mapped upper s.key.code s.down

/- On the two maps the key has two characters. -/
def Cased (s : Scancode) : Prop := s.character false ≠ s.character true

instance (s : Scancode) : Decidable s.Cased := inferInstanceAs (Decidable (_ ≠ _))

/- The key is down after these scancodes. -/
def holds (codes : List Scancode) (key : Key) : Bool := codes.foldl (fun held s => if s.key = key then s.down else held) false

/- One of the two shift keys is down. -/
def shiftHeld (codes : List Scancode) : Bool := holds codes ⟨.plain,0x2a⟩ || holds codes ⟨.plain,0x36⟩

/- What the latest scancode with the code of a shift key says, whatever its lead. -/
def lastShift (codes : List Scancode) : Option Bool :=
  codes.foldl (fun last s => if s.key.code = 0x2a ∨ s.key.code = 0x36 then some s.down else last) none

/- The latest such scancode is not what the shift keys are: one came up and the other is
still down, or an extended code went down that is no shift key. -/
def Lapsed (codes : List Scancode) : Prop := lastShift codes = some (!shiftHeld codes)

instance (codes : List Scancode) : Decidable (Lapsed codes) := inferInstanceAs (Decidable (_ = _))

/- No key with two characters goes down while the shift keys have lapsed. -/
def Steady (codes : List Scancode) : Prop := ∀ front s rest, codes = front ++ s :: rest → s.Cased → ¬ Lapsed front

end Scancode

/- The index at which `kbd_drain` reads its map. -/
def mapIndex (sc : Byte) : Option Nat :=
  if sc = 0x2a ∨ sc = 0x36 then none
  else if sc = 0xaa ∨ sc = 0xb6 then none
  else if sc &&& 0x80 ≠ 0 then none
  else if sc ≥ 0x3a then none
  else some sc.toNat

/- Whatever keys wait, the scancode adds these. -/
def VgaTerminal.Adds (term : VgaTerminal) (sc : Byte) (keys : List Byte) : Prop :=
  ∀ kr, ({ term with kr := kr }.kbdDrain sc).kr = kr.pushAll keys

def VgaEvent.scancode? : VgaEvent → Option Byte
  | .irq sc => some sc
  | .write _ _ _ | .readline _ _ _ | .clients _ => none

/- Whatever else the server receives in between, the scancodes add what the shift keys that
are down make of them. -/
structure TracksShift (codes : List Scancode) : Prop where
  decodes : ∀ front s rest, codes = front ++ s :: rest → ∀ screen memory events,
    Admits vgaSystem (fun _ _ => True) (.boot screen memory) events →
    events.filterMap VgaEvent.scancode? = front.flatMap Scancode.bytes ++ s.key.lead.bytes →
    (run vgaSystem (.boot screen memory) events).Adds s.byte (s.character (Scancode.shiftHeld front)).toList
  leads : ∀ s ∈ codes, ∀ sc ∈ s.key.lead.bytes, ∀ term : VgaTerminal, term.Adds sc []
  breaks : ∀ s ∈ codes, s.down = false → ∀ sc ∈ s.bytes, ∀ term : VgaTerminal, term.Adds sc []
  inside : ∀ s ∈ codes, ∀ sc ∈ s.bytes, ∀ i, mapIndex sc = some i → i < mapLo.length ∧ i < mapHi.length

section
variable {codes front : List Scancode} {s : Scancode} {sc : Byte} {term : VgaTerminal} {i : Nat}

theorem mapIndexInside (read : mapIndex sc = some i) : i < mapLo.length ∧ i < mapHi.length := by
  simp only [mapIndex,Option.ite_none_left_eq_some,Option.some.injEq] at read
  obtain ⟨_,_,_,below,rfl⟩ := read
  have far : sc.toNat < 0x3a := Nat.lt_of_not_le below
  exact ⟨far,far⟩

/- What `kbd_drain` makes of a scancode is what the map holds at that index. -/
theorem keyOfIndex : ∀ (upper : Bool) (sc : Byte),
    keyOf upper sc = (mapIndex sc).bind fun i => ((if upper then mapHi else mapLo)[i]?).filter (· ≠ 0) := by
  decide +kernel

theorem codeKey : ∀ (upper : Bool) (code : Fin 0x60) (down : Bool), keyOf upper (codeByte code down) = mapped upper code down := by
  decide +kernel

theorem codeShifts : ∀ (flag : Bool) (code : Fin 0x60) (down : Bool),
    shiftAfter flag (codeByte code down) = if code = 0x2a ∨ code = 0x36 then down else flag := by
  decide +kernel

theorem codeRises : ∀ code : Fin 0x60, ∀ upper, keyOf upper (codeByte code false) = none := by decide +kernel

theorem leadSilent (lead : Lead) : ∀ sc ∈ lead.bytes, ∀ flag, shiftAfter flag sc = flag ∧ keyOf flag sc = none := by
  cases lead <;> decide +kernel

theorem adds (term : VgaTerminal) (sc : Byte) : term.Adds sc (keyOf term.shift sc).toList := fun kr =>
  congrArg VgaTerminal.kr ({ term with kr := kr }.kbdDrainIs sc)

/- An empty ring tells what was added. -/
theorem addsOnly {keys keys' : List Byte} (first : term.Adds sc keys) (second : term.Adds sc keys') (few : keys.length ≤ 1)
    (few' : keys'.length ≤ 1) : keys = keys' := by
  let empty : Ring Byte 128 := ⟨fun _ => 0,0,0,by decide,by decide⟩
  have used : empty.used = 0 := rfl
  have same : (empty.pushAll keys).contents = (empty.pushAll keys').contents :=
    congrArg Ring.contents ((first empty).symm.trans (second empty))
  rw [Ring.pushAllContents (by omega),Ring.pushAllContents (by omega)] at same
  exact List.append_cancel_left same

theorem leadShifts (flag : Bool) (lead : Lead) : lead.bytes.foldl shiftAfter flag = flag := by
  have silent := leadSilent lead
  cases lead with
  | plain => rfl
  | e0 => exact (silent _ List.mem_cons_self flag).1
  | e1 => exact (silent _ List.mem_cons_self flag).1

theorem bytesShift (flag : Bool) (s : Scancode) :
    s.bytes.foldl shiftAfter flag = if s.key.code = 0x2a ∨ s.key.code = 0x36 then s.down else flag := by
  rw [Scancode.bytes,List.foldl_append,leadShifts]
  exact codeShifts flag s.key.code s.down

/- The flag is what the latest code of a shift key left. -/
theorem flagIs (codes : List Scancode) : (codes.flatMap Scancode.bytes).foldl shiftAfter false = (Scancode.lastShift codes).getD false := by
  have steps : ∀ (codes : List Scancode) (flag : Bool) (last : Option Bool), last.getD false = flag →
      (codes.flatMap Scancode.bytes).foldl shiftAfter flag =
        (codes.foldl (fun last s => if s.key.code = 0x2a ∨ s.key.code = 0x36 then some s.down else last) last).getD false := by
    intro codes
    induction codes with
    | nil => exact fun flag last same => same.symm
    | cons s codes ih =>
      intro flag last same
      rw [List.flatMap_cons,List.foldl_append,bytesShift,List.foldl_cons]
      apply ih
      split
      · rfl
      · exact same
  exact steps codes false none rfl

theorem eventShift (term : VgaTerminal) (event : VgaEvent) : (term.handle event).shift = event.scancode?.toList.foldl shiftAfter term.shift := by
  cases event with
  | irq sc =>
    refine (VgaTerminal.editShift _ _).trans ?_
    exact congrArg VgaTerminal.shift (term.kbdDrainIs sc)
  | write sender data0 data1 =>
    obtain ⟨_,_,_,printed⟩ := term.vgaPutsScreen (read term.memory data0 (unsigned data1))
    have drawn : (term.vgaPuts (read term.memory data0 (unsigned data1))).shift = term.shift := by rw [printed]
    exact drawn
  | readline sender data0 data1 => exact VgaTerminal.editShift _ _
  | clients memory => rfl

theorem runShift (term : VgaTerminal) (events : List VgaEvent) :
    (run vgaSystem term events).shift = (events.filterMap VgaEvent.scancode?).foldl shiftAfter term.shift := by
  induction events generalizing term with
  | nil => rfl
  | cons event events ih =>
    have stepped : (vgaSystem.next term event).shift = event.scancode?.toList.foldl shiftAfter term.shift := eventShift term event
    have first : (event :: events).filterMap VgaEvent.scancode? = event.scancode?.toList ++ events.filterMap VgaEvent.scancode? := by
      rw [List.filterMap_cons]
      cases event.scancode? <;> rfl
    rw [run,ih,stepped,first,List.foldl_append]

theorem lastSnoc (codes : List Scancode) (s : Scancode) : Scancode.lastShift (codes ++ [s]) =
    if s.key.code = 0x2a ∨ s.key.code = 0x36 then some s.down else Scancode.lastShift codes := by
  rw [Scancode.lastShift,List.foldl_append]
  rfl

theorem holdsSnoc (codes : List Scancode) (s : Scancode) (key : Key) :
    Scancode.holds (codes ++ [s]) key = if s.key = key then s.down else Scancode.holds codes key := by
  rw [Scancode.holds,List.foldl_append]
  rfl

/- Without a code of a shift key no shift key is down. -/
theorem noShift (none : Scancode.lastShift codes = none) : Scancode.shiftHeld codes = false := by
  induction codes using List.reverseRecOn with
  | nil => rfl
  | append_singleton codes s ih =>
    rw [lastSnoc] at none
    split at none
    · cases none
    · rename_i other
      have left : s.key ≠ ⟨.plain,0x2a⟩ := fun same => other (.inl (congrArg Key.code same))
      have right : s.key ≠ ⟨.plain,0x36⟩ := fun same => other (.inr (congrArg Key.code same))
      rw [Scancode.shiftHeld,holdsSnoc,holdsSnoc,if_neg left,if_neg right]
      exact ih none

/- The server has read all the scancodes up to the last byte of `s`. -/
theorem readsScancode {screen : Buffer (BitVec 16)} {memory : Buffer Byte} {events : List VgaEvent}
    (sent : events.filterMap VgaEvent.scancode? = front.flatMap Scancode.bytes ++ s.key.lead.bytes) :
    (run vgaSystem (.boot screen memory) events).Adds s.byte (s.character ((Scancode.lastShift front).getD false)).toList := by
  have start : (VgaTerminal.boot screen memory).shift = false := by
    obtain ⟨_,_,_,started⟩ := VgaTerminal.bootIs screen memory
    rw [started]
  have flag : (run vgaSystem (.boot screen memory) events).shift = (Scancode.lastShift front).getD false := by
    rw [runShift,start,sent,List.foldl_append,flagIs,leadShifts]
  have added := adds (run vgaSystem (.boot screen memory) events) s.byte
  have decoded : keyOf ((Scancode.lastShift front).getD false) s.byte = s.character ((Scancode.lastShift front).getD false) :=
    codeKey _ s.key.code s.down
  rwa [flag,decoded] at added

theorem characterShort (upper : Bool) (s : Scancode) : (s.character upper).toList.length ≤ 1 := Option.length_toList_le

theorem uncased (plain : ¬ s.Cased) (upper : Bool) : s.character upper = s.character false := by
  cases upper with
  | false => rfl
  | true => exact (not_not.mp plain).symm

theorem casedApart (cased : s.Cased) (upper : Bool) : s.character (!upper) ≠ s.character upper := by
  cases upper with
  | false => exact cased.symm
  | true => exact cased

/- While the shift keys have not lapsed, the flag is what they are. -/
theorem steadyFlag (steady : ¬ Scancode.Lapsed front) : (Scancode.lastShift front).getD false = Scancode.shiftHeld front := by
  rcases last : Scancode.lastShift front with _ | down
  · exact (noShift last).symm
  · rw [Scancode.Lapsed,last,Option.some.injEq] at steady
    by_contra other
    exact steady (Bool.eq_not_of_ne other)

theorem scancodesAdmitted (bytes : List Byte) (term : VgaTerminal) : Admits vgaSystem (fun _ _ => True) term (bytes.map .irq) := by
  induction bytes generalizing term with
  | nil => trivial
  | cons sc bytes ih => exact ⟨trivial,trivial,ih _⟩

theorem leadAdds (lead : sc ∈ s.key.lead.bytes) (term : VgaTerminal) : term.Adds sc [] := by
  have silent := adds term sc
  rwa [(leadSilent s.key.lead sc lead term.shift).2] at silent

theorem breakAdds (up : s.down = false) (term : VgaTerminal) : term.Adds s.byte [] := by
  have silent := adds term s.byte
  rw [Scancode.byte,up,codeRises] at silent
  rwa [Scancode.byte,up]

/- The server tells the shift keys from the scancodes exactly when no character comes while they have lapsed. -/
theorem keyboardTracks (codes : List Scancode) : TracksShift codes ↔ Scancode.Steady codes := by
  constructor
  · intro tracks front s rest split cased lapsed
    let bytes := front.flatMap Scancode.bytes ++ s.key.lead.bytes
    have sent : (bytes.map VgaEvent.irq).filterMap VgaEvent.scancode? = bytes := by
      rw [List.filterMap_map]
      exact List.filterMap_some ..
    have right := tracks.decodes front s rest split (fun _ => 0) (fun _ => 0) _ (scancodesAdmitted bytes _) sent
    have does : (run vgaSystem (.boot (fun _ => 0) fun _ => 0) (bytes.map VgaEvent.irq)).Adds _ _ := readsScancode sent
    have same := congrArg List.head? (addsOnly does right (characterShort _ s) (characterShort _ s))
    rw [lapsed,Option.getD_some,Option.head?_toList,Option.head?_toList] at same
    exact casedApart cased (Scancode.shiftHeld front) same
  · intro steady
    refine ⟨fun front s rest split screen memory events _ sent => ?_,fun s _ sc lead => leadAdds lead,fun s _ up sc member term => ?_,
      fun s _ sc _ i read => mapIndexInside read⟩
    · have does : (run vgaSystem (.boot screen memory) events).Adds _ _ := readsScancode sent
      by_cases cased : s.Cased
      · rwa [steadyFlag (steady front s rest split cased)] at does
      · rw [uncased cased] at does ⊢
        exact does
    · rcases List.mem_append.mp member with lead | last
      · exact leadAdds lead term
      · exact List.mem_singleton.mp last ▸ breakAdds up term

/- Both shift keys go down, the left one comes up again, and then A is struck. -/
def oneShiftUp : List Scancode := [⟨⟨.plain,0x2a⟩,true⟩,⟨⟨.plain,0x36⟩,true⟩,⟨⟨.plain,0x2a⟩,false⟩]

theorem heldShiftLost : Scancode.holds oneShiftUp ⟨.plain,0x36⟩ = true ∧ ¬ TracksShift (oneShiftUp ++ [⟨⟨.plain,0x1e⟩,true⟩]) := by
  refine ⟨rfl,fun tracks => ?_⟩
  have events : Admits vgaSystem (fun _ _ => True) (.boot (fun _ => 0) fun _ => 0) [.irq 0x2a,.irq 0x36,.irq 0xaa] :=
    scancodesAdmitted [0x2a,0x36,0xaa] _
  have upper := tracks.decodes oneShiftUp ⟨⟨.plain,0x1e⟩,true⟩ [] rfl _ _ _ events rfl
  have lower : (run vgaSystem (.boot (fun _ => 0) fun _ => 0) [.irq 0x2a,.irq 0x36,.irq 0xaa]).Adds
      (Scancode.mk ⟨.plain,0x1e⟩ true).byte ((Scancode.mk ⟨.plain,0x1e⟩ true).character ((Scancode.lastShift oneShiftUp).getD false)).toList :=
    readsScancode rfl
  have same := addsOnly lower upper (characterShort _ _) (characterShort _ _)
  exact absurd same (by decide)

end
end Mukern
