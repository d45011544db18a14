import Mukern.ReadRequests

/-! What the console driver's `edit` makes of a control sequence: which bytes it takes as
part of it, and which command the sequence is. -/
namespace Mukern
open Buffers Transition

/- `ESC [ P* I* F`, in the ranges that the bytes of such a sequence have. -/
structure ControlSequence where
  params : List Byte
  inters : List Byte
  final : Byte
  paramRange : ∀ c ∈ params, 0x30 ≤ c ∧ c ≤ 0x3f
  interRange : ∀ c ∈ inters, 0x20 ≤ c ∧ c ≤ 0x2f
  finalRange : 0x40 ≤ final ∧ final ≤ 0x7e

def digit (c : Byte) : Prop := ascii '0' ≤ c ∧ c ≤ ascii '9'

instance (c : Byte) : Decidable (digit c) := inferInstanceAs (Decidable (_ ∧ _))

/- The number that a string of digits stands for, of whatever length. -/
def digitsValue (ds : List Byte) : Nat := ds.foldl (fun v c => v * 10 + (c.toNat - 48)) 0

namespace Console

/- The loop of `edit` uses up these bytes, one a turn; others may arrive in between. -/
inductive Takes : Console → List Byte → Console → Prop where
  | none (con : Console) : Takes con [] con
  | turn {con con' : Console} {c : Byte} {ring : Ring Byte 256} {bytes : List Byte} (active : con.rdActive = true)
      (popped : con.ring.pop = some (c,ring)) (rest : Takes ({ con with ring := ring }.editByte c) bytes con') : Takes con (c :: bytes) con'
  | arrive {con con' : Console} {bytes : List Byte} (waiting : List Byte) (rest : Takes (con.drainRx waiting) bytes con') : Takes con bytes con'

/- A read is open and the parser is idle. -/
def Idle (con : Console) : Prop := con.rdActive = true ∧ con.esc = .normal

/- Only what waits in the ring and the state of the parser differ. -/
def SameLine (con con' : Console) : Prop := con' = { con with ring := con'.ring, esc := con'.esc, csiNum := con'.csiNum }

end Console

namespace ControlSequence
variable (seq : ControlSequence)

def bytes : List Byte := 0x1b :: ascii '[' :: (seq.params ++ (seq.inters ++ [seq.final]))

/- Whatever is being edited, the whole sequence has the effect of the command. -/
def Does (k : LineCommand) : Prop := ∀ con con' : Console, con.Idle → con.Takes seq.bytes con' →
  con'.esc = .normal ∧ ∃ before, con.SameLine before ∧ (before.perform k).SameLine con'

/- `ESC [ d ~` with a number that `p` holds of. -/
def Numbered (p : Nat → Prop) : Prop := (∀ c ∈ seq.params, digit c) ∧ seq.inters = [] ∧ seq.final = ascii '~' ∧ p (digitsValue seq.params)

/- The parser is busy up to the last byte, no byte is inserted, and the keys with numbers are
what the numbers say. -/
structure Handled : Prop where
  parsed : ∀ n, 0 < n → n < seq.bytes.length → ∀ con con' : Console, con.Idle → con.Takes (seq.bytes.take n) con' → con'.esc ≠ .normal
  effect : ∃ k, (∀ c, k ≠ .insert c) ∧ seq.Does k
  deletes : seq.Does .deleteAt ↔ seq.Numbered (· = 3)
  homes : seq.final = ascii '~' → (seq.Does .home ↔ seq.Numbered fun v => v = 1 ∨ v = 7)
  ends : seq.final = ascii '~' → (seq.Does .toEnd ↔ seq.Numbered fun v => v = 4 ∨ v = 8)

/- Only digits stand between, and 32 bits of the number name the key that the number names. -/
structure Plain : Prop where
  digits : ∀ c ∈ seq.params, digit c
  bare : seq.inters = []
  number : seq.final = ascii '~' →
    LineCommand.ofCsi (digitsValue seq.params % 2 ^ 32) (ascii '~') = .ofCsi (digitsValue seq.params) (ascii '~')

end ControlSequence

namespace Console
variable {con con' mid : Console} {c : Byte} {xs ys bytes : List Byte}

theorem SameLine.refl (con : Console) : SameLine con con := rfl

theorem SameLine.trans (first : SameLine con mid) (second : SameLine mid con') : SameLine con con' := by
  unfold SameLine at first second ⊢
  rw [first] at second
  exact second

/- The loop of `edit` is such a run of turns. -/
theorem editTakes (con : Console) (turns : Nat) : ∃ bytes, Takes con bytes (con.edit turns) := by
  induction turns generalizing con with
  | zero => exact ⟨[],.none con⟩
  | succ turns ih =>
    cases active : con.rdActive with
    | false =>
      rw [editIdle active]
      exact ⟨[],.none con⟩
    | true =>
      rcases popped : con.ring.pop with _ | ⟨c,ring⟩
      · rw [edit,if_pos active,popped]
        exact ⟨[],.none con⟩
      · rw [editTurn active popped]
        obtain ⟨bytes,taken⟩ := ih ({ con with ring := ring }.editByte c)
        exact ⟨c :: bytes,.turn active popped taken⟩

theorem takesAppend (taken : Takes con (xs ++ ys) con') : ∃ mid, Takes con xs mid ∧ Takes mid ys con' := by
  generalize whole : xs ++ ys = bytes at taken
  induction taken generalizing xs with
  | none con =>
    obtain ⟨rfl,rfl⟩ := List.append_eq_nil_iff.mp whole
    exact ⟨con,.none con,.none con⟩
  | @turn con con' c ring bytes active popped rest ih =>
    cases xs with
    | nil =>
      have same : ys = c :: bytes := whole
      exact ⟨con,.none con,same ▸ .turn active popped rest⟩
    | cons x xs =>
      obtain ⟨rfl,tail⟩ := List.cons.inj whole
      obtain ⟨mid,first,second⟩ := ih tail
      exact ⟨mid,.turn active popped first,second⟩
  | arrive waiting rest ih =>
    obtain ⟨mid,first,second⟩ := ih whole
    exact ⟨mid,.arrive waiting first,second⟩

/- Nothing but arrivals. -/
theorem takesNone (taken : Takes con [] con') : SameLine con con' ∧ con'.esc = con.esc ∧ con'.csiNum = con.csiNum ∧ con'.rdActive = con.rdActive := by
  generalize empty : ([] : List Byte) = bytes at taken
  induction taken with
  | none con => exact ⟨.refl con,rfl,rfl,rfl⟩
  | turn _ _ _ => cases empty
  | arrive waiting _ ih => exact ih empty

/- One byte, with arrivals around it. -/
theorem takesOne (taken : Takes con [c] con') : ∃ ring, SameLine ({ con with ring := ring }.editByte c) con' ∧
    con'.esc = ({ con with ring := ring }.editByte c).esc ∧ con'.csiNum = ({ con with ring := ring }.editByte c).csiNum ∧
    con'.rdActive = ({ con with ring := ring }.editByte c).rdActive := by
  generalize one : [c] = bytes at taken
  induction taken with
  | none _ => cases one
  | @turn con con' c ring bytes active popped rest _ =>
    cases one
    exact ⟨ring,takesNone rest⟩
  | arrive waiting _ ih => exact ih one

theorem takesEsc (taken : Takes con bytes con') (active : con.rdActive = true) (stays : ¬ con.esc.completes bytes) :
    con'.esc = bytes.foldl Esc.next con.esc := by
  induction taken with
  | none con => rfl
  | @turn con con' c ring bytes _ popped rest ih =>
    rcases byteServes { con with ring := ring } c with ⟨ends,_⟩ | ⟨_,still,_,_,_,esc⟩
    · exact absurd (.inl ends) stays
    · have later := ih (still.trans active) (by rw [esc]; exact fun completes => stays (.inr completes))
      rw [esc] at later
      exact later
  | arrive waiting _ ih => exact ih active stays

/- The bytes can arrive one by one. -/
theorem takesRun (active : con.rdActive = true) (empty : con.ring.contents = []) (stays : ¬ con.esc.completes bytes) :
    ∃ con', Takes con bytes con' := by
  induction bytes generalizing con with
  | nil => exact ⟨con,.none con⟩
  | cons c bytes ih =>
    have used : con.ring.used = 0 := by rw [← Ring.contentsLength,empty]; rfl
    have held : (con.drainRx [c]).ring.contents = [c] := by
      have pushed : (con.ring.pushAll [c]).contents = con.ring.contents ++ [c] := Ring.pushAllContents (by rw [used]; exact Nat.lt_of_lt_of_le Nat.one_lt_two (by decide))
      rwa [empty] at pushed
    obtain ⟨ring,popped,left⟩ := Ring.popSome held
    rcases byteServes { con.drainRx [c] with ring := ring } c with ⟨ends,_⟩ | ⟨_,still,_,_,same,esc⟩
    · exact absurd (.inl ends) stays
    · obtain ⟨con',rest⟩ := ih (still.trans active) ((congrArg Ring.contents same).trans left)
        (by rw [esc]; exact fun completes => stays (.inr completes))
      exact ⟨con',.arrive [c] (.turn active popped rest)⟩

theorem takesLead (taken : Takes con [0x1b,ascii '['] con') (normal : con.esc = .normal) :
    SameLine con con' ∧ con'.esc = .inCsi ∧ con'.csiNum = 0 := by
  obtain ⟨mid,first,second⟩ : ∃ mid, Takes con [0x1b] mid ∧ Takes mid [ascii '['] con' := takesAppend taken
  obtain ⟨ring,same,esc,_,_⟩ := takesOne first
  have saw : { con with ring := ring }.editByte 0x1b = { con with ring := ring, esc := .sawEsc } := by
    rw [editByte]
    simp only [normal]
    rfl
  rw [saw] at same esc
  obtain ⟨ring',same',esc',num',_⟩ := takesOne second
  have csi : { mid with ring := ring' }.editByte (ascii '[') = { mid with ring := ring', esc := .inCsi, csiNum := 0 } := by
    rw [editByte]
    simp only [esc]
    rfl
  rw [csi] at same' esc' num'
  have start : SameLine con { con with ring := ring, esc := .sawEsc } := rfl
  have middle : SameLine mid { mid with ring := ring', esc := .inCsi, csiNum := 0 } := rfl
  exact ⟨(start.trans same).trans (middle.trans same'),esc',num'⟩

theorem takesDigits (taken : Takes con xs con') (csi : con.esc = .inCsi) (digits : ∀ c ∈ xs, digit c) :
    SameLine con con' ∧ con'.esc = .inCsi ∧ con'.csiNum = xs.foldl (fun n c => n * 10 + (c.setWidth 32 - 48)) con.csiNum := by
  induction xs generalizing con with
  | nil =>
    obtain ⟨same,esc,num,_⟩ := takesNone taken
    exact ⟨same,esc.trans csi,num⟩
  | cons c xs ih =>
    obtain ⟨mid,first,second⟩ : ∃ mid, Takes con [c] mid ∧ Takes mid xs con' := takesAppend taken
    obtain ⟨ring,same,esc,num,_⟩ := takesOne first
    have read : { con with ring := ring }.editByte c = { con with ring := ring, csiNum := con.csiNum * 10 + (c.setWidth 32 - 48) } := by
      rw [editByte]
      simp only [csi]
      exact if_pos (digits c List.mem_cons_self)
    rw [read] at same esc num
    obtain ⟨rest,esc',num'⟩ := ih second (esc.trans csi) fun d member => digits d (List.mem_cons_of_mem _ member)
    have start : SameLine con { con with ring := ring, csiNum := con.csiNum * 10 + (c.setWidth 32 - 48) } := rfl
    refine ⟨(start.trans same).trans rest,esc',?_⟩
    rw [num',num,List.foldl_cons]

theorem finalByte (csi : con.esc = .inCsi) (final : ¬ digit c) :
    con.editByte c = { con.perform (.ofCsi con.csiNum.toNat c) with esc := .normal } := by
  have other : ¬ (ascii '0' ≤ c ∧ c ≤ ascii '9') := final
  simp only [editByte,csi]
  rw [insideCsi,if_neg other,csiFinalIs]

theorem takesFinal (taken : Takes con [c] con') (csi : con.esc = .inCsi) (final : ¬ digit c) :
    con'.esc = .normal ∧ ∃ before, SameLine con before ∧ SameLine (before.perform (.ofCsi con.csiNum.toNat c)) con' := by
  obtain ⟨ring,same,esc,_,_⟩ := takesOne taken
  have done : ({ con with ring := ring } : Console).editByte c =
      { ({ con with ring := ring } : Console).perform (.ofCsi con.csiNum.toNat c) with esc := .normal } := finalByte csi final
  rw [done] at same esc
  have start : SameLine (({ con with ring := ring } : Console).perform (.ofCsi con.csiNum.toNat c))
      { ({ con with ring := ring } : Console).perform (.ofCsi con.csiNum.toNat c) with esc := .normal } := rfl
  exact ⟨esc,{ con with ring := ring },rfl,start.trans same⟩

/- `csi_num` is the low 32 bits of the number. -/
theorem numberIs (digits : ∀ c ∈ xs, digit c) (v : Nat) :
    xs.foldl (fun n c => n * 10 + (c.setWidth 32 - 48)) (BitVec.ofNat 32 v) =
      BitVec.ofNat 32 (xs.foldl (fun v c => v * 10 + (c.toNat - 48)) v) := by
  have value : ∀ c : Byte, digit c → (c.setWidth 32 - 48 : BitVec 32) = BitVec.ofNat 32 (c.toNat - 48) := by decide +kernel
  induction xs generalizing v with
  | nil => rfl
  | cons c xs ih =>
    have ten : (BitVec.ofNat 32 v * 10 + (c.setWidth 32 - 48) : BitVec 32) = BitVec.ofNat 32 (v * 10 + (c.toNat - 48)) := by
      rw [value c (digits c List.mem_cons_self),BitVec.ofNat_add,BitVec.ofNat_mul]
      rfl
    rw [List.foldl_cons,List.foldl_cons,ten]
    exact ih (fun d member => digits d (List.mem_cons_of_mem _ member)) _

theorem staysReading (esc : Esc) (text : ∀ c ∈ bytes, 0x1b ≤ c) : ¬ esc.completes bytes := by
  induction bytes generalizing esc with
  | nil => exact id
  | cons c bytes ih =>
    have ends : ∀ c : Byte, 0x1b ≤ c → ¬ (c = 13 ∨ c = 10 ∨ c = 3) := by decide +kernel
    rintro (first | later)
    · exact ends c (text c List.mem_cons_self) first.2
    · exact ih (esc.next c) (fun d member => text d (List.mem_cons_of_mem _ member)) later

theorem digitsStay (digits : ∀ c ∈ xs, digit c) : xs.foldl Esc.next .inCsi = .inCsi := by
  induction xs with
  | nil => rfl
  | cons c xs ih =>
    have step : Esc.next .inCsi c = .inCsi := if_pos (digits c List.mem_cons_self)
    rw [List.foldl_cons,step]
    exact ih fun d member => digits d (List.mem_cons_of_mem _ member)

/- Four bytes, with the cursor in their middle. -/
def probe : Console := { boot (fun _ => 0) [] 1 with rdActive := true, rdMax := 8, rdN := 4, rdPos := 2 }

end Console

/- Where the cursor stands and how long the line is after a command to `probe`. -/
def LineCommand.place : LineCommand → Nat × Nat
  | .insert _ => (3,5)
  | .deleteLeft => (1,3)
  | .deleteAt => (2,3)
  | .left => (1,4)
  | .right => (3,4)
  | .home => (0,4)
  | .toEnd => (4,4)
  | .kill => (0,0)
  | .older | .newer | .nothing => (2,4)

theorem probePlace {before : Console} (same : Console.probe.SameLine before) (k : LineCommand) :
    ((before.perform k).rdPos,(before.perform k).rdN) = k.place := by
  rw [same]
  cases k <;> rfl

/- The commands of the keys with numbers. -/
theorem tildeCommand (n : Nat) : LineCommand.ofCsi n (ascii '~') =
    if n = 3 then .deleteAt else if n = 1 ∨ n = 7 then .home else if n = 4 ∨ n = 8 then .toEnd else .nothing := rfl

theorem deleteNumber (n : Nat) : LineCommand.ofCsi n (ascii '~') = .deleteAt ↔ n = 3 := by
  rw [tildeCommand]
  split
  · rename_i three
    exact iff_of_true rfl three
  · rename_i other
    refine iff_of_false ?_ other
    repeat' split
    all_goals exact nofun

theorem homeNumber (n : Nat) : LineCommand.ofCsi n (ascii '~') = .home ↔ n = 1 ∨ n = 7 := by
  rw [tildeCommand]
  split
  · exact iff_of_false nofun (by omega)
  · split
    · rename_i home
      exact iff_of_true rfl home
    · rename_i other
      refine iff_of_false ?_ other
      split <;> exact nofun

theorem endNumber (n : Nat) : LineCommand.ofCsi n (ascii '~') = .toEnd ↔ n = 4 ∨ n = 8 := by
  rw [tildeCommand]
  split
  · exact iff_of_false nofun (by omega)
  · split
    · exact iff_of_false nofun (by omega)
    · split
      · rename_i toEnd
        exact iff_of_true rfl toEnd
      · rename_i other
        exact iff_of_false nofun other

/- The keys that have numbers. -/
def LineCommand.Named (k : LineCommand) : Prop := k = .deleteAt ∨ k = .home ∨ k = .toEnd

theorem tildeKinds (n : Nat) : (LineCommand.ofCsi n (ascii '~')).Named ∨ LineCommand.ofCsi n (ascii '~') = .nothing := by
  rw [tildeCommand]
  repeat' split
  · exact .inl (.inl rfl)
  · exact .inl (.inr (.inl rfl))
  · exact .inl (.inr (.inr rfl))
  · exact .inr rfl

theorem namedPlace {k k' : LineCommand} (key : k.Named) (key' : k'.Named ∨ k' = .nothing) (same : k'.place = k.place) : k' = k := by
  rcases key with rfl | rfl | rfl <;> rcases key' with (rfl | rfl | rfl) | rfl <;> first | rfl | exact absurd same (by decide)

namespace ControlSequence
open Console
variable {seq : ControlSequence}

theorem bytesRange (seq : ControlSequence) : ∀ c ∈ seq.bytes, 0x1b ≤ c := by
  have above {least c : Byte} (low : 0x1b ≤ least) (inside : least ≤ c) : 0x1b ≤ c := BitVec.le_trans low inside
  intro c member
  rcases List.mem_cons.mp member with rfl | member
  · decide
  rcases List.mem_cons.mp member with rfl | member
  · decide
  rcases List.mem_append.mp member with param | member
  · exact above (by decide) (seq.paramRange c param).1
  rcases List.mem_append.mp member with inter | last
  · exact above (by decide) (seq.interRange c inter).1
  · rw [List.mem_singleton.mp last]
    exact above (by decide) seq.finalRange.1

theorem probeTakes {bytes : List Byte} (text : ∀ c ∈ bytes, 0x1b ≤ c) : ∃ con', probe.Takes bytes con' :=
  takesRun rfl rfl (staysReading _ text)

/- A sequence has one effect. -/
theorem doesPlace {k k' : LineCommand} (first : seq.Does k) (second : seq.Does k') : k.place = k'.place := by
  obtain ⟨con',taken⟩ := probeTakes seq.bytesRange
  obtain ⟨_,before,same,done⟩ := first probe con' ⟨rfl,rfl⟩ taken
  obtain ⟨_,before',same',done'⟩ := second probe con' ⟨rfl,rfl⟩ taken
  rw [← probePlace same k,← probePlace same' k']
  rw [SameLine] at done done'
  have pos : (before.perform k).rdPos = con'.rdPos := by rw [done]
  have n : (before.perform k).rdN = con'.rdN := by rw [done]
  have pos' : (before'.perform k').rdPos = con'.rdPos := by rw [done']
  have n' : (before'.perform k').rdN = con'.rdN := by rw [done']
  rw [pos,n,pos',n']

theorem finalOther (seq : ControlSequence) : ¬ digit seq.final := by
  have range : ∀ c : Byte, 0x40 ≤ c ∧ c ≤ 0x7e → ¬ digit c := by decide +kernel
  exact range seq.final seq.finalRange

theorem plainDoes (digits : ∀ c ∈ seq.params, digit c) (bare : seq.inters = []) :
    seq.Does (.ofCsi (digitsValue seq.params % 2 ^ 32) seq.final) := by
  intro con con' idle taken
  have split : seq.bytes = [0x1b,ascii '['] ++ (seq.params ++ [seq.final]) := by
    rw [bytes,bare]
    rfl
  rw [split] at taken
  obtain ⟨lead,first,rest⟩ := takesAppend taken
  obtain ⟨same,csi,zero⟩ := takesLead first idle.2
  obtain ⟨mid,number,last⟩ := takesAppend rest
  obtain ⟨same',csi',num⟩ := takesDigits number csi digits
  obtain ⟨normal,before,same'',done⟩ := takesFinal last csi' seq.finalOther
  have value : mid.csiNum.toNat = digitsValue seq.params % 2 ^ 32 := by
    rw [num,zero]
    exact (congrArg BitVec.toNat (numberIs digits 0)).trans (BitVec.toNat_ofNat ..)
  rw [value] at done
  exact ⟨normal,before,(same.trans same').trans same'',done⟩

theorem plainPlace {k : LineCommand} (plain : k.Plain) : k.place ≠ LineCommand.place .deleteAt := by
  cases k with
  | insert c => cases plain
  | deleteLeft => cases plain
  | deleteAt => cases plain
  | left => decide
  | right => decide
  | home => decide
  | toEnd => decide
  | kill => decide
  | older => decide
  | newer => decide
  | nothing => decide

theorem firstOther {text : List Byte} (other : ¬ ∀ c ∈ text, digit c) :
    ∃ ds c more, text = ds ++ c :: more ∧ (∀ d ∈ ds, digit d) ∧ ¬ digit c := by
  induction text with
  | nil => exact absurd nofun other
  | cons c text ih =>
    by_cases first : digit c
    · have rest : ¬ ∀ d ∈ text, digit d := fun all => other (List.forall_mem_cons.mpr ⟨first,all⟩)
      obtain ⟨ds,d,more,whole,digits,ends⟩ := ih rest
      exact ⟨c :: ds,d,more,congrArg (c :: ·) whole,List.forall_mem_cons.mpr ⟨first,digits⟩,ends⟩
    · exact ⟨[],c,text,rfl,nofun,first⟩

/- The parser leaves the sequence early at the first byte that is no digit. -/
theorem busyIff : (∀ n, 0 < n → n < seq.bytes.length → ∀ con con' : Console, con.Idle → con.Takes (seq.bytes.take n) con' → con'.esc ≠ .normal) ↔
    (∀ c ∈ seq.params, digit c) ∧ seq.inters = [] := by
  have takenRange (n : Nat) : ∀ c ∈ seq.bytes.take n, 0x1b ≤ c := fun c member => seq.bytesRange c (List.mem_of_mem_take member)
  constructor
  · intro busy
    have all : ∀ c ∈ seq.params ++ seq.inters, digit c := by
      by_contra other
      obtain ⟨ds,c,more,whole,digits,ends⟩ := firstOther other
      have split : seq.bytes = (0x1b :: ascii '[' :: (ds ++ [c])) ++ (more ++ [seq.final]) := by
        rw [bytes,← List.append_assoc,whole]
        simp only [List.append_assoc,List.cons_append,List.nil_append]
      have cut : seq.bytes.take (ds.length + 3) = 0x1b :: ascii '[' :: (ds ++ [c]) := by
        rw [split]
        exact List.take_left' (by simp)
      obtain ⟨con',taken⟩ := probeTakes (takenRange (ds.length + 3))
      have esc := takesEsc taken rfl (staysReading _ (takenRange (ds.length + 3)))
      have idle : Esc.next .inCsi c = .normal := if_neg ends
      rw [cut,List.foldl_cons,List.foldl_cons,List.foldl_append] at esc
      have inside : ds.foldl Esc.next ((Esc.normal.next 0x1b).next (ascii '[')) = .inCsi := digitsStay digits
      have early : con'.esc = .normal := by
        rw [show probe.esc = .normal from rfl,inside] at esc
        exact esc.trans idle
      refine busy (ds.length + 3) (by omega) ?_ probe con' ⟨rfl,rfl⟩ taken early
      rw [split,List.length_append,List.length_append]
      simp
    refine ⟨fun c member => all c (List.mem_append_left _ member),List.eq_nil_iff_forall_not_mem.mpr fun c member => ?_⟩
    have low : ∀ c : Byte, 0x20 ≤ c ∧ c ≤ 0x2f → ¬ digit c := by decide +kernel
    exact low c (seq.interRange c member) (all c (List.mem_append_right _ member))
  · intro ⟨digits,bare⟩ n positive short con con' idle taken normal
    have esc := takesEsc taken idle.1 (staysReading _ (takenRange n))
    rw [idle.2,normal] at esc
    have split : seq.bytes = 0x1b :: ascii '[' :: (seq.params ++ [seq.final]) := by
      rw [bytes,bare]
      rfl
    rw [split] at esc short
    match n with
    | 1 =>
      rw [List.take_succ_cons,List.take_zero] at esc
      exact absurd esc (by decide)
    | n + 2 =>
      rw [List.length_cons,List.length_cons,List.length_append,List.length_singleton] at short
      rw [List.take_succ_cons,List.take_succ_cons,List.take_append_of_le_length (by omega)] at esc
      have stays := digitsStay fun c member => digits c (List.mem_of_mem_take (i := n) member)
      exact absurd (esc.trans stays) (by decide)

/- The effects of the keys with numbers differ. -/
theorem tildeDoes (plain : seq.Plain) (tilde : seq.final = ascii '~') {k : LineCommand} (key : k.Named) :
    seq.Does k ↔ LineCommand.ofCsi (digitsValue seq.params) (ascii '~') = k := by
  have does := plainDoes plain.digits plain.bare
  rw [tilde,plain.number tilde] at does
  exact ⟨fun same => namedPlace key (tildeKinds _) (doesPlace does same),fun named => named ▸ does⟩

theorem numberedIff (plain : seq.Plain) (tilde : seq.final = ascii '~') {k : LineCommand} {p : Nat → Prop} (key : k.Named)
    (names : ∀ n, LineCommand.ofCsi n (ascii '~') = k ↔ p n) : seq.Does k ↔ seq.Numbered p := by
  rw [tildeDoes plain tilde key,names]
  exact ⟨fun value => ⟨plain.digits,plain.bare,tilde,value⟩,fun numbered => numbered.2.2.2⟩

theorem handledNumber (handled : seq.Handled) (tilde : seq.final = ascii '~') :
    LineCommand.ofCsi (digitsValue seq.params % 2 ^ 32) (ascii '~') = .ofCsi (digitsValue seq.params) (ascii '~') := by
  obtain ⟨digits,bare⟩ := busyIff.mp handled.parsed
  have does := plainDoes digits bare
  rw [tilde] at does
  have names {k : LineCommand} {p : Nat → Prop} (names : ∀ n, LineCommand.ofCsi n (ascii '~') = k ↔ p n) (named : seq.Does k ↔ seq.Numbered p) :
      seq.Does k ↔ LineCommand.ofCsi (digitsValue seq.params) (ascii '~') = k :=
    ⟨fun same => (names _).mpr (named.mp same).2.2.2,fun same => named.mpr ⟨digits,bare,tilde,(names _).mp same⟩⟩
  have each : ∀ k : LineCommand, k.Named → (seq.Does k ↔ LineCommand.ofCsi (digitsValue seq.params) (ascii '~') = k) := by
    rintro k (rfl | rfl | rfl)
    · exact names deleteNumber handled.deletes
    · exact names homeNumber (handled.homes tilde)
    · exact names endNumber (handled.ends tilde)
  rcases tildeKinds (digitsValue seq.params % 2 ^ 32) with key | nothing
  · exact ((each _ key).mp does).symm
  · rcases tildeKinds (digitsValue seq.params) with key | nothing'
    · exact namedPlace key (.inr nothing) (doesPlace does ((each _ key).mpr rfl))
    · rw [nothing,nothing']

theorem plainDeletes (plain : seq.Plain) : seq.Does .deleteAt ↔ seq.Numbered (· = 3) := by
  constructor
  · intro deletes
    have tilde : seq.final = ascii '~' := by
      rcases LineCommand.ofCsiDeletes (digitsValue seq.params % 2 ^ 32) seq.final with ⟨_,tilde,_⟩ | other
      · exact tilde
      · exact absurd (doesPlace (plainDoes plain.digits plain.bare) deletes) (plainPlace other)
    exact (numberedIff plain tilde (.inl rfl) deleteNumber).mp deletes
  · intro numbered
    exact (numberedIff plain numbered.2.2.1 (.inl rfl) deleteNumber).mpr numbered

/- `edit` treats a control sequence as one exactly when only digits stand in it, and the
number fits the parser's 32 bits as far as it names a key. -/
theorem handledIff (seq : ControlSequence) : seq.Handled ↔ seq.Plain := by
  constructor
  · intro handled
    obtain ⟨digits,bare⟩ := busyIff.mp handled.parsed
    exact ⟨digits,bare,handledNumber handled⟩
  · intro plain
    refine ⟨busyIff.mpr ⟨plain.digits,plain.bare⟩,⟨_,fun c same => ?_,plainDoes plain.digits plain.bare⟩,plainDeletes plain,
      fun tilde => numberedIff plain tilde (.inr (.inl rfl)) homeNumber,fun tilde => numberedIff plain tilde (.inr (.inr rfl)) endNumber⟩
    have kinds := LineCommand.ofCsiDeletes (digitsValue seq.params % 2 ^ 32) seq.final
    rw [same] at kinds
    rcases kinds with ⟨deletes,_⟩ | insert
    · cases deletes
    · cases insert

/- Ctrl and the right arrow. -/
def ctrlRight : ControlSequence :=
  ⟨asciiText "1;5",[],ascii 'C',by decide,by decide,by decide⟩

/- The parser gives up at the semicolon, and the rest of the sequence is typed into the line. -/
theorem ctrlRightLeaks : ¬ ctrlRight.Handled ∧
    (run consoleSystem (.boot (fun _ => 0) [] 1) [.readline 5 1000 64,.irq ctrlRight.bytes]).textOf.line = asciiText "5C" := by
  refine ⟨fun handled => ?_,by decide +kernel⟩
  exact absurd (busyIff.mp handled.parsed).1 (by decide)

end ControlSequence
end Mukern
