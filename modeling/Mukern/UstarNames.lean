import Mukern.ArchiveVisits

/-! Looking up a path in an archive of the USTAR format. A name of 100 bytes fills its
field and has no NUL, and a long path has its first part in a field of its own; the
server compares the path with the bytes from the start of the header to the first NUL. -/
namespace Mukern
open Buffers

/- `folder` is the 155-byte prefix field. -/
structure UstarEntry where
  folder : List Byte
  name : List Byte
  mode : Nat
  size : Nat
  deriving DecidableEq, Repr

namespace UstarEntry

structure Valid (entry : UstarEntry) : Prop where
  named : 1 ≤ entry.name.length ∧ entry.name.length ≤ 100
  folded : entry.folder.length ≤ 155
  clean : 0 ∉ entry.name ∧ 0 ∉ entry.folder
  mode : entry.mode < 8 ^ 7
  size : entry.size < 8 ^ 11

def path (entry : UstarEntry) : List Byte := if entry.folder = [] then entry.name else entry.folder ++ [ascii '/'] ++ entry.name

/- What the header holds up to its first NUL: behind a name of 100 bytes come the seven digits of the mode. -/
def shown (entry : UstarEntry) : List Byte := if entry.name.length < 100 then entry.name else entry.name ++ octalDigits 7 entry.mode

/- The whole path stands in the name field, with its NUL. -/
def Plain (entry : UstarEntry) : Prop := entry.folder = [] ∧ entry.name.length < 100

instance (entry : UstarEntry) : Decidable entry.Plain := inferInstanceAs (Decidable (_ ∧ _))

/- The sectors from the header to the next one. -/
def span (entry : UstarEntry) : Word := BitVec.ofNat 64 (1 + (entry.size + 511) / 512)

end UstarEntry

/- `text` in a field of `width` bytes, with a NUL unless it fills the field. -/
def Field (hdr : Buffer Byte) (lo width : Nat) (text : List Byte) : Prop :=
  read hdr lo text.length = text ∧ (text.length < width → hdr (lo + text.length) = 0)

instance (hdr : Buffer Byte) (lo width : Nat) (text : List Byte) : Decidable (Field hdr lo width text) := inferInstanceAs (Decidable (_ ∧ (_ → _)))

/- The fields of a header that the format uses for the name, the mode and the size. -/
structure UstarHeader (hdr : Buffer Byte) (entry : UstarEntry) : Prop where
  name : Field hdr 0 100 entry.name
  mode : Field hdr 100 8 (octalDigits 7 entry.mode)
  size : Field hdr 124 12 (octalDigits 11 entry.size)
  folder : Field hdr 345 155 entry.folder

/- The archive from sector `lba` on. -/
def DiskContent.Archives (content : DiskContent) : Word → List UstarEntry → Prop
  | lba, [] => ∃ sector, content lba = some sector ∧ sector 0 = 0
  | lba, entry :: entries => (∃ sector, content lba = some sector ∧ UstarHeader sector entry) ∧ content.Archives (lba + entry.span) entries

/- The entries, each with the sector of its header. -/
def positions : Word → List UstarEntry → List (Word × UstarEntry)
  | _, [] => []
  | lba, entry :: entries => (lba,entry) :: positions (lba + entry.span) entries

/- The path is looked up as the format has it: a handle for the data of an entry of this path, and failure where
there is none. -/
structure LooksUp (entries : List UstarEntry) (p : List Byte) (r : Int) (ftab : Nat → Fent) : Prop where
  finds : 0 ≤ r ↔ ∃ entry ∈ entries, entry.path = p
  refers : 0 ≤ r → ∃ lba entry, (lba,entry) ∈ positions 0 entries ∧ entry.path = p ∧ ftab r.toNat = ⟨(lba + 1).toNat,entry.size,true⟩

/- The first header that shows the path is one that has it all in its name field; and where none shows it, no entry has it. -/
def Findable (entries : List UstarEntry) (p : List Byte) : Prop :=
  match entries.find? fun entry => entry.shown = p with
  | some entry => entry.Plain
  | none => ∀ entry ∈ entries, entry.path ≠ p

section headers
variable {hdr : Buffer Byte} {entry entry' : UstarEntry} {v : Visited} {lo width : Nat} {text text' : List Byte}

theorem octalNotNul : ∀ c : Byte, octal c → c ≠ 0 := by decide

theorem digitsClean {n value : Nat} : 0 ∉ octalDigits n value := fun member => octalNotNul 0 (octalDigitsOctal 0 member) rfl

/- A name that is shown up to its NUL. -/
theorem nameIs (holds : read v.sector 0 text.length = text) (clean : 0 ∉ text) (nul : v.sector text.length = 0) (short : text.length < 512) :
    v.name = text ∧ v.Ended := by
  have ended : v.Ended := List.mem_map.mpr ⟨text.length,List.mem_range'_1.mpr ⟨Nat.zero_le _,by omega⟩,nul⟩
  have whole : read v.sector 0 (text.length + 1) = text ++ [0] := by rw [readLast,holds,Nat.zero_add,nul]
  have shown : read v.sector 0 (v.name.length + 1) = v.name ++ [0] := by rw [readLast,v.nameRead,Nat.zero_add,(v.nameNul ended).2]
  exact ⟨namedUnique shown whole v.nameClean clean,ended⟩

/- A field has one text. -/
theorem fieldUnique (first : Field hdr lo width text) (second : Field hdr lo width text') (clean : 0 ∉ text) (clean' : 0 ∉ text')
    (fits : text.length ≤ width) (fits' : text'.length ≤ width) : text = text' := by
  have half {text text' : List Byte} (first : Field hdr lo width text) (second : Field hdr lo width text') (clean : 0 ∉ text')
      (fits : text'.length ≤ width) (short : text.length < text'.length) : False := by
    have nul := first.2 (Nat.lt_of_lt_of_le short fits)
    have cell := congrArg (·[text.length]?) second.1
    simp only [readGet short,nul] at cell
    exact clean (List.mem_of_getElem? cell.symm)
  have same : text.length = text'.length := by
    rcases Nat.lt_trichotomy text.length text'.length with short | same | long
    · exact (half first second clean' fits' short).elim
    · exact same
    · exact (half second first clean fits long).elim
  rw [← first.1,same,second.1]

/- What the header shows of the name. -/
theorem headerShows (header : UstarHeader v.sector entry) (valid : entry.Valid) : v.name = entry.shown ∧ v.Ended := by
  obtain ⟨holds,nul⟩ := header.name
  rw [Nat.zero_add] at nul
  rw [UstarEntry.shown]
  split
  · rename_i short
    exact nameIs holds valid.clean.1 (nul short) (by omega)
  · have full : entry.name.length = 100 := by
      have long := valid.named.2
      omega
    obtain ⟨digits,behind⟩ := header.mode
    have seven : (octalDigits 7 entry.mode).length = 7 := octalDigitsLength
    rw [seven] at digits behind
    have length : (entry.name ++ octalDigits 7 entry.mode).length = 100 + 7 := by rw [List.length_append,full,seven]
    refine nameIs ?_ (fun member => (List.mem_append.mp member).elim valid.clean.1 digitsClean) ?_ (by omega)
    · rw [full] at holds
      rw [length,readAppend,holds,Nat.zero_add,digits]
    · rw [length]
      exact behind (by decide)

theorem headerSizes (header : UstarHeader hdr entry) (valid : entry.Valid) : (parseOctalWord hdr 124 0 12).toNat = entry.size := by
  obtain ⟨digits,stop⟩ := header.size
  have length : (octalDigits 11 entry.size).length = 11 := octalDigitsLength
  have ends : ¬ octal (hdr (124 + (octalDigits 11 entry.size).length)) := by
    rw [stop (by omega)]
    decide
  rw [sizeValue,parseText digits (fun c => octalDigitsOctal c) ends (by omega),octalDigitsValue valid.size,Nat.zero_mul,Nat.zero_add]

theorem headerNamed (header : UstarHeader hdr entry) (valid : entry.Valid) : hdr 0 ≠ 0 := by
  obtain ⟨holds,_⟩ := header.name
  intro nul
  have some := valid.named.1
  refine valid.clean.1 ?_
  rw [← holds]
  exact List.mem_map.mpr ⟨0,List.mem_range'_1.mpr ⟨Nat.le_refl 0,by omega⟩,nul⟩

/- A header is that of one path. -/
theorem headerPath (header : UstarHeader hdr entry) (header' : UstarHeader hdr entry') (valid : entry.Valid) (valid' : entry'.Valid) :
    entry.path = entry'.path := by
  have name := fieldUnique header.name header'.name valid.clean.1 valid'.clean.1 valid.named.2 valid'.named.2
  have folder := fieldUnique header.folder header'.folder valid.clean.2 valid'.clean.2 valid.folded valid'.folded
  rw [UstarEntry.path,UstarEntry.path,name,folder]

/- A name of 100 bytes is not repeated seven bytes on, since the slash would come up among the digits of the mode. -/
theorem slashShown {folder name : List Byte} {mode : Nat} (six : folder.length = 6) (full : name.length = 100)
    (same : name ++ octalDigits 7 mode = folder ++ [ascii '/'] ++ name) : False := by
  have period : ∀ i < 100, (folder ++ [ascii '/'] ++ name)[i + 7]? = (folder ++ [ascii '/'] ++ name)[i]? := by
    intro i low
    have length : (folder ++ [ascii '/']).length = 7 := by rw [List.length_append,six]; rfl
    rw [List.getElem?_append_right (by omega),length,Nat.add_sub_cancel,← same,List.getElem?_append_left (by omega)]
  have slashes : ∀ k ≤ 14, (folder ++ [ascii '/'] ++ name)[6 + 7 * k]? = some (ascii '/') := by
    intro k
    induction k with
    | zero =>
      intro _
      rw [List.append_assoc,List.getElem?_append_right (by omega),six]
      rfl
    | succ k ih =>
      intro low
      rw [← ih (by omega),← period (6 + 7 * k) (by omega),Nat.mul_succ,Nat.add_assoc]
  have cell := slashes 14 (by decide)
  rw [← same,List.getElem?_append_right (by omega),full] at cell
  exact absurd (octalDigitsOctal _ (List.mem_of_getElem? cell)) (by decide)

/- The path is shown where it stands in the name field, and nowhere else. -/
theorem shownPath (valid : entry.Valid) : entry.shown = entry.path ↔ entry.Plain := by
  obtain ⟨folder,name,mode,size⟩ := entry
  have long := valid.named.2
  have seven : (octalDigits 7 mode).length = 7 := octalDigitsLength
  constructor
  · intro same
    have lengths := congrArg List.length same
    simp only [UstarEntry.shown,UstarEntry.path] at same lengths long
    by_contra split
    rcases Decidable.em (folder = []) with rfl | some
    · have full : ¬ name.length < 100 := fun short => split ⟨rfl,short⟩
      rw [if_neg full,if_pos rfl,List.length_append] at lengths
      omega
    · rw [if_neg some] at same lengths
      rcases Nat.lt_or_ge name.length 100 with short | full
      · rw [if_pos short,List.length_append,List.length_append,List.length_singleton] at lengths
        omega
      · rw [if_neg (Nat.not_lt.mpr full)] at same lengths
        rw [List.length_append,List.length_append,List.length_append,List.length_singleton] at lengths
        exact slashShown (by omega) (by omega) same
  · intro ⟨folded,short⟩
    rw [UstarEntry.shown,UstarEntry.path,if_pos short,if_pos folded]

theorem spanIs (header : UstarHeader v.sector entry) (valid : entry.Valid) : v.next = v.lba + entry.span := by
  have size := headerSizes header valid
  have small := sizeRange (p := v.sector)
  have sectors := sectorsValue small
  rw [size] at small sectors
  have span : 1 + sectorsOf v.size = entry.span := by
    apply BitVec.eq_of_toNat_eq
    rw [BitVec.toNat_add,Visited.size,sectors,UstarEntry.span,BitVec.toNat_ofNat]
    rfl
  rw [Visited.next,BitVec.add_assoc,span]

end headers

section lookup
variable {content : DiskContent} {lba : Word} {entries : List UstarEntry} {visited : List Visited} {p : List Byte}

/- A visited header, and the entry that it is of. -/
def Stands (v : Visited) (position : Word × UstarEntry) : Prop := v.lba = position.1 ∧ UstarHeader v.sector position.2

/- The walk through an archive visits the headers of its entries. -/
theorem archivesVisits (archives : content.Archives lba entries) (valid : ∀ entry ∈ entries, entry.Valid) :
    ∃ visited, Visits content lba visited ∧ List.Forall₂ Stands visited (positions lba entries) := by
  induction entries generalizing lba with
  | nil =>
    obtain ⟨_,found,empty⟩ := archives
    exact ⟨[],.empty found empty,.nil⟩
  | cons entry entries ih =>
    obtain ⟨⟨sector,found,header⟩,later⟩ := archives
    obtain ⟨first,others⟩ := List.forall_mem_cons.mp valid
    obtain ⟨rest,visits,stand⟩ := ih later others
    have next : (⟨lba,sector⟩ : Visited).next = lba + entry.span := spanIs (v := ⟨lba,sector⟩) header first
    rw [← next] at visits
    exact ⟨⟨lba,sector⟩ :: rest,.header (v := ⟨lba,sector⟩) found (headerNamed header first) visits,.cons ⟨rfl,header⟩ stand⟩

theorem positionsEntries : (positions lba entries).map Prod.snd = entries := by
  induction entries generalizing lba with
  | nil => rfl
  | cons entry entries ih => rw [positions,List.map_cons,ih]

theorem standsEnded {found : List (Word × UstarEntry)} (stand : List.Forall₂ Stands visited found)
    (valid : ∀ position ∈ found, position.2.Valid) : ∀ v ∈ visited, v.Ended := by
  induction stand with
  | nil => exact List.forall_mem_nil _
  | cons first rest ih =>
    obtain ⟨valid,others⟩ := List.forall_mem_cons.mp valid
    exact List.forall_mem_cons.mpr ⟨(headerShows first.2 valid).2,ih others⟩

/- The headers that show the path stand for the entries that do. -/
theorem standsFind {found : List (Word × UstarEntry)} (stand : List.Forall₂ Stands visited found) (valid : ∀ position ∈ found, position.2.Valid) :
    match visited.find? (fun v => v.name = p), found.find? (fun position => position.2.shown = p) with
    | some v, some position => Stands v position
    | none, none => True
    | _, _ => False := by
  induction stand with
  | nil => trivial
  | cons first rest ih =>
    rename_i v position vs found
    obtain ⟨valid,others⟩ := List.forall_mem_cons.mp valid
    rw [List.find?_cons,List.find?_cons,(headerShows first.2 valid).1]
    by_cases same : position.2.shown = p
    · rw [decide_eq_true same]
      exact first
    · rw [decide_eq_false same]
      exact ih others

theorem positionsHeaders (archives : content.Archives lba entries) :
    ∀ position ∈ positions lba entries, ∃ sector, content position.1 = some sector ∧ UstarHeader sector position.2 := by
  induction entries generalizing lba with
  | nil => exact List.forall_mem_nil _
  | cons entry entries ih => exact List.forall_mem_cons.mpr ⟨archives.1,ih archives.2⟩

/- The sector of a header tells the path. -/
theorem positionPath (archives : content.Archives lba entries) (valid : ∀ entry ∈ entries, entry.Valid) {place : Word} {entry entry' : UstarEntry}
    (member : (place,entry) ∈ positions lba entries) (member' : (place,entry') ∈ positions lba entries) : entry.path = entry'.path := by
  have snd : (positions lba entries).map Prod.snd = entries := positionsEntries
  have ok {entry : UstarEntry} (member : (place,entry) ∈ positions lba entries) : entry.Valid :=
    valid _ (snd ▸ List.mem_map_of_mem member)
  obtain ⟨sector,found,header⟩ := positionsHeaders archives _ member
  obtain ⟨sector',found',header'⟩ := positionsHeaders archives _ member'
  cases found.symm.trans found'
  exact headerPath header header' (ok member) (ok member')

/- `fs_open` takes the first entry that shows the path. -/
theorem opensShown (archives : content.Archives 0 entries) (valid : ∀ entry ∈ entries, entry.Valid) {last : Nat} (s : Walker last) {path : Nat}
    (given : Named s.memory path p) (clean : 0 ∉ p) {fuel turns : Nat} (long : last < fuel) (enough : entries.length < turns) :
    ∃ r k s', s.fsOpen (.fixed content) path fuel turns 0 0 = some (r,k,s') ∧
      match (positions 0 entries).find? fun position => position.2.shown = p with
      | some position => ∃ v, Stands v position ∧ (r,s'.ftab) = s.take v
      | none => (r,s'.ftab) = (-1,s.ftab) := by
  obtain ⟨visited,visits,stand⟩ := archivesVisits archives valid
  have snd : (positions 0 entries).map Prod.snd = entries := positionsEntries
  have valid' : ∀ position ∈ positions 0 entries, position.2.Valid := fun position member =>
    valid _ (snd ▸ List.mem_map_of_mem member)
  have length : visited.length = entries.length := by
    rw [stand.length_eq,← snd,List.length_map,snd]
  obtain ⟨r,k,s',opened,outcome⟩ := walkOpens visits (standsEnded stand valid') long (length ▸ enough) given clean 0
  refine ⟨r,k,s',opened,?_⟩
  have found := standsFind (p := p) stand valid'
  rcases first : visited.find? (fun v => v.name = p) with _ | v
  · rw [first] at outcome found
    rcases second : (positions 0 entries).find? (fun position => position.2.shown = p) with _ | position
    · rw [second]
      exact outcome
    · rw [second] at found
      exact found.elim
  · rw [first] at outcome found
    rcases second : (positions 0 entries).find? (fun position => position.2.shown = p) with _ | position
    · rw [second] at found
      exact found.elim
    · rw [second] at found
      rw [second]
      exact ⟨v,found,outcome⟩

theorem shownEntry : entries.find? (fun entry => entry.shown = p) =
    ((positions 0 entries).find? fun position => position.2.shown = p).map Prod.snd := by
  have snd : (positions 0 entries).map Prod.snd = entries := positionsEntries
  rw [← snd,List.find?_map,snd]
  rfl

theorem positionEntry {place : Word} {entry : UstarEntry} (member : (place,entry) ∈ positions lba entries) : entry ∈ entries := by
  have snd : (positions lba entries).map Prod.snd = entries := positionsEntries
  exact snd ▸ List.mem_map_of_mem member

/- A lookup that fails is right where no entry has the path. -/
theorem looksFailed {ftab : Nat → Fent} : LooksUp entries p (-1) ftab ↔ ∀ entry ∈ entries, entry.path ≠ p := by
  constructor
  · intro looks entry member same
    exact absurd (looks.finds.mpr ⟨entry,member,same⟩) (by decide)
  · intro none
    refine ⟨iff_of_false (by decide) ?_,fun positive => absurd positive (by decide)⟩
    rintro ⟨entry,member,same⟩
    exact none entry member same

/- A handle for an entry that shows the path is right where the entry has it all in its name field. -/
theorem looksTaken (archives : content.Archives 0 entries) (valid : ∀ entry ∈ entries, entry.Valid) {place : Word} {entry : UstarEntry}
    (member : (place,entry) ∈ positions 0 entries) (shown : entry.shown = p) {r : Int} {ftab : Nat → Fent} (positive : 0 ≤ r)
    (filled : ftab r.toNat = ⟨(place + 1).toNat,entry.size,true⟩) : LooksUp entries p r ftab ↔ entry.Plain := by
  have inside := positionEntry member
  have ok := valid entry inside
  constructor
  · intro looks
    obtain ⟨place',entry',member',path',filled'⟩ := looks.refers positive
    have same : place = place' := by
      have starts := congrArg Fent.dataLba (filled.symm.trans filled')
      exact (BitVec.add_left_inj 1).mp (BitVec.eq_of_toNat_eq starts)
    have path := positionPath archives valid member (same ▸ member')
    exact (shownPath ok).mp (shown.trans (path'.symm.trans path.symm))
  · intro plain
    have path : entry.path = p := ((shownPath ok).mpr plain).symm.trans shown
    exact ⟨iff_of_true positive ⟨entry,inside,path⟩,fun _ => ⟨place,entry,member,path,filled⟩⟩

/- Lookup follows the format exactly where the first header that shows the path has it all, and no entry of the path is
missed; with all handles in use, where there is no entry to find. -/
theorem looksUpIff (content : DiskContent) (entries : List UstarEntry) (archives : content.Archives 0 entries)
    (valid : ∀ entry ∈ entries, entry.Valid) {last : Nat} (s : Walker last) (p : List Byte) (path : Nat) (given : Named s.memory path p)
    (clean : 0 ∉ p) (fuel turns : Nat) (long : last < fuel) (enough : entries.length < turns) :
    ∃ r k s', s.fsOpen (.fixed content) path fuel turns 0 0 = some (r,k,s') ∧
      (LooksUp entries p r s'.ftab ↔
        ((∃ i < 8, (s.ftab i).used = false) → Findable entries p) ∧
        ((¬ ∃ i < 8, (s.ftab i).used = false) → ∀ entry ∈ entries, entry.path ≠ p)) := by
  obtain ⟨r,k,s',opened,outcome⟩ := opensShown archives valid s given clean long enough
  refine ⟨r,k,s',opened,?_⟩
  rcases first : (positions 0 entries).find? (fun position => position.2.shown = p) with _ | ⟨lba,entry⟩
  · rw [first] at outcome
    rw [(Prod.mk.inj outcome).1,looksFailed,Findable,shownEntry,first]
    exact ⟨fun none => ⟨fun _ => none,fun _ => none⟩,fun both => (Classical.em _).elim both.1 both.2⟩
  rw [first] at outcome
  obtain ⟨v,⟨same,header⟩,outcome⟩ := outcome
  have member := List.mem_of_find?_eq_some first
  have shows := List.find?_some first
  by_cases free : ∃ i < 8, (s.ftab i).used = false
  · obtain ⟨handle,_,takes⟩ := takesFree free v
    obtain ⟨taken,table⟩ := Prod.mk.inj (outcome.trans takes)
    have filled : s'.ftab r.toNat = ⟨(lba + 1).toNat,entry.size,true⟩ := by
      rw [table,taken,Int.toNat_natCast,Function.update_self,Visited.size,headerSizes header (valid _ (positionEntry member)),same]
    rw [looksTaken archives valid member (of_decide_eq_true shows) (by omega) filled,Findable,shownEntry,first]
    exact ⟨fun plain => ⟨fun _ => plain,fun full => absurd free full⟩,fun both => both.1 free⟩
  · rw [(Prod.mk.inj (outcome.trans (takesFull free v))).1,looksFailed]
    exact ⟨fun none => ⟨fun free' => absurd free' free,fun _ => none⟩,fun both => both.2 free⟩

end lookup

namespace UstarEntry
variable (entry : UstarEntry)

/- The header of the entry, with the other fields empty. -/
def sector : Buffer Byte := fun j =>
  if j < 100 then entry.name.getD j 0
  else if j < 108 then (octalDigits 7 entry.mode).getD (j - 100) 0
  else if 124 ≤ j ∧ j < 136 then (octalDigits 11 entry.size).getD (j - 124) 0
  else if 345 ≤ j ∧ j < 500 then entry.folder.getD (j - 345) 0
  else 0

/- An archive of this entry, which has no data. -/
def disk : DiskContent := fun lba => some (if lba = 0 then entry.sector else fun _ => 0)

/- The server as it starts, with the entry's path at address 0. -/
def client : Walker 512 := ⟨fun _ => 0,zeroNul,fun _ => ⟨0,0,false⟩,fun j => entry.path.getD j 0⟩

/- The entry is there, and its path is not found. -/
def Missed : Prop := entry.Valid ∧ entry.disk.Archives 0 [entry] ∧ Named entry.client.memory 0 entry.path ∧
  ∃ k s', entry.client.fsOpen (.fixed entry.disk) 0 513 2 0 0 = some (-1,k,s') ∧ ¬ LooksUp [entry] entry.path (-1) s'.ftab

/- A file with a short name. -/
def short : UstarEntry := ⟨[],[ascii 'a'],0o644,0⟩

/- A file whose name fills its field. -/
def full : UstarEntry := ⟨[],List.replicate 100 (ascii 'a'),0o644,0⟩

/- A file whose path is split over the two fields. -/
def folded : UstarEntry := ⟨[ascii 'd'],[ascii 'a'],0o644,0⟩

end UstarEntry

theorem looksUpShort : ∃ r k s', UstarEntry.short.client.fsOpen (.fixed UstarEntry.short.disk) 0 513 2 0 0 = some (r,k,s') ∧
    (LooksUp [.short] [ascii 'a'] r s'.ftab ↔
      ((∃ i < 8, (UstarEntry.short.client.ftab i).used = false) → Findable [.short] [ascii 'a']) ∧
      ((¬ ∃ i < 8, (UstarEntry.short.client.ftab i).used = false) → ∀ entry ∈ [UstarEntry.short], entry.path ≠ [ascii 'a'])) := by
  refine looksUpIff UstarEntry.short.disk [.short] ⟨⟨_,rfl,?_⟩,_,rfl,?_⟩ (List.forall_mem_singleton.mpr ?_) _ [ascii 'a'] 0 ?_ (by decide) 513 2 (by decide) (by decide)
  · exact ⟨by decide +kernel,by decide +kernel,by decide +kernel,by decide +kernel⟩
  · decide +kernel
  · exact ⟨by decide,by decide,by decide,by decide,by decide⟩
  · decide +kernel

/- Both paths are in their archives. -/
theorem pathsMissed : UstarEntry.full.Missed ∧ UstarEntry.folded.Missed := by
  have missed (entry : UstarEntry) (valid : entry.Valid) (archives : entry.disk.Archives 0 [entry])
      (named : Named entry.client.memory 0 entry.path) (clean : 0 ∉ entry.path) (split : entry.shown ≠ entry.path) : entry.Missed := by
    obtain ⟨r,k,s',opened,outcome⟩ :=
      opensShown archives (List.forall_mem_singleton.mpr valid) entry.client named clean (Nat.lt_succ_self 512) (Nat.lt_succ_self 1)
    have none : ((positions 0 [entry]).find? fun position => position.2.shown = entry.path) = none := by
      refine List.find?_eq_none.mpr (List.forall_mem_singleton.mpr fun shown => split ?_)
      exact of_decide_eq_true shown
    rw [none] at outcome
    obtain ⟨rfl,_⟩ := Prod.mk.inj outcome
    refine ⟨valid,archives,named,k,s',opened,fun looks => ?_⟩
    have found := looks.finds.mpr ⟨entry,List.mem_singleton.mpr rfl,rfl⟩
    exact absurd found (by decide)
  constructor
  · refine missed .full ⟨by decide,by decide,by decide,by decide,by decide⟩ ⟨⟨_,rfl,?_⟩,_,rfl,?_⟩ ?_ ?_ ?_
    · exact ⟨by decide +kernel,by decide +kernel,by decide +kernel,by decide +kernel⟩
    · decide +kernel
    · decide +kernel
    · decide +kernel
    · decide +kernel
  · refine missed .folded ⟨by decide,by decide,by decide,by decide,by decide⟩ ⟨⟨_,rfl,?_⟩,_,rfl,?_⟩ ?_ ?_ ?_
    · exact ⟨by decide +kernel,by decide +kernel,by decide +kernel,by decide +kernel⟩
    · decide +kernel
    · decide +kernel
    · decide +kernel
    · decide +kernel

end Mukern
