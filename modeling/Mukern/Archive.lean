import Mukern.FileReads

/-! USTAR archives on a disk: what a list of files looks like in sectors, and what the
file server's functions make of it. -/
namespace Mukern
open Buffers

/- A drive of `sectors` sectors, whose reads succeed. -/
structure Disk where
  sectors : Nat
  data : Nat → Buffer Byte

def Disk.drive (disk : Disk) : Drive := ⟨fun i => if i < disk.sectors then some (disk.data i) else none⟩

structure File where
  name : List Byte
  content : List Byte
  deriving DecidableEq, Repr

namespace File

/- A name of 1 to 99 bytes, and a size that 11 octal digits hold. -/
def Valid (file : File) : Prop :=
  1 ≤ file.name.length ∧ file.name.length ≤ 99 ∧ 0 ∉ file.name ∧ file.content.length < 8 ^ 11

instance (file : File) : Decidable file.Valid := inferInstanceAs (Decidable (_ ∧ _))

/- The sectors that hold the content. -/
def span (file : File) : Nat := (file.content.length + 511) / 512

end File

/- `n` octal digits of a number, the most significant first. -/
def octalDigits : (n value : Nat) → List Byte
  | 0, _ => []
  | n + 1, value => octalDigits n (value / 8) ++ [BitVec.ofNat 8 (48 + value % 8)]

/- The fields of a header that the server looks at: the name with its NUL, and the size
as 11 digits and a terminator. -/
def Header (hdr : Buffer Byte) (file : File) : Prop :=
  read hdr 0 (file.name.length + 1) = file.name ++ [0] ∧ read hdr 124 11 = octalDigits 11 file.content.length ∧ ¬ octal (hdr 135)

/- From sector `lba` on: a header and the content for each file, then an empty block. -/
def Disk.Holds (disk : Disk) : (lba : Nat) → List File → Prop
  | lba, [] => lba < disk.sectors ∧ disk.data lba 0 = 0
  | lba, file :: files =>
    lba < disk.sectors ∧ Header (disk.data lba) file ∧
    (∀ k < file.span, lba + 1 + k < disk.sectors ∧
      read (disk.data (lba + 1 + k)) 0 (min 512 (file.content.length - k * 512)) = (file.content.drop (k * 512)).take 512) ∧
    disk.Holds (lba + 1 + file.span) files

instance (hdr : Buffer Byte) (file : File) : Decidable (Header hdr file) := inferInstanceAs (Decidable (_ ∧ _))

instance Disk.decidableHolds (disk : Disk) : (lba : Nat) → (files : List File) → Decidable (disk.Holds lba files)
  | lba, [] => inferInstanceAs (Decidable (lba < disk.sectors ∧ disk.data lba 0 = 0))
  | lba, file :: files =>
    have := disk.decidableHolds (lba + 1 + file.span) files
    inferInstanceAs (Decidable (lba < disk.sectors ∧ Header (disk.data lba) file ∧
      (∀ k < file.span, lba + 1 + k < disk.sectors ∧
        read (disk.data (lba + 1 + k)) 0 (min 512 (file.content.length - k * 512)) = (file.content.drop (k * 512)).take 512) ∧
      disk.Holds (lba + 1 + file.span) files))

/- A path in a client's memory. -/
def Named (memory : Buffer Byte) (path : Nat) (name : List Byte) : Prop := read memory path (name.length + 1) = name ++ [0]

instance (memory : Buffer Byte) (path : Nat) (name : List Byte) : Decidable (Named memory path name) := inferInstanceAs (Decidable (_ = _))

section octal
variable {p hdr : Buffer Byte} {text : List Byte} {i n v value : Nat}

theorem octalDigitsLength : (octalDigits n value).length = n := by
  induction n generalizing value with
  | zero => rfl
  | succ n ih => rw [octalDigits,List.length_append,ih,List.length_singleton]

theorem octalDigit (digit : n < 8) : octal (BitVec.ofNat 8 (48 + n)) ∧ (BitVec.ofNat 8 (48 + n) - ascii '0').toNat = n := by
  have each : ∀ n : Fin 8, octal (BitVec.ofNat 8 (48 + n.val)) ∧ (BitVec.ofNat 8 (48 + n.val) - ascii '0').toNat = n.val := by decide
  exact each ⟨n,digit⟩

theorem octalDigitsOctal : ∀ c ∈ octalDigits n value, octal c := by
  induction n generalizing value with
  | zero => exact nofun
  | succ n ih =>
    intro c member
    rcases List.mem_append.mp member with member | member
    · exact ih c member
    · rw [List.mem_singleton.mp member]
      exact (octalDigit (Nat.mod_lt value (by decide))).1

/- What the digits add to the value read so far. -/
theorem octalDigitsValue (short : value < 8 ^ n) :
    (octalDigits n value).foldl (fun v c => v * 8 + (c - ascii '0').toNat) v = v * 8 ^ n + value := by
  induction n generalizing value with
  | zero =>
    have zero : value = 0 := by simpa using short
    rw [octalDigits,List.foldl_nil,Nat.pow_zero,Nat.mul_one,zero,Nat.add_zero]
  | succ n ih =>
    have less : value / 8 < 8 ^ n := Nat.div_lt_of_lt_mul (by rwa [Nat.pow_succ,Nat.mul_comm] at short)
    rw [octalDigits,List.foldl_append,ih less,List.foldl_cons,List.foldl_nil,(octalDigit (Nat.mod_lt value (by decide))).2,Nat.pow_succ]
    have parts := Nat.div_add_mod value 8
    calc (v * 8 ^ n + value / 8) * 8 + value % 8 = v * (8 ^ n * 8) + (8 * (value / 8) + value % 8) := by rw [Nat.add_mul,Nat.mul_assoc]; omega
      _ = v * (8 ^ n * 8) + value := by rw [parts]

theorem parseText (holds : read p i text.length = text) (digits : ∀ c ∈ text, octal c) (stop : ¬ octal (p (i + text.length))) (room : text.length < n) :
    parseOctal p i v n = text.foldl (fun v c => v * 8 + (c - ascii '0').toNat) v := by
  induction text generalizing i v n with
  | nil =>
    obtain ⟨n,rfl⟩ := Nat.exists_eq_add_of_lt room
    rw [List.length_nil,Nat.zero_add,parseOctal]
    exact if_neg stop
  | cons c text ih =>
    obtain ⟨first,rest⟩ := List.cons.inj holds
    obtain ⟨m,rfl⟩ := Nat.exists_eq_add_of_lt (Nat.zero_lt_of_lt room)
    rw [Nat.zero_add,parseOctal,first,if_pos (digits c List.mem_cons_self),List.foldl_cons]
    have next : i + (c :: text).length = i + 1 + text.length := by
      rw [List.length_cons]
      omega
    rw [next] at stop
    exact ih rest (fun d member => digits d (List.mem_cons_of_mem _ member)) stop (by rw [List.length_cons] at room; omega)

theorem headerSize {file : File} (header : Header hdr file) (valid : file.Valid) : parseOctal hdr 124 0 12 = file.content.length := by
  obtain ⟨_,digits,stop⟩ := header
  have length : (octalDigits 11 file.content.length).length = 11 := octalDigitsLength
  have parsed := parseText (v := 0) (n := 12) (by rw [length]; exact digits) (fun c => octalDigitsOctal c) (by rwa [length]) (by rw [length]; decide)
  rw [parsed,octalDigitsValue valid.2.2.2,Nat.zero_mul,Nat.zero_add]

end octal
section names
variable {a b memory : Buffer Byte} {i j n path : Nat} {name name' : List Byte}

theorem nameEqIs (holds : read a i (name.length + 1) = name ++ [0]) (clean : 0 ∉ name) (turns : name.length ≤ n) :
    nameEq a i b j n = true ↔ read b j (name.length + 1) = name ++ [0] := by
  induction name generalizing i j n with
  | nil =>
    have nul : a i = 0 := (List.cons.inj holds).1
    have compared : nameEq a i b j n = decide (a i = b j) := by
      cases n with
      | zero => rfl
      | succ n =>
        rw [nameEq,if_neg]
        exact fun more => more.1 nul
    rw [compared,decide_eq_true_eq,nul]
    constructor
    · intro same
      rw [List.length_nil,readCons,← same]
      rfl
    · intro same
      exact (List.cons.inj same).1.symm
  | cons c name ih =>
    obtain ⟨first,rest⟩ := List.cons.inj holds
    obtain ⟨m,rfl⟩ := Nat.exists_eq_add_of_lt (Nat.lt_of_lt_of_le (Nat.succ_pos _) turns)
    have some : c ≠ 0 := fun none => clean (none ▸ List.mem_cons_self)
    rw [Nat.zero_add,nameEq,first,List.length_cons,readCons,List.cons_append]
    by_cases same : c = b j
    · rw [if_pos ⟨some,same⟩,ih rest (fun member => clean (List.mem_cons_of_mem _ member)) (by rw [List.length_cons] at turns; omega),← same]
      simp
    · rw [if_neg (fun both => same both.2),decide_eq_true_eq]
      exact ⟨fun equal => absurd equal same,fun equal => absurd (List.cons.inj equal).1.symm same⟩

/- A path in memory names one file. -/
theorem namedUnique (first : Named memory path name) (second : Named memory path name') (clean : 0 ∉ name) (clean' : 0 ∉ name') : name = name' := by
  have same : ∀ (name name' : List Byte), name.length ≤ name'.length → Named memory path name → Named memory path name' → 0 ∉ name' → name = name' := by
    intro name name' short first second clean
    have cut : (name' ++ [0]).take (name.length + 1) = name ++ [0] := by
      rw [← second,readTake,Nat.min_eq_left (by omega),first]
    rcases Nat.lt_or_eq_of_le short with less | equal
    · rw [List.take_append_of_le_length less] at cut
      have nul : (0 : Byte) ∈ name'.take (name.length + 1) := by rw [cut]; exact List.mem_append_right _ List.mem_cons_self
      exact absurd (List.mem_of_mem_take nul) clean
    · have whole : name.length + 1 = (name' ++ [0]).length := by rw [List.length_append,equal]; rfl
      rw [whole,List.take_length] at cut
      exact (List.append_cancel_right cut).symm
  rcases Nat.le_total name.length name'.length with short | long
  · exact same name name' short first second clean'
  · exact (same name' name long second first clean).symm

end names

section disk
variable {disk : Disk} {lba n j buf : Nat} {b memory : Buffer Byte} {file : File} {files : List File} {server : FileServer}

theorem blkReads (small : disk.sectors ≤ 2 ^ 28) (inside : lba < disk.sectors) (b : Buffer Byte) (lo : Nat) :
    disk.drive.blkRead lba b lo = some (fill b lo (disk.data lba)) := by
  have same : lba % 2 ^ 28 = lba := Nat.mod_eq_of_lt (by omega)
  simp only [Drive.blkRead,Drive.ataRead1,same,Disk.drive,if_pos inside,Option.map_some]

/- A header as it lies in `hdr` after the read. -/
theorem headerCopied (header : Header (disk.data lba) file) (valid : file.Valid) : Header (fill b 0 (disk.data lba)) file := by
  have cell (i : Nat) (low : i < 512) : fill b 0 (disk.data lba) i = disk.data lba i := by
    have inside := fillInside b 0 (disk.data lba) low
    rwa [Nat.zero_add] at inside
  have short := valid.2.1
  refine ⟨(readCongr fun i _ high => cell i (by omega)).trans header.1,(readCongr fun i _ high => cell i (by omega)).trans header.2.1,?_⟩
  rw [cell 135 (by decide)]
  exact header.2.2

/- The content lies in the sectors from `dataLba` on. -/
def Disk.Stores (disk : Disk) (dataLba : Nat) (file : File) : Prop :=
  ∀ k < file.span, dataLba + k < disk.sectors ∧
    read (disk.data (dataLba + k)) 0 (min 512 (file.content.length - k * 512)) = (file.content.drop (k * 512)).take 512

theorem storedByte {dataLba : Nat} (stores : disk.Stores dataLba file) (low : j < file.content.length) :
    dataLba + j / 512 < disk.sectors ∧ some (disk.data (dataLba + j / 512) (j % 512)) = file.content[j]? := by
  have parts := Nat.div_add_mod' j 512
  have small := Nat.mod_lt j (by decide : 0 < 512)
  obtain ⟨inside,run⟩ := stores (j / 512) (by unfold File.span; omega)
  have cell : (read (disk.data (dataLba + j / 512)) 0 (min 512 (file.content.length - j / 512 * 512)))[j % 512]? =
      ((file.content.drop (j / 512 * 512)).take 512)[j % 512]? := congrArg (·[j % 512]?) run
  rw [readGet (by omega),Nat.zero_add,List.getElem?_take_of_lt small,List.getElem?_drop,parts] at cell
  exact ⟨inside,cell⟩

theorem headerStarts {hdr : Buffer Byte} (header : Header hdr file) (valid : file.Valid) : hdr 0 ≠ 0 := by
  obtain ⟨some,_,clean,_⟩ := valid
  obtain ⟨named,_,_⟩ := header
  cases name : file.name with
  | nil =>
    rw [name] at some
    cases some
  | cons c rest =>
    rw [name] at named clean
    have first : hdr 0 = c := (List.cons.inj named).1
    rw [first]
    exact fun none => clean (none ▸ List.mem_cons_self)

/- The outcome of `fs_open` at a header with the path's name. -/
def FileServer.takeEntry (server : FileServer) (dataLba size : Nat) : Int × FileServer :=
  match server.freeEntry with
  | some i => (i,{ server with ftab := Function.update server.ftab i ⟨dataLba,size,true⟩ })
  | none => (-1,server)

/- One header of the walk. -/
theorem walkStep (small : disk.sectors ≤ 2 ^ 28) (holds : disk.Holds lba (file :: files)) (valid : file.Valid) (path : Nat)
    (server : FileServer) :
    ∃ hdr, ∀ turns, FileServer.fsOpen disk.drive path (turns + 1) lba server =
      if Named server.memory path file.name then some ({ server with hdr := hdr }.takeEntry (lba + 1) file.content.length)
      else FileServer.fsOpen disk.drive path turns (lba + 1 + file.span) { server with hdr := hdr } := by
  obtain ⟨inside,header,_,_⟩ := holds
  have copied := headerCopied header valid (b := server.hdr)
  have named : nameEq (fill server.hdr 0 (disk.data lba)) 0 server.memory path 512 = true ↔ Named server.memory path file.name :=
    nameEqIs copied.1 valid.2.2.1 (by have := valid.2.1; omega)
  refine ⟨fill server.hdr 0 (disk.data lba),fun turns => ?_⟩
  rw [FileServer.fsOpen,blkReads small inside]
  simp only [if_neg (headerStarts copied valid),headerSize copied valid,named]
  by_cases same : Named server.memory path file.name
  · rw [if_pos same,if_pos same,FileServer.takeEntry]
    rcases FileServer.freeEntry _ with _ | i <;> rfl
  · rw [if_neg same,if_neg same]
    rfl

theorem opensOther (small : disk.sectors ≤ 2 ^ 28) (holds : disk.Holds lba files) (valid : ∀ file ∈ files, file.Valid) {path : Nat}
    (other : ∀ file ∈ files, ¬ Named server.memory path file.name) (turns : files.length < n) :
    ∃ hdr, FileServer.fsOpen disk.drive path n lba server = some (-1,{ server with hdr := hdr }) := by
  induction files generalizing lba n server with
  | nil =>
    obtain ⟨inside,ended⟩ := holds
    obtain ⟨m,rfl⟩ := Nat.exists_eq_add_of_lt turns
    have empty : fill server.hdr 0 (disk.data lba) 0 = 0 := (fillInside server.hdr 0 (disk.data lba) (by decide : 0 < 512)).trans ended
    refine ⟨fill server.hdr 0 (disk.data lba),?_⟩
    rw [List.length_nil,Nat.zero_add,FileServer.fsOpen,blkReads small inside]
    exact if_pos empty
  | cons file files ih =>
    obtain ⟨m,rfl⟩ := Nat.exists_eq_add_of_lt (Nat.zero_lt_of_lt turns)
    obtain ⟨hdr,walk⟩ := walkStep small holds (valid file List.mem_cons_self) path server
    have rest : ∀ file ∈ files, ¬ Named { server with hdr := hdr }.memory path file.name := fun file member =>
      other file (List.mem_cons_of_mem _ member)
    rw [Nat.zero_add,walk,if_neg (other file List.mem_cons_self)]
    exact ih holds.2.2.2 (fun file member => valid file (List.mem_cons_of_mem _ member)) rest (by rw [List.length_cons] at turns; omega)

theorem opensNamed (small : disk.sectors ≤ 2 ^ 28) (holds : disk.Holds lba files) (valid : ∀ file ∈ files, file.Valid)
    (distinct : (files.map File.name).Nodup) (member : file ∈ files) {path : Nat} (named : Named server.memory path file.name)
    (turns : files.length < n) :
    ∃ dataLba hdr, disk.Stores dataLba file ∧
      FileServer.fsOpen disk.drive path n lba server = some ({ server with hdr := hdr }.takeEntry dataLba file.content.length) := by
  induction files generalizing lba n server with
  | nil => cases member
  | cons first files ih =>
    obtain ⟨m,rfl⟩ := Nat.exists_eq_add_of_lt (Nat.zero_lt_of_lt turns)
    obtain ⟨hdr,walk⟩ := walkStep small holds (valid first List.mem_cons_self) path server
    obtain ⟨fresh,rest⟩ := List.nodup_cons.mp distinct
    rw [Nat.zero_add]
    rcases List.mem_cons.mp member with rfl | later
    · refine ⟨lba + 1,hdr,holds.2.2.1,?_⟩
      rw [walk,if_pos named]
    · have other : ¬ Named server.memory path first.name := fun same => by
        have equal := namedUnique same named (valid first List.mem_cons_self).2.2.1 (valid file member).2.2.1
        exact fresh (equal ▸ List.mem_map_of_mem later)
      rw [walk,if_neg other]
      exact ih holds.2.2.2 (fun file member => valid file (List.mem_cons_of_mem _ member)) rest later named
        (by rw [List.length_cons] at turns; omega)

/- What `fs_read` does with an entry for the file. -/
theorem readsEntry (small : disk.sectors ≤ 2 ^ 28) {h : Nat} (low : h < 8) (entry : server.ftab h = ⟨lba,file.content.length,true⟩)
    (stores : disk.Stores lba file) (buf max : Nat) :
    (server.fsRead disk.drive h buf max).1 = min file.content.length max ∧
    read (server.fsRead disk.drive h buf max).2.memory buf (min file.content.length max) = file.content.take (min file.content.length max) ∧
    (∀ j, j < buf ∨ buf + min file.content.length max ≤ j → (server.fsRead disk.drive h buf max).2.memory j = server.memory j) ∧
    (server.fsRead disk.drive h buf max).2.ftab = server.ftab := by
  have opened : server.Opened h := ⟨by omega,by omega,by rw [Int.toNat_natCast,entry]⟩
  have wanted : server.wanted h max = min file.content.length max := by rw [FileServer.wanted,Int.toNat_natCast,entry]
  obtain ⟨count,bytes,outside,same⟩ := fsReadSpec (fun i => disk.drive.ataRead1 (lba + i)) buf max opened
  rw [wanted] at count bytes outside
  rw [fsReadDrive,Int.toNat_natCast,entry]
  refine ⟨count,?_,outside,same⟩
  apply List.ext_getElem?
  intro j
  rcases Nat.lt_or_ge j (min file.content.length max) with low | high
  · obtain ⟨inside,byte⟩ := storedByte stores (by omega : j < file.content.length)
    have sector : disk.drive.ataRead1 (lba + j / 512) = some (disk.data (lba + j / 512)) := by
      have address : (lba + j / 512) % 2 ^ 28 = lba + j / 512 := Nat.mod_eq_of_lt (by omega)
      simp only [Drive.ataRead1,address,Disk.drive,if_pos inside]
    rw [readGet low,List.getElem?_take_of_lt low,bytes j low,sector,← byte]
    rfl
  · rw [List.getElem?_eq_none (by rwa [readLength]),List.getElem?_take_eq_none high]

end disk
end Mukern
