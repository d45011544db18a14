import Mukern.Abi
import Mukern.FileServer

/-! The walks of `fs_open` and `fs_list` in the machine words of the source, over any
device that has an end. -/
namespace Mukern
open Buffers

/- What the block driver answers to the `k`-th read of a walk. A read may fail anywhere,
and from sector `n` on it does. -/
structure BlockDevice (n : Nat) where
  answer : (k : Nat) → (lba : Word) → Option (Buffer Byte)
  ends : ∀ k lba, n ≤ lba.toNat → answer k lba = none

/- The server during a walk. `hdr` stands for the memory from that array on: behind its
512 bytes lies the rest of the image, where the zero fill of the loader leaves a NUL. -/
structure Walker (last : Nat) where
  hdr : Buffer Byte
  nul : 512 ≤ last ∧ hdr last = 0
  ftab : Nat → Fent
  memory : Buffer Byte

theorem zeroNul : 512 ≤ 512 ∧ (0 : Byte) = 0 := ⟨le_refl 512,rfl⟩

/- `parse_octal(p + i, n)` with `v` read so far. -/
def parseOctalWord (p : Buffer Byte) (i : Nat) (v : Word) : (n : Nat) → Word
  | 0 => v
  | n + 1 => if octal (p i) then parseOctalWord p (i + 1) ((v <<< 3) + (p i - ascii '0').setWidth 64) n else v

/- The loop of `name_eq`; `none` when `fuel` turns do not reach its end. -/
def nameEqWithin (a : Buffer Byte) (b : Buffer Byte) : (fuel i j : Nat) → Option Bool
  | 0, _, _ => none
  | fuel + 1, i, j => if a i ≠ 0 ∧ a i = b j then nameEqWithin a b fuel (i + 1) (j + 1) else some (a i = b j)

/- The inner loop of `fs_list`, with the last `out`. -/
def listNameWithin (name : Buffer Byte) (buf max : Word) : (fuel i : Nat) → (out : Word) → Buffer Byte → Option (Buffer Byte × Word)
  | 0, _, _, _ => none
  | fuel + 1, i, out, memory =>
    if name i ≠ 0 ∧ out + 2 < max then listNameWithin name buf max fuel (i + 1) (out + 1) (memory.set (buf + out).toNat (name i))
    else some (memory,out)

/- The sectors that a file of this size takes behind its header. -/
def sectorsOf (size : Word) : Word := (size + 511) / 512

namespace Walker
variable {last n : Nat}

def load (s : Walker last) (sector : Buffer Byte) : Walker last :=
  { s with
    hdr := fill s.hdr 0 sector
    nul := by
      obtain ⟨behind,nul⟩ := s.nul
      have kept : ∀ n ≤ 512, copy s.hdr 0 sector 0 n last = s.hdr last := fun n short => copyOther (by omega)
      unfold fill
      exact ⟨behind,(kept 512 (by decide)).trans nul⟩ }

/- The walk of `fs_open` after `k` block reads; `none` when `turns` headers, or `fuel`
turns of the inner loop, were not enough. The reply comes with the number of block reads. -/
def fsOpen (device : BlockDevice n) (path fuel : Nat) : (turns k : Nat) → (lba : Word) → Walker last → Option (Int × Nat × Walker last)
  | 0, _, _, _ => none
  | turns + 1, k, lba, s =>
    match device.answer k lba with
    | none => some (-1,k + 1,s)
    | some sector =>
      let s := s.load sector
      if s.hdr 0 = 0 then some (-1,k + 1,s)
      else
        let size := parseOctalWord s.hdr 124 0 12
        let dataLba := lba + 1
        match nameEqWithin s.hdr s.memory fuel 0 path with
        | none => none
        | some true =>
          match (List.range 8).find? fun i => !(s.ftab i).used with
          | some i => some (i,k + 1,{ s with ftab := Function.update s.ftab i ⟨dataLba.toNat,size.toNat,true⟩ })
          | none => some (-1,k + 1,s)
        | some false => fsOpen device path fuel turns (k + 1) (dataLba + sectorsOf size) s

/- The walk of `fs_list`. -/
def fsList (device : BlockDevice n) (buf max : Word) (fuel : Nat) :
    (turns k : Nat) → (lba out : Word) → Walker last → Option (Word × Nat × Walker last)
  | 0, _, _, _, _ => none
  | turns + 1, k, lba, out, s =>
    match device.answer k lba with
    | none => some (out,k + 1,{ s with memory := s.memory.set (buf + out).toNat 0 })
    | some sector =>
      let s := s.load sector
      if s.hdr 0 = 0 then some (out,k + 1,{ s with memory := s.memory.set (buf + out).toNat 0 })
      else
        match listNameWithin s.hdr buf max fuel 0 out s.memory with
        | none => none
        | some (memory,out) =>
          let (memory,out) := if out + 1 < max then (memory.set (buf + out).toNat 10,out + 1) else (memory,out)
          let size := parseOctalWord s.hdr 124 0 12
          fsList device buf max fuel turns (k + 1) (lba + (1 + sectorsOf size)) out { s with memory := memory }

end Walker

section
variable {last n fuel turns k i j path m : Nat} {p a b memory : Buffer Byte} {v lba out buf max size : Word} {device : BlockDevice n} {s : Walker last}

/- Three bits a digit: twelve digits fit, and their value is what it is without a width. -/
theorem parseOctalValue (short : v.toNat < 8 ^ m) (fits : m + n ≤ 21) :
    (parseOctalWord p i v n).toNat = parseOctal p i v.toNat n ∧ (parseOctalWord p i v n).toNat < 8 ^ (m + n) := by
  induction n generalizing v i m with
  | zero => exact ⟨rfl,short⟩
  | succ n ih =>
    rw [parseOctalWord,parseOctal]
    split
    · rename_i digit
      have low : (p i - ascii '0').toNat < 8 := by
        have zero : (ascii '0').toNat = 48 := rfl
        have seven : (ascii '7').toNat = 55 := rfl
        obtain ⟨above,below⟩ := digit
        rw [BitVec.toNat_sub_of_le above]
        rw [BitVec.le_def] at above below
        omega
      have wide : ((p i - ascii '0').setWidth 64).toNat = (p i - ascii '0').toNat := by
        rw [BitVec.toNat_setWidth]
        exact Nat.mod_eq_of_lt (by omega)
      have room : 8 ^ m * 8 ≤ 8 ^ 21 := by
        rw [← Nat.pow_succ]
        exact Nat.pow_le_pow_right (by decide) (by omega)
      have shifted : (v <<< 3).toNat = v.toNat * 8 := by
        rw [BitVec.toNat_shiftLeft,Nat.shiftLeft_eq]
        exact Nat.mod_eq_of_lt (by omega)
      have next : ((v <<< 3) + (p i - ascii '0').setWidth 64).toNat = v.toNat * 8 + (p i - ascii '0').toNat := by
        rw [BitVec.toNat_add,shifted,wide]
        exact Nat.mod_eq_of_lt (by omega)
      have grown : ((v <<< 3) + (p i - ascii '0').setWidth 64).toNat < 8 ^ (m + 1) := by
        rw [next,Nat.pow_succ]
        omega
      have rest := ih (i := i + 1) grown (by omega)
      rwa [next,Nat.add_right_comm,Nat.add_assoc] at rest
    · exact ⟨rfl,lt_of_lt_of_le short (Nat.pow_le_pow_right (by decide) (by omega))⟩

theorem sizeRange : (parseOctalWord p 124 0 12).toNat < 2 ^ 36 := (parseOctalValue (v := 0) (m := 0) (by decide) (by decide)).2

theorem sizeValue : (parseOctalWord p 124 0 12).toNat = parseOctal p 124 0 12 := (parseOctalValue (v := 0) (m := 0) (by decide) (by decide)).1

theorem sectorsValue (small : size.toNat < 2 ^ 36) : (sectorsOf size).toNat = (size.toNat + 511) / 512 := by
  have rounding : (size + 511).toNat = size.toNat + 511 := BitVec.toNat_add_of_lt (by
    have literal : (511 : Word).toNat = 511 := rfl
    omega)
  rw [sectorsOf,BitVec.toNat_udiv,rounding]
  rfl

/- The next header lies beyond this one: the sum does not wrap below sector 2^63. -/
theorem walkAdvances (below : lba.toNat < 2 ^ 63) (small : size.toNat < 2 ^ 36) :
    (lba + 1).toNat = lba.toNat + 1 ∧ (lba + 1 + sectorsOf size).toNat = lba.toNat + 1 + (size.toNat + 511) / 512 := by
  have header : (lba + 1).toNat = lba.toNat + 1 := BitVec.toNat_add_of_lt (by
    have literal : (1 : Word).toNat = 1 := rfl
    omega)
  refine ⟨header,?_⟩
  rw [BitVec.toNat_add_of_lt,header,sectorsValue small]
  rw [header,sectorsValue small]
  omega

/- A header that was read lies before the end of the device, and the next one behind it. -/
theorem BlockDevice.answered (device : BlockDevice n) {sector : Buffer Byte} (found : device.answer k lba = some sector) : lba.toNat < n := by
  by_contra beyond
  rw [device.ends k lba (by omega)] at found
  cases found

theorem walkMeasure (small : n < 2 ^ 63) (inside : lba.toNat < n) (enough : n < turns + 1 + lba.toNat) :
    n < turns + (lba + 1 + sectorsOf (parseOctalWord p 124 0 12)).toNat := by
  have further := (walkAdvances (by omega : lba.toNat < 2 ^ 63) (sizeRange (p := p))).2
  omega

/- `name_eq` stops at the NUL behind the header at the latest. -/
theorem nameEqEnds (nul : a (i + m) = 0) (enough : m < fuel) : nameEqWithin a b fuel i j = some (nameEq a i b j m) := by
  induction fuel generalizing i j m with
  | zero => omega
  | succ fuel ih =>
    rw [nameEqWithin]
    cases m with
    | zero =>
      rw [if_neg (fun goes => goes.1 nul),nameEq]
    | succ m =>
      rw [nameEq]
      split
      · exact ih (m := m) (by rw [Nat.add_right_comm]; exact nul) (by omega)
      · rfl

theorem listNameEnds (out : Word) (memory : Buffer Byte) (nul : a (i + m) = 0) (enough : m < fuel) : ∃ r, listNameWithin a buf max fuel i out memory = some r := by
  induction fuel generalizing i out memory m with
  | zero => omega
  | succ fuel ih =>
    rw [listNameWithin]
    split
    · rename_i goes
      cases m with
      | zero => exact absurd nul goes.1
      | succ m => exact ih (m := m) _ _ (by rw [Nat.add_right_comm]; exact nul) (by omega)
    · exact ⟨_,rfl⟩

/- A turn is one block read, and the headers that are read lie in ever higher sectors. -/
theorem openEnds (small : n < 2 ^ 63) (long : last < fuel) (left : 0 < turns) (enough : n < turns + lba.toNat) :
    ∃ r reads s', s.fsOpen device path fuel turns k lba = some (r,reads,s') ∧ reads ≤ k + turns := by
  induction turns generalizing k lba s with
  | zero => omega
  | succ turns ih =>
    rw [Walker.fsOpen]
    split
    · exact ⟨_,_,_,rfl,by omega⟩
    · rename_i sector found
      have inside := device.answered found
      dsimp only
      split
      · exact ⟨_,_,_,rfl,by omega⟩
      · have nul : (s.load sector).hdr (0 + last) = 0 := by
          rw [Nat.zero_add]
          exact (s.load sector).nul.2
        rw [nameEqEnds nul long]
        cases nameEq (s.load sector).hdr 0 (s.load sector).memory path last with
        | true =>
          dsimp only
          split <;> exact ⟨_,_,_,rfl,by omega⟩
        | false =>
          obtain ⟨r,reads,s',ended,counted⟩ := ih (k := k + 1) (s := s.load sector) (by omega) (walkMeasure small inside enough)
          exact ⟨r,reads,s',ended,by omega⟩

/- The same for `fs_list`. -/
theorem listEnds (small : n < 2 ^ 63) (long : last < fuel) (left : 0 < turns) (enough : n < turns + lba.toNat) :
    ∃ r reads s', s.fsList device buf max fuel turns k lba out = some (r,reads,s') ∧ reads ≤ k + turns := by
  induction turns generalizing k lba out s with
  | zero => omega
  | succ turns ih =>
    rw [Walker.fsList]
    split
    · exact ⟨_,_,_,rfl,by omega⟩
    · rename_i sector found
      have inside : lba.toNat < n := device.answered found
      dsimp only
      split
      · exact ⟨_,_,_,rfl,by omega⟩
      · have nul : (s.load sector).hdr (0 + last) = 0 := by
          rw [Nat.zero_add]
          exact (s.load sector).nul.2
        obtain ⟨⟨memory,written⟩,listed⟩ : ∃ r, listNameWithin (s.load sector).hdr buf max fuel 0 out (s.load sector).memory = some r :=
          listNameEnds out _ nul long
        have next : lba + (1 + sectorsOf (parseOctalWord (s.load sector).hdr 124 0 12)) =
            lba + 1 + sectorsOf (parseOctalWord (s.load sector).hdr 124 0 12) := (BitVec.add_assoc ..).symm
        rw [listed]
        dsimp only
        rw [next]
        obtain ⟨r,reads,s',ended,counted⟩ := ih (k := k + 1) (by omega) (walkMeasure small inside enough)
        exact ⟨r,reads,s',ended,by omega⟩

/- Whatever lies on a device of `n` sectors, both walks end after at most `n + 1` block reads. -/
theorem archiveWalksEnd (n : Nat) (small : n < 2 ^ 63) (device : BlockDevice n) (last fuel : Nat) (long : last < fuel)
    (s : Walker last) (path : Nat) (buf max : Word) :
    (∃ r reads s', s.fsOpen device path fuel (n + 1) 0 0 = some (r,reads,s') ∧ reads ≤ n + 1) ∧
    ∃ r reads s', s.fsList device buf max fuel (n + 1) 0 0 0 = some (r,reads,s') ∧ reads ≤ n + 1 := by
  have enough : n < n + 1 + (0 : Word).toNat := Nat.lt_of_lt_of_le (Nat.lt_succ_self n) (Nat.le_add_right _ _)
  obtain ⟨r,reads,s',opened,few⟩ := openEnds small long (Nat.succ_pos n) enough
  obtain ⟨r',reads',s'',listed,few'⟩ := listEnds small long (Nat.succ_pos n) enough
  rw [Nat.zero_add] at few few'
  exact ⟨⟨r,reads,s',opened,few⟩,r',reads',s'',listed,few'⟩

/- A device of two sectors that holds only sevens: neither walk finds the end of an archive. -/
def BlockDevice.sevens : BlockDevice 2 :=
  ⟨fun _ lba => if lba.toNat < 2 then some fun _ => 55 else none,fun _ _ beyond => if_neg (Nat.not_lt.mpr beyond)⟩

theorem archiveWalksEndSevens :
    (∃ r reads s', Walker.fsOpen .sevens 0 513 3 0 0 (⟨fun _ => 0,⟨le_refl 512,rfl⟩,fun _ => ⟨0,0,false⟩,fun _ => 0⟩ : Walker 512) =
      some (r,reads,s') ∧ reads ≤ 3) ∧
    ∃ r reads s', Walker.fsList .sevens 0 64 513 3 0 0 0 (⟨fun _ => 0,⟨le_refl 512,rfl⟩,fun _ => ⟨0,0,false⟩,fun _ => 0⟩ : Walker 512) =
      some (r,reads,s') ∧ reads ≤ 3 :=
  archiveWalksEnd 2 (by decide) .sevens 512 513 (by decide) _ 0 0 64

end

/- The drive as a device of 2^64 sectors: no sector number leaves it. -/
def Drive.device (drive : Drive) : BlockDevice (2 ^ 64) :=
  ⟨fun _ lba => drive.ataRead1 lba.toNat,fun _ lba beyond => absurd lba.isLt (Nat.not_lt.mpr beyond)⟩

/- The server of the walk in unbounded numbers. -/
def Walker.server {last : Nat} (s : Walker last) (bounce : Buffer Byte) : FileServer := ⟨s.memory,s.ftab,s.hdr,bounce⟩

section
variable {drive : Drive} {name bounce memory : Buffer Byte} {s : Walker 512} {fuel turns k i m path : Nat} {lba out buf max : Word}

/- While the sector numbers fit, the words compute what the walk in unbounded numbers does. -/
theorem openAgrees (long : 512 < fuel) (room : lba.toNat + turns * 2 ^ 28 < 2 ^ 63) :
    (s.fsOpen drive.device path fuel turns k lba).map (fun r => (r.1,r.2.2.server bounce)) =
      FileServer.fsOpen drive path turns lba.toNat (s.server bounce) := by
  induction turns generalizing k lba s with
  | zero => rfl
  | succ turns ih =>
    have answer : drive.device.answer k lba = drive.ataRead1 lba.toNat := rfl
    rw [Walker.fsOpen,FileServer.fsOpen,Drive.blkRead,answer]
    cases drive.ataRead1 lba.toNat with
    | none => rfl
    | some sector =>
      have nul : (s.load sector).hdr (0 + 512) = 0 := (s.load sector).nul.2
      have size := sizeRange (p := (s.load sector).hdr)
      obtain ⟨header,next⟩ := walkAdvances (by omega : lba.toNat < 2 ^ 63) size
      have recur := ih (k := k + 1) (s := s.load sector) (by rw [next]; omega)
      rw [next,sizeValue] at recur
      have loaded : (s.load sector).hdr = fill (s.server bounce).hdr 0 sector := rfl
      dsimp only [Option.map_some]
      rw [← loaded]
      split
      · rfl
      · have compared : nameEqWithin (s.load sector).hdr (s.load sector).memory fuel 0 path =
            some (nameEq (s.load sector).hdr 0 (s.server bounce).memory path 512) := nameEqEnds nul long
        have entries : (List.range 8).find? (fun i => !((s.load sector).ftab i).used) = (s.server bounce).freeEntry := rfl
        rw [compared,entries,header,sizeValue]
        cases nameEq (s.load sector).hdr 0 (s.server bounce).memory path 512 with
        | false => exact recur
        | true =>
          have same : ({ s.server bounce with hdr := (s.load sector).hdr } : FileServer).freeEntry = (s.server bounce).freeEntry := rfl
          rw [if_pos rfl,same]
          cases (s.server bounce).freeEntry <;> rfl

/- The copy of one name, as long as the client's buffer ends below the last address. -/
theorem listNameAgrees (memory : Buffer Byte) (ends : max.toNat + 2 < 2 ^ 64) (fits : buf.toNat + max.toNat < 2 ^ 64) (within : out.toNat ≤ max.toNat)
    (nul : name (i + m) = 0) (enough : m < fuel) (turns : Nat) (left : max.toNat ≤ turns + out.toNat + 2) :
    ∃ written, listNameWithin name buf max fuel i out memory = some ((FileServer.listName name buf.toNat max.toNat turns i out.toNat memory).1,written) ∧
      written.toNat = (FileServer.listName name buf.toNat max.toNat turns i out.toNat memory).2 ∧ written.toNat ≤ max.toNat := by
  induction fuel generalizing i out memory m turns with
  | zero => omega
  | succ fuel ih =>
    have two : (out + 2).toNat = out.toNat + 2 := BitVec.toNat_add_of_lt (by
      have literal : (2 : Word).toNat = 2 := rfl
      omega)
    rw [listNameWithin]
    split
    · rename_i goes
      have room : out.toNat + 2 < max.toNat := by rw [← two]; exact goes.2
      have one : (out + 1).toNat = out.toNat + 1 := BitVec.toNat_add_of_lt (by
        have literal : (1 : Word).toNat = 1 := rfl
        omega)
      have place : (buf + out).toNat = buf.toNat + out.toNat := BitVec.toNat_add_of_lt (by omega)
      cases turns with
      | zero => omega
      | succ turns =>
        cases m with
        | zero => exact absurd nul goes.1
        | succ m =>
          have rest := ih (i := i + 1) (memory.set (buf.toNat + out.toNat) (name i)) (by rw [one]; omega)
            (by rw [Nat.add_right_comm]; exact nul) (by omega) turns (by rw [one]; omega)
          rw [one] at rest
          rw [FileServer.listName,if_pos ⟨goes.1,room⟩,place]
          exact rest
    · rename_i stops
      have stopped : FileServer.listName name buf.toNat max.toNat turns i out.toNat memory = (memory,out.toNat) := by
        cases turns with
        | zero => rfl
        | succ turns =>
          rw [FileServer.listName,if_neg fun goes => stops ⟨goes.1,?_⟩]
          rw [BitVec.lt_def,two]
          exact goes.2
      rw [stopped]
      exact ⟨out,rfl,rfl,within⟩

theorem listAgrees (long : 512 < fuel) (ends : max.toNat + 2 < 2 ^ 64) (fits : buf.toNat + max.toNat < 2 ^ 64)
    (within : out.toNat ≤ max.toNat) (room : lba.toNat + turns * 2 ^ 28 < 2 ^ 63) :
    (s.fsList drive.device buf max fuel turns k lba out).map (fun r => ((r.1.toNat : Int),r.2.2.server bounce)) =
      FileServer.fsList drive buf.toNat max.toNat turns lba.toNat out.toNat (s.server bounce) := by
  induction turns generalizing k lba out s with
  | zero => rfl
  | succ turns ih =>
    have answer : drive.device.answer k lba = drive.ataRead1 lba.toNat := rfl
    have place : (buf + out).toNat = buf.toNat + out.toNat := BitVec.toNat_add_of_lt (by omega)
    rw [Walker.fsList,FileServer.fsList,Drive.blkRead,answer]
    cases drive.ataRead1 lba.toNat with
    | none =>
      rw [place]
      rfl
    | some sector =>
      have nul : (s.load sector).hdr (0 + 512) = 0 := (s.load sector).nul.2
      have size := sizeRange (p := (s.load sector).hdr)
      have next := (walkAdvances (by omega : lba.toNat < 2 ^ 63) size).2
      rw [BitVec.add_assoc,sizeValue] at next
      have loaded : (s.load sector).hdr = fill (s.server bounce).hdr 0 sector := rfl
      dsimp only [Option.map_some]
      rw [← loaded]
      split
      · rw [place]
        rfl
      · obtain ⟨written,listed,count,short⟩ := listNameAgrees (s.load sector).memory ends fits within nul long max.toNat (by omega)
        rw [listed]
        dsimp only
        have lines : FileServer.listName (s.load sector).hdr buf.toNat max.toNat max.toNat 0 out.toNat (s.load sector).memory =
            ((FileServer.listName (s.load sector).hdr buf.toNat max.toNat max.toNat 0 out.toNat (s.load sector).memory).1,written.toNat) := by
          rw [count]
        have one : (written + 1).toNat = written.toNat + 1 := BitVec.toNat_add_of_lt (by
          have literal : (1 : Word).toNat = 1 := rfl
          omega)
        have address : (buf + written).toNat = buf.toNat + written.toNat := BitVec.toNat_add_of_lt (by omega)
        have source : (s.server bounce).memory = (s.load sector).memory := rfl
        rw [source,lines]
        generalize (FileServer.listName (s.load sector).hdr buf.toNat max.toNat max.toNat 0 out.toNat (s.load sector).memory).1 = memory
        rw [address]
        have further : (lba + (1 + sectorsOf (parseOctalWord (s.load sector).hdr 124 0 12))).toNat + turns * 2 ^ 28 < 2 ^ 63 := by
          rw [sizeValue] at size
          rw [next]
          omega
        have last : written + 1 < max ↔ written.toNat + 1 < max.toNat := by rw [BitVec.lt_def,one]
        by_cases room' : written.toNat + 1 < max.toNat
        · have recur := ih (k := k + 1) (s := { s.load sector with memory := memory.set (buf.toNat + written.toNat) 10 })
            (by rw [one]; omega) further
          rw [next,one] at recur
          simp only [if_pos room',if_pos (last.mpr room')]
          exact recur
        · have recur := ih (k := k + 1) (s := { s.load sector with memory := memory }) short further
          rw [next] at recur
          simp only [if_neg room',if_neg (mt last.mp room')]
          exact recur

end
end Mukern
