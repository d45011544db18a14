import Mukern.FileServer

/-! What `fs_read` makes of the answers of the block driver: which bytes reach the
client's buffer, and what the reply says of them. -/
namespace Mukern
open Buffers

namespace FileServer

/- `readSectors`, the driver answering the read of the `i`-th sector of the file with
`reads i`: a failure may strike at any time, not only at a bad address. -/
def storeSectors (reads : Nat → Option (Buffer Byte)) : (n i buf : Nat) → Buffer Byte → Buffer Byte
  | 0, _, _, memory => memory
  | n + 1, i, buf, memory => storeSectors reads n (i + 1) (buf + 512) (((reads i).map (fill memory buf)).getD memory)

/- `fs_read` with these answers. -/
def fsReadOf (reads : Nat → Option (Buffer Byte)) (server : FileServer) (h : Int) (buf max : Nat) : Int × FileServer :=
  if h < 0 ∨ h ≥ 8 ∨ (server.ftab h.toNat).used = false then (-1,server)
  else
    let entry := server.ftab h.toNat
    let size := if entry.size > max then max else entry.size
    let full := size / 512
    let rem := size - full * 512
    let server := { server with memory := storeSectors reads full 0 buf server.memory }
    if rem ≠ 0 then
      let server := { server with bounce := ((reads full).map (fill server.bounce 0)).getD server.bounce }
      (size,{ server with memory := copy server.memory (buf + full * 512) server.bounce 0 rem })
    else (size,server)

/- The handle is one that `fs_read` accepts. -/
def Opened (server : FileServer) (h : Int) : Prop := 0 ≤ h ∧ h < 8 ∧ (server.ftab h.toNat).used = true

instance (server : FileServer) (h) : Decidable (server.Opened h) := inferInstanceAs (Decidable (_ ∧ _))

/- The bytes that a read of at most `max` has to deliver. -/
def wanted (server : FileServer) (h : Int) (max : Nat) : Nat := min (server.ftab h.toNat).size max

end FileServer

section
variable {drive : Drive} {reads : Nat → Option (Buffer Byte)} {server : FileServer} {memory b : Buffer Byte} {h : Int}
  {buf max n i j lba : Nat}

theorem fillInside (b : Buffer Byte) (lo : Nat) (sector : Buffer Byte) (inside : j < 512) : fill b lo sector (lo + j) = sector j := by
  have copied : ∀ n, j < n → copy b lo sector 0 n (lo + j) = sector (0 + j) := fun _ => copyInside
  unfold fill
  exact (copied _ inside).trans (by rw [Nat.zero_add])

theorem fillOther (b : Buffer Byte) (sector : Buffer Byte) (outside : j < lba ∨ lba + 512 ≤ j) : fill b lba sector j = b j := by
  have kept : ∀ n, j < lba ∨ lba + n ≤ j → copy b lba sector 0 n j = b j := fun _ => copyOther
  unfold fill
  exact kept _ outside

/- A read that fails leaves its buffer alone. -/
theorem filledInside (read : Option (Buffer Byte)) (b : Buffer Byte) (lo : Nat) (inside : j < 512) :
    ((read.map (fill b lo)).getD b) (lo + j) = read.elim (b (lo + j)) (· j) := by
  cases read with
  | none => rfl
  | some sector => exact fillInside b lo sector inside

theorem filledOther (read : Option (Buffer Byte)) (b : Buffer Byte) (outside : j < lba ∨ lba + 512 ≤ j) :
    ((read.map (fill b lba)).getD b) j = b j := by
  cases read with
  | none => rfl
  | some sector => exact fillOther b sector outside

theorem storeOther (outside : j < buf ∨ buf + n * 512 ≤ j) : FileServer.storeSectors reads n i buf memory j = memory j := by
  induction n generalizing i buf memory with
  | zero => rfl
  | succ n ih => rw [FileServer.storeSectors,ih (by omega),filledOther _ _ (by omega)]

theorem storeInside (low : j < n * 512) : FileServer.storeSectors reads n i buf memory (buf + j) =
    (reads (i + j / 512)).elim (memory (buf + j)) (· (j % 512)) := by
  induction n generalizing i buf memory j with
  | zero => exact absurd low (by omega)
  | succ n ih =>
    rw [FileServer.storeSectors]
    rcases Nat.lt_or_ge j 512 with here | later
    · have zero : j / 512 = 0 := Nat.div_eq_of_lt here
      rw [storeOther (by omega),filledInside _ _ _ here,zero,Nat.mod_eq_of_lt here,Nat.add_zero]
    · obtain ⟨k,rfl⟩ := Nat.exists_eq_add_of_le later
      have sector : i + (512 + k) / 512 = i + 1 + k / 512 := by omega
      have byte : (512 + k) % 512 = k % 512 := by omega
      rw [← Nat.add_assoc,sector,byte,ih (by omega),filledOther _ _ (by omega)]

theorem storeDrive (lba : Nat) : FileServer.readSectors drive n (lba + i) buf memory =
    FileServer.storeSectors (fun i => drive.ataRead1 (lba + i)) n i buf memory := by
  induction n generalizing i buf memory with
  | zero => rfl
  | succ n ih =>
    rw [FileServer.readSectors,FileServer.storeSectors,Nat.add_assoc,ih]
    rfl

/- The answers that a drive gives by address. -/
theorem fsReadDrive : server.fsRead drive h buf max = server.fsReadOf (fun i => drive.ataRead1 ((server.ftab h.toNat).dataLba + i)) h buf max := by
  have sectors : ∀ n memory, FileServer.readSectors drive n (server.ftab h.toNat).dataLba buf memory =
      FileServer.storeSectors (fun i => drive.ataRead1 ((server.ftab h.toNat).dataLba + i)) n 0 buf memory := by
    intro n memory
    exact storeDrive (i := 0) _
  unfold FileServer.fsRead FileServer.fsReadOf
  split
  · rfl
  · simp only [sectors]
    rfl

theorem fsReadClosed (closed : ¬ server.Opened h) : server.fsReadOf reads h buf max = (-1,server) := by
  have refused : h < 0 ∨ h ≥ 8 ∨ (server.ftab h.toNat).used = false := by
    rw [FileServer.Opened,not_and_or,not_and_or,Bool.not_eq_true] at closed
    exact closed.imp Int.not_le.mp (Or.imp_left Int.not_lt.mp)
  rw [FileServer.fsReadOf,if_pos refused]

/- The reply, and where each byte of the memory comes from: a sector that was read, what
the client's buffer held where a whole sector failed, what the bounce buffer held where
the last part did. -/
theorem fsReadSpec (reads : Nat → Option (Buffer Byte)) (buf max : Nat) (opened : server.Opened h) :
    (server.fsReadOf reads h buf max).1 = server.wanted h max ∧
    (∀ j < server.wanted h max, (server.fsReadOf reads h buf max).2.memory (buf + j) = (reads (j / 512)).elim
      (if j < server.wanted h max / 512 * 512 then server.memory (buf + j) else server.bounce (j % 512)) (· (j % 512))) ∧
    (∀ j, j < buf ∨ buf + server.wanted h max ≤ j → (server.fsReadOf reads h buf max).2.memory j = server.memory j) ∧
    (server.fsReadOf reads h buf max).2.ftab = server.ftab := by
  have accepted : ¬ (h < 0 ∨ h ≥ 8 ∨ (server.ftab h.toNat).used = false) := by
    obtain ⟨low,high,used⟩ := opened
    rw [used]
    simp only [Bool.true_eq_false,or_false]
    omega
  have size : (if (server.ftab h.toNat).size > max then max else (server.ftab h.toNat).size) = server.wanted h max := by
    unfold FileServer.wanted
    split <;> omega
  rw [FileServer.fsReadOf,if_neg accepted]
  simp only [size]
  generalize server.wanted h max = n
  have bound : n / 512 * 512 ≤ n := Nat.div_mul_le_self n 512
  have early : ∀ j < n / 512 * 512, FileServer.storeSectors reads (n / 512) 0 buf server.memory (buf + j) =
      (reads (j / 512)).elim (server.memory (buf + j)) (· (j % 512)) := by
    intro j low
    rw [storeInside low,Nat.zero_add]
  split
  · rename_i part
    refine ⟨rfl,fun j low => ?_,fun j outside => ?_,rfl⟩
    · rcases Nat.lt_or_ge j (n / 512 * 512) with before | last
      · rw [if_pos before,← early j before]
        exact copyOther (by omega)
      · obtain ⟨k,rfl⟩ := Nat.exists_eq_add_of_le last
        have quotient : (n / 512 * 512 + k) / 512 = n / 512 := by omega
        have remainder : (n / 512 * 512 + k) % 512 = k := by omega
        have filled := filledInside (reads (n / 512)) server.bounce 0 (by omega : k < 512)
        rw [if_neg (by omega),quotient,remainder,← Nat.add_assoc]
        refine (copyInside (by omega)).trans ?_
        rw [filled,Nat.zero_add]
    · exact (copyOther (by omega)).trans (storeOther (by omega))
  · rename_i whole
    refine ⟨rfl,fun j low => ?_,fun j outside => storeOther (by omega),rfl⟩
    have before : j < n / 512 * 512 := by omega
    rw [if_pos before]
    exact early j before

/- The first bytes of the buffer that the reply counts were read from the disk, and a
sector that fails is reported. -/
structure ReadHonest (reads : Nat → Option (Buffer Byte)) (server : FileServer) (h : Int) (buf max : Nat) : Prop where
  backed : ∀ j : Nat, j < (server.fsReadOf reads h buf max).1 →
    ∃ sector, reads (j / 512) = some sector ∧ (server.fsReadOf reads h buf max).2.memory (buf + j) = sector (j % 512)
  reported : ∀ i, i * 512 < server.wanted h max → reads i = none → (server.fsReadOf reads h buf max).1 < server.wanted h max

/- `fs_read` does not look at what its block reads return: it reports what was read
unless one of the sectors it needs cannot be read. -/
theorem readHonestIff : ReadHonest reads server h buf max ↔
    (server.Opened h → ∀ i, i * 512 < server.wanted h max → reads i ≠ none) := by
  constructor
  · intro honest opened i needed failed
    have short := honest.reported i needed failed
    rw [(fsReadSpec reads buf max opened).1] at short
    exact absurd short (Int.lt_irrefl _)
  · intro good
    by_cases opened : server.Opened h
    · obtain ⟨count,bytes,_,_⟩ := fsReadSpec reads buf max opened
      constructor
      · intro j low
        rw [count] at low
        have low : j < server.wanted h max := by omega
        have needed : j / 512 * 512 < server.wanted h max := lt_of_le_of_lt (Nat.div_mul_le_self j 512) low
        obtain ⟨sector,read⟩ := Option.ne_none_iff_exists'.mp (good opened _ needed)
        exact ⟨sector,read,by rw [bytes j low,read]; rfl⟩
      · intro i needed failed
        exact absurd failed (good opened i needed)
    · have refused : (server.fsReadOf reads h buf max).1 = -1 := by rw [fsReadClosed opened]
      constructor
      · intro j low
        rw [refused] at low
        omega
      · intro i _ _
        rw [refused]
        omega

/- A file of one sector that cannot be read is reported whole. -/
theorem readDishonest : ¬ ∀ reads server h buf max, ReadHonest reads server h buf max := by
  intro always
  let server : FileServer := ⟨fun _ => 0,fun _ => ⟨1,512,true⟩,fun _ => 0,fun _ => 0⟩
  have short := (always (fun _ => none) server 0 0 512).reported 0 (by decide) rfl
  exact absurd short (by decide)

/- What a read through entry `h` replies and writes: the count, and at each place of the
clients' memory the byte written there, if any. -/
structure ReadDetermined (drive : Drive) (entry : Fent) (h buf cap : Nat) (n : Nat) (written : Nat → Option Byte) : Prop where
  whole : cap = 0 → n = entry.size
  alone : ∀ turns client (server : FileServer), server.ftab h = entry →
    ∃ server', server.handle drive turns (.readFile client h buf cap) = some (⟨n,0⟩,server') ∧
      ∀ j, server'.memory j = (written j).getD (server.memory j)

/- How much a read through the entry is to deliver, 0 being no limit. -/
def Fent.wanted (entry : Fent) (cap : Nat) : Nat := if cap = 0 then entry.size else min entry.size cap

end

section
variable {drive : Drive} {entry : Fent} {h buf cap n : Nat}

theorem limitWanted {top : Nat} (own : cap = 0 → min entry.size top = entry.size) :
    min entry.size (if cap ≠ 0 then cap else top) = entry.wanted cap := by
  unfold Fent.wanted
  by_cases unlimited : cap = 0
  · rw [if_neg (not_not.mpr unlimited),if_pos unlimited,own unlimited]
  · rw [if_pos unlimited,if_neg unlimited]

/- `MSG_FREAD` when the limit that the server takes comes to what the request asks for. -/
theorem handleReadSpec (drive : Drive) (buf : Nat) {server : FileServer} (low : h < 8) (used : entry.used = true) (own : server.ftab h = entry)
    (limit : min entry.size (if cap ≠ 0 then cap else (server.ftab 0).size) = n) (turns : Nat) (client : Int) :
    ∃ server', server.handle drive turns (.readFile client h buf cap) = some (⟨n,0⟩,server') ∧
      (∀ j < n, server'.memory (buf + j) = (drive.ataRead1 (entry.dataLba + j / 512)).elim
        (if j < n / 512 * 512 then server.memory (buf + j) else server.bounce (j % 512)) (· (j % 512))) ∧
      ∀ j, j < buf ∨ buf + n ≤ j → server'.memory j = server.memory j := by
  have opened : server.Opened h := ⟨by omega,by omega,by rw [Int.toNat_natCast,own,used]⟩
  have wanted : server.wanted h (if cap ≠ 0 then cap else (server.ftab 0).size) = n := by
    rw [FileServer.wanted,Int.toNat_natCast,own,limit]
  have spec := fsReadSpec (fun i => drive.ataRead1 (entry.dataLba + i)) buf (if cap ≠ 0 then cap else (server.ftab 0).size) opened
  rw [wanted] at spec
  obtain ⟨count,bytes,outside,_⟩ := spec
  refine ⟨_,?_,bytes,outside⟩
  simp only [FileServer.handle]
  rw [fsReadDrive,Int.toNat_natCast,own,count]

/- Without a limit the server takes the size of entry 0, and a last part that cannot be
read is whatever the bounce buffer holds. -/
theorem readDeterminedIff (low : h < 8) (used : entry.used = true) : (∃ n written, ReadDetermined drive entry h buf cap n written) ↔
    (cap = 0 → h = 0 ∨ entry.size = 0) ∧
      (entry.wanted cap % 512 = 0 ∨ drive.ataRead1 (entry.dataLba + entry.wanted cap / 512) ≠ none) := by
  constructor
  · intro ⟨n,written,determined⟩
    constructor
    · intro unlimited
      by_contra other
      rw [not_or] at other
      let server : FileServer := ⟨fun _ => 0,fun i => if i = h then entry else ⟨0,0,false⟩,fun _ => 0,fun _ => 0⟩
      have limit : min entry.size (if cap ≠ 0 then cap else (server.ftab 0).size) = 0 := by
        have empty : server.ftab 0 = ⟨0,0,false⟩ := if_neg (Ne.symm other.1)
        rw [if_neg (not_not.mpr unlimited),empty,Nat.min_zero]
      obtain ⟨_,replied,_⟩ := handleReadSpec drive buf low used (if_pos rfl) limit 0 0
      obtain ⟨_,owed,_⟩ := determined.alone 0 0 server (if_pos rfl)
      rw [replied] at owed
      have none : (0 : Int) = n := congrArg (·.1.data0) (Option.some.inj owed)
      have size := determined.whole unlimited
      omega
    · by_contra stale
      rw [not_or,not_not] at stale
      have byte : ∀ b : Byte, (written (buf + entry.wanted cap / 512 * 512)).getD 0 = b := by
        intro b
        let server : FileServer := ⟨fun _ => 0,fun _ => entry,fun _ => 0,fun _ => b⟩
        have limit : min entry.size (if cap ≠ 0 then cap else (server.ftab 0).size) = entry.wanted cap :=
          limitWanted fun _ => Nat.min_self _
        obtain ⟨after,replied,bytes,_⟩ := handleReadSpec drive buf low used rfl limit 0 0
        obtain ⟨after',owed,cells⟩ := determined.alone 0 0 server rfl
        rw [replied] at owed
        obtain rfl : after = after' := congrArg (·.2) (Option.some.inj owed)
        have last := bytes (entry.wanted cap / 512 * 512) (by omega)
        rw [Nat.mul_div_cancel _ (by decide),stale.2,Nat.mul_mod_left,Option.elim_none,if_neg (lt_irrefl _)] at last
        rw [← cells,last]
      exact absurd ((byte 0).symm.trans (byte 1)) (by decide)
  · intro ⟨limited,last⟩
    refine ⟨entry.wanted cap,fun j => if buf ≤ j ∧ j < buf + entry.wanted cap then
      (drive.ataRead1 (entry.dataLba + (j - buf) / 512)).map (· ((j - buf) % 512)) else none,?_,?_⟩
    · intro unlimited
      rw [Fent.wanted,if_pos unlimited]
    · intro turns client server own
      have limit : min entry.size (if cap ≠ 0 then cap else (server.ftab 0).size) = entry.wanted cap := by
        refine limitWanted fun unlimited => ?_
        rcases limited unlimited with rfl | none
        · rw [own,Nat.min_self]
        · rw [none,Nat.zero_min]
      obtain ⟨after,replied,bytes,outside⟩ := handleReadSpec drive buf low used own limit turns client
      refine ⟨after,replied,fun j => ?_⟩
      split
      · rename_i inside
        obtain ⟨k,rfl⟩ := Nat.exists_eq_add_of_le inside.1
        rw [bytes k (by omega),Nat.add_sub_cancel_left]
        cases read : drive.ataRead1 (entry.dataLba + k / 512) with
        | some sector => rfl
        | none =>
          have whole : k < entry.wanted cap / 512 * 512 := by
            by_contra late
            have sector : k / 512 = entry.wanted cap / 512 := by omega
            rcases last with even | good
            · omega
            · exact good (sector ▸ read)
          rw [Option.elim_none,if_pos whole]
          rfl
      · exact outside j (by omega)

/- The entry of a file of 513 bytes at sector 1, read in full through handle 0. -/
theorem readDeterminedFirst : ∃ n written, ReadDetermined ⟨fun _ => some fun _ => 7⟩ ⟨1,513,true⟩ 0 1000 0 n written :=
  (readDeterminedIff (by decide) rfl).mpr ⟨fun _ => .inl rfl,.inr (by simp [Drive.ataRead1])⟩

/- Through handle 1, a limit taken from entry 0 falls short. -/
theorem readEntangled : ¬ ∀ drive (entry : Fent) h buf cap, h < 8 → entry.used = true →
    ∃ n written, ReadDetermined drive entry h buf cap n written := by
  intro always
  obtain ⟨n,written,determined⟩ := always ⟨fun _ => none⟩ ⟨1,512,true⟩ 1 0 0 (by decide) rfl
  obtain ⟨_,short,_⟩ := determined.alone 0 0 ⟨fun _ => 0,fun i => if i = 1 then ⟨1,512,true⟩ else ⟨0,0,false⟩,fun _ => 0,fun _ => 0⟩ rfl
  have count : (0 : Int) = n := congrArg (·.1.data0) (Option.some.inj short)
  have whole : n = 512 := determined.whole rfl
  omega

end
end Mukern
