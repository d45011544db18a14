import Mukern.FrameAllocator
import Mukern.Library.LittleEndian

/-! `arch_mem_detect` on the bytes that the boot loader has left: the walk over the
Multiboot map, and the list of entries that it stands for. -/
namespace Mukern
open Buffers LittleEndian

def load32 (mem : Bytes) (a : Nat) : BitVec 32 := BitVec.ofNat 32 (load mem a 4)

def load64 (mem : Bytes) (a : Nat) : Word := BitVec.ofNat 64 (load mem a 8)

/- The `struct mb_mmap_entry` at `p`. -/
def mmapEntry (mem : Bytes) (p : Nat) : MmapEntry := ⟨load64 mem (p + 4),load64 mem (p + 12),load32 mem (p + 20)⟩

def MmapEntry.Available (e : MmapEntry) : Prop := e.type = 1 ∧ e.len ≠ 0

instance (e : MmapEntry) : Decidable e.Available := inferInstanceAs (Decidable (_ ∧ _))

/- `e->size + 4`, a sum in 32 bits. -/
def stride (mem : Bytes) (p : Nat) : Nat := (load32 mem p + 4).toNat

/- The walk with its cursor at `p`, and every byte that it has read of the map. The cursor
stays below 2^34, so no sum with it wraps. -/
structure MapWalk where
  p : Nat
  regions : List MemRegion
  top : Word
  reads : List Nat

namespace MapWalk

/- `type` first, then `len` of available memory, then `base`, and `size` for the next entry. -/
def entryReads (mem : Bytes) (p : Nat) : List Nat :=
  List.range' (p + 20) 4 ++ (if (mmapEntry mem p).type = 1 then List.range' (p + 12) 8 else []) ++
    (if (mmapEntry mem p).Available then List.range' (p + 4) 8 else []) ++ List.range' p 4

/- The body of the loop. -/
def step (mem : Bytes) (s : MapWalk) : MapWalk :=
  let e := mmapEntry mem s.p
  let reads := s.reads ++ entryReads mem s.p
  if e.Available then
    ⟨s.p + stride mem s.p,s.regions ++ [⟨e.base,e.len⟩],if e.base + e.len > s.top then e.base + e.len else s.top,reads⟩
  else { s with p := s.p + stride mem s.p, reads := reads }

/- `while (p < end && n < max)`; the flag says whether the loop was left. -/
def loop (mem : Bytes) (last max : Nat) : (fuel : Nat) → MapWalk → MapWalk × Bool
  | 0, s => (s,false)
  | fuel + 1, s => if s.p < last ∧ s.regions.length < max then loop mem last max fuel (s.step mem) else (s,true)

def start (addr : Nat) : MapWalk := ⟨addr,[],0,[]⟩

end MapWalk

def mbFlagMem : BitVec 32 := 1
def mbFlagMmap : BitVec 32 := 1 <<< 6

/- `arch_mem_detect`, with the value of `mb_info`; `none` when `fuel` entries do not end the walk. -/
def detectBytes (mem : Bytes) (mbInfo : BitVec 32) (max fuel : Nat) : Option (List MemRegion × Word) :=
  let mbi := mbInfo.toNat
  let mmapLength := load32 mem (mbi + 44)
  if mbInfo ≠ 0 ∧ load32 mem mbi &&& mbFlagMmap ≠ 0 ∧ mmapLength ≠ 0 then
    let p := (load32 mem (mbi + 48)).toNat
    let (s,left) := MapWalk.loop mem (p + mmapLength.toNat) max fuel (.start p)
    if left then some (s.regions,s.top) else none
  else if mbInfo ≠ 0 ∧ load32 mem mbi &&& mbFlagMem ≠ 0 then
    some (archMemDetect (.memUpper (load32 mem (mbi + 8))) max)
  else some ([],0)

/- An entry as a boot loader writes it: whatever follows the fields counts in `size`. -/
structure MapRecord where
  entry : MmapEntry
  rest : List (BitVec 8)

namespace MapRecord

def size (r : MapRecord) : Nat := 20 + r.rest.length

def encode (r : MapRecord) : List (BitVec 8) :=
  bytes 4 r.size ++ (bytes 8 r.entry.base.toNat ++ (bytes 8 r.entry.len.toNat ++ (bytes 4 r.entry.type.toNat ++ r.rest)))

/- `size` is at most 2^32 - 5, and the end of the range is a 64-bit number. -/
def Valid (r : MapRecord) : Prop := r.size ≤ 2 ^ 32 - 5 ∧ r.entry.base.toNat + r.entry.len.toNat < 2 ^ 64

instance (r : MapRecord) : Decidable r.Valid := inferInstanceAs (Decidable (_ ∧ _))

end MapRecord

section
variable {mem : Bytes} {p last max fuel : Nat} {s : MapWalk} {r : MapRecord} {records : List MapRecord} {e : MmapEntry}
  {entries : List MmapEntry} {room : Nat} {top : Word}

theorem encodeLength : r.encode.length = r.size + 4 := by
  simp only [MapRecord.encode,List.length_append,bytesLength,MapRecord.size]
  omega

/- Decoding undoes encoding. -/
theorem storedEntry (valid : r.Valid) (stored : Stored mem p r.encode) :
    mmapEntry mem p = r.entry ∧ stride mem p = r.encode.length := by
  simp only [MapRecord.encode,storedAppend,bytesLength] at stored
  obtain ⟨size,base,len,type,_⟩ := stored
  have fits : r.size < 2 ^ 32 - 4 := by
    have := valid.1
    omega
  have sizeIs : load32 mem p = BitVec.ofNat 32 r.size := by rw [load32,loadStored size (by omega)]
  have baseIs : load64 mem (p + 4) = r.entry.base := by
    rw [load64,loadStored base r.entry.base.isLt,BitVec.ofNat_toNat,BitVec.setWidth_eq]
  have lenIs : load64 mem (p + 12) = r.entry.len := by
    rw [load64,loadStored len r.entry.len.isLt,BitVec.ofNat_toNat,BitVec.setWidth_eq]
  have typeIs : load32 mem (p + 20) = r.entry.type := by
    rw [load32,loadStored type r.entry.type.isLt,BitVec.ofNat_toNat,BitVec.setWidth_eq]
  constructor
  · rw [mmapEntry,baseIs,lenIs,typeIs]
  · have small : (BitVec.ofNat 32 r.size).toNat = r.size := by
      rw [BitVec.toNat_ofNat]
      exact Nat.mod_eq_of_lt (by omega)
    rw [stride,sizeIs,encodeLength,BitVec.toNat_add_of_lt,small]
    · rfl
    · rw [small]
      have literal : (4 : BitVec 32).toNat = 4 := rfl
      omega

/- The higher of the two ends. -/
def highest (top : Word) (e : MmapEntry) : Word := if e.base + e.len > top then e.base + e.len else top

theorem detectAvailable (available : e.Available) : detectMmap (e :: entries) (room + 1) top =
    (⟨e.base,e.len⟩ :: (detectMmap entries room (highest top e)).1,(detectMmap entries room (highest top e)).2) := by
  rw [detectMmap]
  exact if_pos available

theorem detectOther (other : ¬ e.Available) : detectMmap (e :: entries) (room + 1) top = detectMmap entries (room + 1) top := by
  rw [detectMmap]
  exact if_neg other

/- The regions that are reported. -/
theorem detectRegions (entries : List MmapEntry) (room : Nat) (top : Word) : (detectMmap entries room top).1 =
    ((entries.filter fun e => e.Available).take room).map fun e => ⟨e.base,e.len⟩ := by
  induction entries generalizing room top with
  | nil => simp [detectMmap]
  | cons e entries ih =>
    cases room with
    | zero => rfl
    | succ room =>
      by_cases available : e.Available
      · have kept : (e :: entries).filter (fun e => e.Available) = e :: entries.filter fun e => e.Available :=
          List.filter_cons_of_pos (decide_eq_true available)
        rw [detectAvailable available,kept,List.take_succ_cons,List.map_cons,← ih]
      · rw [detectOther available,List.filter_cons_of_neg (by simpa using available),ih]

/- `ram_top` is an upper bound of what is reported. -/
theorem detectBound (room : Nat) (top : Word) (fits : ∀ e ∈ entries, e.base.toNat + e.len.toNat < 2 ^ 64) :
    top.toNat ≤ (detectMmap entries room top).2.toNat ∧
      ∀ r ∈ (detectMmap entries room top).1, r.base.toNat + r.len.toNat ≤ (detectMmap entries room top).2.toNat := by
  induction entries generalizing room top with
  | nil => exact ⟨le_refl _,by simp [detectMmap]⟩
  | cons e entries ih =>
    have rest : ∀ e ∈ entries, e.base.toNat + e.len.toNat < 2 ^ 64 := fun e member => fits e (List.mem_cons_of_mem _ member)
    cases room with
    | zero => exact ⟨le_refl _,by simp [detectMmap]⟩
    | succ room =>
      by_cases available : e.Available
      · have sum : (e.base + e.len).toNat = e.base.toNat + e.len.toNat := BitVec.toNat_add_of_lt (fits e List.mem_cons_self)
        have reach : top.toNat ≤ (highest top e).toNat ∧ (e.base + e.len).toNat ≤ (highest top e).toNat := by
          unfold highest
          split <;> rename_i higher
          · exact ⟨Nat.le_of_lt higher,le_refl _⟩
          · exact ⟨le_refl _,Nat.not_lt.mp higher⟩
        obtain ⟨grown,bound⟩ := ih room (highest top e) rest
        rw [detectAvailable available]
        refine ⟨le_trans reach.1 grown,fun r member => ?_⟩
        rcases List.mem_cons.mp member with rfl | later
        · rw [← sum]
          exact le_trans reach.2 grown
        · exact bound r later
      · rw [detectOther available]
        exact ih (room + 1) top rest

theorem stepAvailable (available : (mmapEntry mem s.p).Available) : s.step mem = ⟨s.p + stride mem s.p,
    s.regions ++ [⟨(mmapEntry mem s.p).base,(mmapEntry mem s.p).len⟩],highest s.top (mmapEntry mem s.p),s.reads ++ MapWalk.entryReads mem s.p⟩ :=
  if_pos available

theorem stepOther (other : ¬ (mmapEntry mem s.p).Available) :
    s.step mem = ⟨s.p + stride mem s.p,s.regions,s.top,s.reads ++ MapWalk.entryReads mem s.p⟩ := if_neg other

/- The walk over encoded entries is the loop over the list of them. -/
theorem loopRecords (valid : ∀ r ∈ records, r.Valid) (stored : Stored mem s.p (records.flatMap MapRecord.encode))
    (ends : last = s.p + (records.flatMap MapRecord.encode).length) (long : records.length < fuel) :
    (MapWalk.loop mem last max fuel s).2 = true ∧ (MapWalk.loop mem last max fuel s).1.regions =
      s.regions ++ (detectMmap (records.map MapRecord.entry) (max - s.regions.length) s.top).1 ∧
    (MapWalk.loop mem last max fuel s).1.top = (detectMmap (records.map MapRecord.entry) (max - s.regions.length) s.top).2 := by
  induction records generalizing fuel s with
  | nil =>
    cases fuel with
    | zero => exact absurd long (Nat.not_lt_zero _)
    | succ fuel =>
      have over' : ¬ (s.p < last ∧ s.regions.length < max) := by
        rw [ends]
        simp
      rw [MapWalk.loop,if_neg over']
      exact ⟨rfl,(List.append_nil _).symm,rfl⟩
  | cons r records ih =>
    cases fuel with
    | zero => exact absurd long (Nat.not_lt_zero _)
    | succ fuel =>
      rw [List.flatMap_cons,storedAppend] at stored
      obtain ⟨entry,next⟩ := storedEntry (valid r List.mem_cons_self) stored.1
      have positive : 0 < r.encode.length := by
        rw [encodeLength]
        omega
      rw [List.flatMap_cons,List.length_append] at ends
      rw [List.map_cons,MapWalk.loop]
      by_cases room : s.regions.length < max
      · have goes : s.p < last ∧ s.regions.length < max := ⟨by omega,room⟩
        obtain ⟨k,left⟩ : ∃ k, max - s.regions.length = k + 1 := ⟨max - s.regions.length - 1,by omega⟩
        have cursor : (s.step mem).p = s.p + r.encode.length := by
          rw [MapWalk.step,← next]
          split <;> rfl
        rw [if_pos goes]
        have rest := ih (s := s.step mem) (fun r member => valid r (List.mem_cons_of_mem _ member))
          (by rw [cursor]; exact stored.2) (by rw [cursor]; omega) (Nat.lt_of_succ_lt_succ long)
        by_cases available : r.entry.Available
        · have taken : max - (s.regions.length + 1) = k := by omega
          rw [stepAvailable (entry ▸ available),entry,List.length_append,List.length_singleton,taken] at rest
          rw [stepAvailable (entry ▸ available),entry,left,detectAvailable available]
          simp only [List.append_assoc,List.singleton_append] at rest
          exact rest
        · rw [stepOther (entry ▸ available),left] at rest
          rw [stepOther (entry ▸ available),left,detectOther available]
          exact rest
      · rw [if_neg (fun goes => room goes.2),Nat.sub_eq_zero_of_le (Nat.not_lt.mp room)]
        exact ⟨rfl,(List.append_nil _).symm,rfl⟩

/- What `arch_mem_detect` has to report of the entries: the first `max` available ones, and
where the highest of these ends. -/
structure Reported (entries : List MmapEntry) (max : Nat) (result : List MemRegion × Word) : Prop where
  regions : result.1 = ((entries.filter fun e => e.Available).take max).map fun e => ⟨e.base,e.len⟩
  bound : ∀ r ∈ result.1, r.base.toNat + r.len.toNat ≤ result.2.toNat
  attained : result.1 = [] ∧ result.2 = 0 ∨ ∃ r ∈ result.1, result.2.toNat = r.base.toNat + r.len.toNat

theorem detectReported (max : Nat) (fits : ∀ e ∈ entries, e.base.toNat + e.len.toNat < 2 ^ 64) : Reported entries max (detectMmap entries max 0) := by
  have regions := detectRegions entries max 0
  have source : ∀ r ∈ (detectMmap entries max 0).1, r.len ≠ 0 ∧ r.base.toNat + r.len.toNat < 2 ^ 64 := by
    intro r member
    rw [regions] at member
    obtain ⟨e,taken,rfl⟩ := List.mem_map.mp member
    obtain ⟨listed,available⟩ := List.mem_filter.mp (List.mem_of_mem_take taken)
    exact ⟨(of_decide_eq_true available).2,fits e listed⟩
  refine ⟨regions,(detectBound max 0 fits).2,?_⟩
  rcases Pmm.detectTop entries max 0 with zero | ⟨r,member,same⟩
  · cases found : (detectMmap entries max 0).1 with
    | nil => exact .inl ⟨rfl,zero⟩
    | cons r rest =>
      have member : r ∈ (detectMmap entries max 0).1 := by
        rw [found]
        exact List.mem_cons_self
      have low := (detectBound max 0 fits).2 r member
      have high : r.len.toNat ≠ 0 := fun none => (source r member).1 (BitVec.eq_of_toNat_eq none)
      rw [zero] at low
      have none : (0 : Word).toNat = 0 := rfl
      omega
  · refine .inr ⟨r,member,?_⟩
    rw [same]
    exact BitVec.toNat_add_of_lt (source r member).2

/- The header of `mb_info` announces a map of this length at this address. -/
structure Announces (mem : Bytes) (mbInfo : BitVec 32) (addr length : Nat) : Prop where
  present : mbInfo ≠ 0
  flag : load32 mem mbInfo.toNat &&& mbFlagMmap ≠ 0
  length : (load32 mem (mbInfo.toNat + 44)).toNat = length
  addr : (load32 mem (mbInfo.toNat + 48)).toNat = addr

/- Decoding is exact on every map of well-formed entries. -/
theorem mapDecoded (mem : Bytes) (mbInfo : BitVec 32) (records : List MapRecord) (addr max fuel : Nat) (nonempty : records ≠ [])
    (valid : ∀ r ∈ records, r.Valid) (announced : Announces mem mbInfo addr (records.flatMap MapRecord.encode).length)
    (stored : Stored mem addr (records.flatMap MapRecord.encode)) (long : records.length < fuel) :
    ∃ result, detectBytes mem mbInfo max fuel = some result ∧ Reported (records.map MapRecord.entry) max result := by
  have positive : 0 < (records.flatMap MapRecord.encode).length := by
    cases records with
    | nil => exact absurd rfl nonempty
    | cons r rest =>
      rw [List.flatMap_cons,List.length_append,encodeLength]
      omega
  have some' : load32 mem (mbInfo.toNat + 44) ≠ 0 := by
    intro none
    have length := announced.length
    rw [none] at length
    have zero : (0 : BitVec 32).toNat = 0 := rfl
    omega
  have walked : (MapWalk.loop mem (addr + (records.flatMap MapRecord.encode).length) max fuel (.start addr)).2 = true ∧
      (MapWalk.loop mem (addr + (records.flatMap MapRecord.encode).length) max fuel (.start addr)).1.regions =
        [] ++ (detectMmap (records.map MapRecord.entry) max 0).1 ∧
      (MapWalk.loop mem (addr + (records.flatMap MapRecord.encode).length) max fuel (.start addr)).1.top =
        (detectMmap (records.map MapRecord.entry) max 0).2 := loopRecords (s := .start addr) valid stored rfl long
  obtain ⟨left,regions,top⟩ := walked
  refine ⟨detectMmap (records.map MapRecord.entry) max 0,?_,detectReported max ?_⟩
  · rw [detectBytes]
    simp only [if_pos (And.intro announced.present (And.intro announced.flag some')),announced.addr,announced.length,left,regions,top,
      List.nil_append,if_pos]
  · intro e member
    obtain ⟨r,listed,rfl⟩ := List.mem_map.mp member
    exact (valid r listed).2

/- Every walk that ends is the loop over the entries it has visited. -/
theorem loopVisits (left : (MapWalk.loop mem last max fuel s).2 = true) : ∃ entries,
    (MapWalk.loop mem last max fuel s).1.regions = s.regions ++ (detectMmap entries (max - s.regions.length) s.top).1 ∧
    (MapWalk.loop mem last max fuel s).1.top = (detectMmap entries (max - s.regions.length) s.top).2 := by
  induction fuel generalizing s with
  | zero => cases left
  | succ fuel ih =>
    rw [MapWalk.loop] at left ⊢
    split at left
    · rename_i goes
      rw [if_pos goes]
      obtain ⟨entries,regions,top⟩ := ih left
      obtain ⟨k,room⟩ : ∃ k, max - s.regions.length = k + 1 := ⟨max - s.regions.length - 1,by omega⟩
      refine ⟨mmapEntry mem s.p :: entries,?_⟩
      by_cases available : (mmapEntry mem s.p).Available
      · have taken : max - (s.regions.length + 1) = k := by omega
        rw [stepAvailable available,List.length_append,List.length_singleton,taken] at regions top
        rw [stepAvailable available,room,detectAvailable available]
        simp only [List.append_assoc,List.singleton_append] at regions top ⊢
        exact ⟨regions,top⟩
      · rw [stepOther available,room] at regions top
        rw [stepOther available,room,detectOther available]
        dsimp only at regions top ⊢
        exact ⟨regions,top⟩
    · rename_i stops
      rw [if_neg stops]
      exact ⟨[],(List.append_nil _).symm,rfl⟩

/- The bytes come to one of the forms in which the frame allocator is told of memory. -/
theorem detectBytesInfo {mbInfo : BitVec 32} {result : List MemRegion × Word} (detected : detectBytes mem mbInfo max fuel = some result) :
    ∃ info, result = archMemDetect info max := by
  unfold detectBytes at detected
  simp only at detected
  split at detected
  · split at detected
    · rename_i left
      obtain ⟨entries,regions,top⟩ := loopVisits left
      refine ⟨.mmap entries,?_⟩
      rw [← Option.some.inj detected,regions,top]
      rfl
    · cases detected
  · split at detected
    · cases detected
      exact ⟨.memUpper (load32 mem (mbInfo.toNat + 8)),rfl⟩
    · cases detected
      exact ⟨.nothing,rfl⟩

/- 127 MiB from 1 MiB on, then a reserved range with four bytes after its fields. -/
def smallMap : List MapRecord := [⟨⟨0x100000,0x7F00000,1⟩,[]⟩,⟨⟨0x8000000,0x1000,2⟩,[1,2,3,4]⟩]

/- The header at 0x8000, the map at 0x9000. -/
def smallMapBytes : Bytes := fun a =>
  if 0x9000 ≤ a then (smallMap.flatMap MapRecord.encode).getD (a - 0x9000) 0
  else if a = 0x8000 then 0x40
  else if a = 0x802C then 52
  else if a = 0x8031 then 0x90
  else 0

theorem mapDecodedSmall : ∃ result, detectBytes smallMapBytes 0x8000 32 3 = some result ∧ Reported (smallMap.map MapRecord.entry) 32 result :=
  mapDecoded smallMapBytes 0x8000 smallMap 0x9000 32 3 (by decide) (by decide +kernel) ⟨by decide,by decide +kernel,by decide +kernel,by decide +kernel⟩
    (by decide +kernel) (by decide)

/- A map whose chain of entries stays inside: each is whole, and each that takes no room
in the table leads to another place. -/
inductive Chained (mem : Bytes) (last : Nat) : (room p : Nat) → Prop where
  | full (p : Nat) : Chained mem last 0 p
  | past {room p : Nat} (beyond : last ≤ p) : Chained mem last room p
  | available {room p : Nat} (whole : p + 24 ≤ last) (available : (mmapEntry mem p).Available)
      (rest : Chained mem last room (p + stride mem p)) : Chained mem last (room + 1) p
  | skipped {room p : Nat} (whole : p + 24 ≤ last) (other : ¬ (mmapEntry mem p).Available) (moves : stride mem p ≠ 0)
      (rest : Chained mem last (room + 1) (p + stride mem p)) : Chained mem last (room + 1) p

/- The walk over `[addr, addr + length)` ends and reads no byte outside. -/
structure WalkSafe (mem : Bytes) (max addr length : Nat) : Prop where
  ends : ∃ fuel, (MapWalk.loop mem (addr + length) max fuel (.start addr)).2 = true
  inside : ∀ fuel, ∀ a ∈ (MapWalk.loop mem (addr + length) max fuel (.start addr)).1.reads, addr ≤ a ∧ a < addr + length

theorem stepReads : (s.step mem).reads = s.reads ++ MapWalk.entryReads mem s.p := by
  unfold MapWalk.step
  dsimp only
  split <;> rfl

theorem stepCursor : (s.step mem).p = s.p + stride mem s.p := by
  unfold MapWalk.step
  dsimp only
  split <;> rfl

/- The fields read lie in the 24 bytes of the entry, the last of which is always read. -/
theorem entryReadsWithin {a : Nat} (member : a ∈ MapWalk.entryReads mem p) : p ≤ a ∧ a < p + 24 := by
  simp only [MapWalk.entryReads,List.mem_append] at member
  rcases member with ((type | len) | base) | size
  · have := List.mem_range'_1.mp type
    omega
  · split at len
    · have := List.mem_range'_1.mp len
      omega
    · cases len
  · split at base
    · have := List.mem_range'_1.mp base
      omega
    · cases base
  · have := List.mem_range'_1.mp size
    omega

theorem entryReadsLast : p + 23 ∈ MapWalk.entryReads mem p := by
  have type : p + 23 ∈ List.range' (p + 20) 4 := List.mem_range'_1.mpr (by omega)
  simp only [MapWalk.entryReads,List.mem_append]
  exact .inl (.inl (.inl type))

theorem loopReads : s.reads ⊆ (MapWalk.loop mem last max fuel s).1.reads := by
  induction fuel generalizing s with
  | zero => exact List.Subset.refl _
  | succ fuel ih =>
    rw [MapWalk.loop]
    split
    · refine List.Subset.trans ?_ ih
      rw [stepReads]
      exact List.subset_append_left _ _
    · exact List.Subset.refl _

/- A walk that stands still at an entry it skips never ends. -/
theorem loopStuck (inside : s.p < last) (room : s.regions.length < max) (other : ¬ (mmapEntry mem s.p).Available) (still : stride mem s.p = 0) :
    (MapWalk.loop mem last max fuel s).2 = false := by
  induction fuel generalizing s with
  | zero => rfl
  | succ fuel ih =>
    have same : (s.step mem).p = s.p := by rw [stepCursor,still,Nat.add_zero]
    have kept : (s.step mem).regions = s.regions := by rw [stepOther other]
    rw [MapWalk.loop,if_pos ⟨inside,room⟩]
    exact ih (by rwa [same]) (by rwa [kept]) (by rwa [same]) (by rwa [same])

/- What a walk that ends without leaving its bounds says of the map. -/
theorem endedChained {lo : Nat} (left : (MapWalk.loop mem last max fuel s).2 = true)
    (inside : ∀ a ∈ (MapWalk.loop mem last max fuel s).1.reads, lo ≤ a ∧ a < last) : Chained mem last (max - s.regions.length) s.p := by
  induction fuel generalizing s with
  | zero => cases left
  | succ fuel ih =>
    rw [MapWalk.loop] at left inside
    split at left
    · rename_i goes
      rw [if_pos goes] at inside
      obtain ⟨k,room⟩ : ∃ k, max - s.regions.length = k + 1 := ⟨max - s.regions.length - 1,by omega⟩
      have read : s.p + 23 ∈ (MapWalk.loop mem last max fuel (s.step mem)).1.reads := by
        refine loopReads ?_
        rw [stepReads]
        exact List.mem_append_right _ entryReadsLast
      have whole : s.p + 24 ≤ last := (inside _ read).2
      have rest := ih left inside
      rw [stepCursor] at rest
      rw [room]
      by_cases available : (mmapEntry mem s.p).Available
      · have taken : max - (s.regions.length + 1) = k := by omega
        rw [stepAvailable available,List.length_append,List.length_singleton,taken] at rest
        exact .available whole available rest
      · have moves : stride mem s.p ≠ 0 := by
          intro still
          have same : (s.step mem).p = s.p := by rw [stepCursor,still,Nat.add_zero]
          have kept : (s.step mem).regions = s.regions := by rw [stepOther available]
          rw [loopStuck (by rw [same]; exact goes.1) (by rw [kept]; exact goes.2) (by rwa [same]) (by rwa [same])] at left
          cases left
        rw [stepOther available,room] at rest
        exact .skipped whole available moves rest
    · rename_i stops
      rcases Nat.lt_or_ge s.p last with before | beyond
      · have full : max - s.regions.length = 0 := by
          have := not_and.mp stops before
          omega
        rw [full]
        exact .full _
      · exact .past beyond

/- The walk ends within `[lo, last)`. -/
def Ends (mem : Bytes) (lo last max : Nat) (s : MapWalk) : Prop :=
  (∃ fuel, (MapWalk.loop mem last max fuel s).2 = true) ∧ ∀ fuel, ∀ a ∈ (MapWalk.loop mem last max fuel s).1.reads, lo ≤ a ∧ a < last

theorem stopEnds {lo : Nat} (stops : ¬ (s.p < last ∧ s.regions.length < max)) (inside : ∀ a ∈ s.reads, lo ≤ a ∧ a < last) : Ends mem lo last max s := by
  refine ⟨⟨1,by rw [MapWalk.loop,if_neg stops]⟩,fun fuel => ?_⟩
  cases fuel with
  | zero => exact inside
  | succ fuel =>
    rw [MapWalk.loop,if_neg stops]
    exact inside

theorem stepEnds {lo : Nat} (goes : s.p < last ∧ s.regions.length < max) (inside : ∀ a ∈ s.reads, lo ≤ a ∧ a < last)
    (rest : Ends mem lo last max (s.step mem)) : Ends mem lo last max s := by
  obtain ⟨⟨fuel,left⟩,reads⟩ := rest
  refine ⟨⟨fuel + 1,by rw [MapWalk.loop,if_pos goes,left]⟩,fun fuel => ?_⟩
  cases fuel with
  | zero => exact inside
  | succ fuel =>
    rw [MapWalk.loop,if_pos goes]
    exact reads fuel

theorem readsInside {lo : Nat} (low : lo ≤ s.p) (whole : s.p + 24 ≤ last) (inside : ∀ a ∈ s.reads, lo ≤ a ∧ a < last) :
    ∀ a ∈ (s.step mem).reads, lo ≤ a ∧ a < last := by
  intro a member
  rw [stepReads] at member
  rcases List.mem_append.mp member with before | now
  · exact inside a before
  · have := entryReadsWithin now
    omega

/- A chained map is walked to its end, entry after entry. -/
theorem chainedEnds {lo p : Nat} (chained : Chained mem last room p) (s : MapWalk) (here : s.p = p) (left : max - s.regions.length = room)
    (low : lo ≤ s.p) (inside : ∀ a ∈ s.reads, lo ≤ a ∧ a < last) : Ends mem lo last max s := by
  induction chained generalizing s with
  | full p => exact stopEnds (by omega) inside
  | past beyond => exact stopEnds (by omega) inside
  | @available room p whole available rest ih =>
    subst here
    have next : max - (s.step mem).regions.length = room := by
      rw [stepAvailable available,List.length_append,List.length_singleton]
      omega
    exact stepEnds ⟨by omega,by omega⟩ inside (ih (s.step mem) stepCursor next (by rw [stepCursor]; omega) (readsInside low whole inside))
  | @skipped room p whole other moves rest ih =>
    subst here
    have next : max - (s.step mem).regions.length = room + 1 := by
      rw [stepOther other]
      exact left
    exact stepEnds ⟨by omega,by omega⟩ inside (ih (s.step mem) stepCursor next (by rw [stepCursor]; omega) (readsInside low whole inside))

/- The walk is safe exactly on the maps that are chained. -/
theorem walkSafeIff (mem : Bytes) (max addr length : Nat) : WalkSafe mem max addr length ↔ Chained mem (addr + length) max addr := by
  constructor
  · intro safe
    obtain ⟨fuel,left⟩ := safe.ends
    exact endedChained left (safe.inside fuel)
  · intro chained
    have none : ∀ a ∈ (MapWalk.start addr).reads, addr ≤ a ∧ a < addr + length := fun a member => absurd member (List.not_mem_nil)
    obtain ⟨ends,inside⟩ := chainedEnds chained (.start addr) rfl rfl (le_refl addr) none
    exact ⟨ends,inside⟩

/- A map cut off after four bytes is read beyond its end, and at an entry of type 0 whose
`size` is 2^32 - 4 the walk stays forever. -/
theorem walkUnsafe : ¬ (∀ mem max addr length, WalkSafe mem max addr length) ∧
    ∀ fuel, (MapWalk.loop (fun a => if a = 0 then 0xFC else if a < 4 then 0xFF else 0) 24 32 fuel (.start 0)).2 = false := by
  constructor
  · intro always
    have read := (always (fun _ => 0) 32 0 4).inside 1 23 (by decide)
    omega
  · intro fuel
    exact loopStuck (by decide) (by decide) (by decide) (by decide)

end
end Mukern
