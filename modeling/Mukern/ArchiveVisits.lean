import Mathlib.Data.List.TakeWhile
import Mukern.Archive
import Mukern.ArchiveWalks

/-! The headers that a walk of the file server visits. They depend on the disk alone,
and `fs_open` takes the first that shows the name it looks for. -/
namespace Mukern
open Buffers

/- What the sectors read as; a read that fails does so each time. -/
abbrev DiskContent : Type := Word → Option (Buffer Byte)

def BlockDevice.fixed (content : DiskContent) : BlockDevice (2 ^ 64) :=
  ⟨fun _ lba => content lba,fun _ lba beyond => absurd lba.isLt (Nat.not_lt.mpr beyond)⟩

def Drive.content (drive : Drive) : DiskContent := fun lba => drive.ataRead1 lba.toNat

structure Visited where
  lba : Word
  sector : Buffer Byte

namespace Visited

/- The bytes before the first NUL, all 512 where there is none. -/
def name (v : Visited) : List Byte := (read v.sector 0 512).takeWhile (· ≠ 0)

def size (v : Visited) : Word := parseOctalWord v.sector 124 0 12

def next (v : Visited) : Word := v.lba + 1 + sectorsOf v.size

/- The name has its NUL inside the header. -/
def Ended (v : Visited) : Prop := 0 ∈ read v.sector 0 512

instance (v : Visited) : Decidable v.Ended := inferInstanceAs (Decidable (_ ∈ _))

end Visited

/- The headers from `lba` to the end of the archive or the first sector that cannot be read. -/
inductive Visits (content : DiskContent) : Word → List Visited → Prop where
  | failed {lba} (unread : content lba = none) : Visits content lba []
  | empty {lba sector} (found : content lba = some sector) (empty : sector 0 = 0) : Visits content lba []
  | header {v rest} (found : content v.lba = some v.sector) (named : v.sector 0 ≠ 0) (later : Visits content v.next rest) :
      Visits content v.lba (v :: rest)

section headers
variable {v : Visited} {last : Nat} {s : Walker last}

theorem loadCell (s : Walker last) (sector : Buffer Byte) {j : Nat} (low : j < 512) : (s.load sector).hdr j = sector j := by
  have inside := fillInside s.hdr 0 sector low
  rwa [Nat.zero_add] at inside

namespace Visited

theorem nameClean (v : Visited) : 0 ∉ v.name := by
  intro member
  rw [name] at member
  have some := List.mem_takeWhile_imp member
  exact of_decide_eq_true some rfl

theorem nameShort (v : Visited) : v.name.length ≤ 512 := by
  have short := (List.takeWhile_prefix (· ≠ 0) (l := read v.sector 0 512)).length_le
  rwa [readLength] at short

theorem nameRead (v : Visited) : read v.sector 0 v.name.length = v.name := by
  have cut : v.name = (read v.sector 0 512).take v.name.length := List.prefix_iff_eq_take.mp (List.takeWhile_prefix _)
  rw [readTake,Nat.min_eq_left v.nameShort] at cut
  exact cut.symm

theorem nameNul (ended : v.Ended) : v.name.length < 512 ∧ v.sector v.name.length = 0 := by
  have parts : v.name ++ (read v.sector 0 512).dropWhile (· ≠ 0) = read v.sector 0 512 := List.takeWhile_append_dropWhile
  rcases rest : (read v.sector 0 512).dropWhile (· ≠ 0) with _ | ⟨c,behind⟩
  · rw [rest,List.append_nil] at parts
    rw [Ended,← parts] at ended
    exact absurd ended v.nameClean
  · have nul : c = 0 := by
      have stops := List.head?_dropWhile_not (· ≠ 0) (read v.sector 0 512)
      rw [rest] at stops
      simpa using stops
    rw [rest,nul] at parts
    have short : v.name.length < 512 := by
      have lengths := congrArg List.length parts
      rw [List.length_append,List.length_cons,readLength] at lengths
      omega
    have cell := congrArg (·[v.name.length]?) parts
    simp only [List.getElem?_append_right (Nat.le_refl _),Nat.sub_self,List.getElem?_cons_zero,readGet short,Nat.zero_add,Option.some.injEq] at cell
    exact ⟨short,cell.symm⟩

theorem nameLong (endless : ¬ v.Ended) : v.name.length = 512 := by
  have whole : v.name = read v.sector 0 512 := List.takeWhile_eq_self_iff.mpr fun c member =>
    decide_eq_true fun nul : c = 0 => endless (by rwa [nul] at member)
  rw [whole,readLength]

theorem nameSome (named : v.sector 0 ≠ 0) : 1 ≤ v.name.length := by
  by_contra none
  have zero : v.name.length = 0 := by omega
  by_cases ended : v.Ended
  · have nul := (nameNul ended).2
    rw [zero] at nul
    exact named nul
  · have long := nameLong ended
    omega

end Visited

/- A header in `hdr`, as the loops over its name find it. -/
structure Loaded (hdr : Buffer Byte) (v : Visited) : Prop where
  cells : ∀ j < 512, hdr j = v.sector j
  shown : read hdr 0 v.name.length = v.name
  first : hdr 0 = v.sector 0
  size : parseOctalWord hdr 124 0 12 = v.size

theorem parseOctalCongr {p q : Buffer Byte} {i n : Nat} (same : ∀ j, i ≤ j → j < i + n → p j = q j) (w : Word) :
    parseOctalWord p i w n = parseOctalWord q i w n := by
  induction n generalizing i w with
  | zero => rfl
  | succ n ih =>
    rw [parseOctalWord,parseOctalWord,same i (Nat.le_refl i) (by omega)]
    split
    · exact ih (fun j above below => same j (by omega) (by omega)) _
    · rfl

theorem headerLoaded (s : Walker last) (v : Visited) : Loaded (s.load v.sector).hdr v where
  cells _ low := loadCell s v.sector low
  shown := by
    refine (readCongr fun i _ high => loadCell s v.sector ?_).trans v.nameRead
    have short := v.nameShort
    omega
  first := loadCell s v.sector (by decide)
  size := parseOctalCongr (fun j _ high => loadCell s v.sector (by omega)) 0

/- Both walks go to the same header. -/
theorem nextLater (loaded : Loaded s.hdr v) : v.lba + (1 + sectorsOf (parseOctalWord s.hdr 124 0 12)) = v.next := by
  rw [loaded.size,← BitVec.add_assoc]
  rfl

end headers

section visits
variable {drive : Drive} {content : DiskContent} {lba lba' : Word} {visited visited' : List Visited}

theorem visitsStart (visits : Visits content lba visited) : visited = [] ↔ ∀ sector, content lba = some sector → sector 0 = 0 := by
  cases visits with
  | failed unread =>
    refine iff_of_true rfl fun sector found => ?_
    rw [unread] at found
    cases found
  | empty found empty =>
    refine iff_of_true rfl fun sector found' => ?_
    cases found.symm.trans found'
    exact empty
  | header found named later => exact iff_of_false nofun fun empty => named (empty _ found)

theorem visitsUnique (visits : Visits content lba visited) (visits' : Visits content lba' visited') (same : lba = lba') : visited = visited' := by
  induction visited generalizing lba lba' visited' with
  | nil =>
    have start := (visitsStart visits).mp rfl
    rw [same] at start
    exact ((visitsStart visits').mpr start).symm
  | cons v rest ih =>
    cases visits with
    | header found named later =>
      cases visits' with
      | failed unread =>
        rw [same,unread] at found
        cases found
      | empty found' empty =>
        rw [← same] at found'
        cases found.symm.trans found'
        exact absurd empty named
      | header found' named' later' =>
        rename_i v' rest'
        rw [← same] at found'
        have equal : v = v' := by
          obtain ⟨lba,sector⟩ := v
          obtain ⟨lba',sector'⟩ := v'
          cases same
          cases found.symm.trans found'
          rfl
        rw [equal] at later
        rw [equal,ih later later' rfl]

/- The drive looks at 28 bits of a sector number, and so does the walk. -/
theorem visitsAlike (visits : Visits drive.content lba visited) (visits' : Visits drive.content lba' visited')
    (same : lba.toNat % 2 ^ 28 = lba'.toNat % 2 ^ 28) : visited.length = visited'.length := by
  have answers : drive.content lba = drive.content lba' := congrArg drive.sector same
  induction visited generalizing lba lba' visited' with
  | nil =>
    have start := (visitsStart visits).mp rfl
    rw [answers] at start
    rw [(visitsStart visits').mpr start]
  | cons v rest ih =>
    cases visits with
    | header found named later =>
      cases visits' with
      | failed unread =>
        rw [answers,unread] at found
        cases found
      | empty found' empty =>
        cases found.symm.trans (answers.trans found')
        exact absurd empty named
      | header found' named' later' =>
        rename_i v' rest'
        have sectors : v.sector = v'.sector := Option.some.inj (found.symm.trans (answers.trans found'))
        have next : v.next.toNat % 2 ^ 28 = v'.next.toNat % 2 ^ 28 := by
          have wide : (2 : Nat) ^ 28 ∣ 2 ^ 64 := Nat.pow_dvd_pow 2 (by decide)
          rw [Visited.next,Visited.next,Visited.size,Visited.size,sectors]
          simp only [BitVec.toNat_add,Nat.mod_mod_of_dvd _ wide,Nat.add_mod,same,Nat.mod_mod]
        rw [List.length_cons,List.length_cons,ih later later' next (congrArg drive.sector next)]

theorem visitsSuffix {front rest : List Visited} {v : Visited} (visits : Visits content lba (front ++ v :: rest)) :
    Visits content v.lba (v :: rest) := by
  induction front generalizing lba with
  | nil =>
    cases visits with
    | header found named later => exact .header found named later
  | cons u front ih =>
    cases visits with
    | header found named later => exact ih later

/- A walk that ends never reads a sector twice. -/
theorem visitsApart (visits : Visits drive.content lba visited) : (visited.map fun v => v.lba.toNat % 2 ^ 28).Nodup := by
  induction visits with
  | failed unread => exact List.nodup_nil
  | empty found empty => exact List.nodup_nil
  | header found named later ih =>
    rename_i v rest
    refine List.nodup_cons.mpr ⟨fun member => ?_,ih⟩
    obtain ⟨u,inside,same⟩ := List.mem_map.mp member
    obtain ⟨front,behind,rfl⟩ := List.append_of_mem inside
    have lengths := visitsAlike (.header found named later) (visitsSuffix later) same.symm
    rw [List.length_cons,List.length_cons,List.length_append,List.length_cons] at lengths
    omega

end visits

section opening
variable {content : DiskContent} {visited : List Visited} {v : Visited} {lba : Word} {last fuel turns path : Nat} {s : Walker last} {p : List Byte}

/- The outcome of `fs_open` at the header it looks for: a handle, unless all are in use. -/
def Walker.take (s : Walker last) (v : Visited) : Int × (Nat → Fent) :=
  match (List.range 8).find? fun i => !(s.ftab i).used with
  | some i => (i,Function.update s.ftab i ⟨(v.lba + 1).toNat,v.size.toNat,true⟩)
  | none => (-1,s.ftab)

theorem openStep (found : content v.lba = some v.sector) (named : v.sector 0 ≠ 0) (ended : v.Ended) (long : last < fuel)
    (given : Named s.memory path p) (clean : 0 ∉ p) :
    s.fsOpen (.fixed content) path fuel (turns + 1) k v.lba =
      if v.name = p then some ((s.take v).1,k + 1,{ s.load v.sector with ftab := (s.take v).2 })
      else Walker.fsOpen (.fixed content) path fuel turns (k + 1) v.next (s.load v.sector) := by
  have loaded := headerLoaded s v
  have answer : (BlockDevice.fixed content).answer k v.lba = some v.sector := found
  have start : (s.load v.sector).hdr 0 ≠ 0 := by rwa [loaded.first]
  obtain ⟨short,nul⟩ := v.nameNul ended
  have behind := s.nul.1
  have shown : read (s.load v.sector).hdr 0 (v.name.length + 1) = v.name ++ [0] := by
    rw [readLast,loaded.shown,Nat.zero_add,loaded.cells _ short,nul]
  have nul' : (s.load v.sector).hdr (0 + last) = 0 := by
    rw [Nat.zero_add]
    exact (s.load v.sector).nul.2
  have compared : nameEqWithin (s.load v.sector).hdr s.memory fuel 0 path = some (nameEq (s.load v.sector).hdr 0 s.memory path last) :=
    nameEqEnds nul' long
  have same : nameEq (s.load v.sector).hdr 0 s.memory path last = decide (v.name = p) := by
    rw [Bool.eq_iff_iff,nameEqIs shown v.nameClean (by omega),decide_eq_true_eq]
    exact ⟨fun whole => namedUnique whole given v.nameClean clean,fun equal => equal ▸ given⟩
  have memory : (s.load v.sector).memory = s.memory := rfl
  have ftab : (s.load v.sector).ftab = s.ftab := rfl
  rw [Walker.fsOpen,answer]
  dsimp only
  rw [if_neg start,memory,compared,same,loaded.size,ftab]
  by_cases equal : v.name = p
  · rw [if_pos equal,decide_eq_true equal,Walker.take]
    rcases (List.range 8).find? fun i => !(s.ftab i).used with _ | i <;> rfl
  · rw [if_neg equal,decide_eq_false equal]
    rfl

/- The walk of `fs_open` takes the first header of the name. -/
theorem walkOpens (visits : Visits content lba visited) (ended : ∀ v ∈ visited, v.Ended) (long : last < fuel) (enough : visited.length < turns)
    (given : Named s.memory path p) (clean : 0 ∉ p) (k : Nat) :
    ∃ r k' s', s.fsOpen (.fixed content) path fuel turns k lba = some (r,k',s') ∧
      (r,s'.ftab) = match visited.find? fun v => v.name = p with
        | some v => s.take v
        | none => (-1,s.ftab) := by
  induction turns generalizing k lba s visited with
  | zero => cases enough
  | succ turns ih =>
    cases visits with
    | failed unread =>
      have answer : (BlockDevice.fixed content).answer k lba = none := unread
      rw [Walker.fsOpen,answer]
      exact ⟨_,_,_,rfl,rfl⟩
    | empty found empty =>
      rename_i sector
      have answer : (BlockDevice.fixed content).answer k lba = some sector := found
      have start : (s.load sector).hdr 0 = 0 := (loadCell s sector (by decide)).trans empty
      rw [Walker.fsOpen,answer]
      dsimp only
      rw [if_pos start]
      exact ⟨_,_,_,rfl,rfl⟩
    | header found named later =>
      rename_i v rest
      obtain ⟨first,others⟩ := List.forall_mem_cons.mp ended
      rw [openStep found named first long given clean,List.find?_cons]
      by_cases equal : v.name = p
      · rw [if_pos equal,decide_eq_true equal]
        exact ⟨_,_,_,rfl,rfl⟩
      · rw [if_neg equal,decide_eq_false equal]
        exact ih (s := s.load v.sector) later others (Nat.lt_of_succ_lt_succ enough) given _

theorem takesFree (free : ∃ i < 8, (s.ftab i).used = false) (v : Visited) : ∃ i : Nat, (s.ftab i).used = false ∧
    s.take v = ((i : Int),Function.update s.ftab i ⟨(v.lba + 1).toNat,v.size.toNat,true⟩) := by
  obtain ⟨i,low,unused⟩ := free
  obtain ⟨handle,found⟩ : ∃ i, ((List.range 8).find? fun i => !(s.ftab i).used) = some i := by
    refine Option.isSome_iff_exists.mp (List.find?_isSome.mpr ⟨i,List.mem_range.mpr low,?_⟩)
    rw [unused]
    rfl
  refine ⟨handle,by simpa using List.find?_some found,?_⟩
  rw [Walker.take,found]

theorem takesFull (full : ¬ ∃ i < 8, (s.ftab i).used = false) (v : Visited) : s.take v = (-1,s.ftab) := by
  have none : ((List.range 8).find? fun i => !(s.ftab i).used) = none := by
    refine List.find?_eq_none.mpr fun i member unused => full ⟨i,List.mem_range.mp member,?_⟩
    simpa using unused
  rw [Walker.take,none]

end opening

end Mukern
