import Mathlib.Data.List.Perm.Subperm
import Mukern.ArchiveVisits
import Mukern.Library.Trace

/-! What `fs_list` writes for any disk, and that what it lists is what `fs_open` opens. -/
namespace Mukern
open Buffers

/- Each name followed by a newline. -/
def listing (visited : List Visited) : List Byte := visited.flatMap fun v => v.name ++ [10]

/- The address of `buf[i]`. -/
def byteAt (buf : Word) (i : Nat) : Nat := (buf + BitVec.ofNat 64 i).toNat

/- The indices that the inner loop of `fs_list` reads. -/
def nameReads (name : Buffer Byte) (max : Word) : (fuel i : Nat) → (out : Word) → List Nat
  | 0, _, _ => []
  | fuel + 1, i, out => i :: if name i ≠ 0 ∧ out + 2 < max then nameReads name max fuel (i + 1) (out + 1) else []

/- The same in every header of the walk. -/
def Walker.listReads {last n : Nat} (device : BlockDevice n) (buf max : Word) (fuel : Nat) :
    (turns k : Nat) → (lba out : Word) → Walker last → List Nat
  | 0, _, _, _, _ => []
  | turns + 1, k, lba, out, s =>
    match device.answer k lba with
    | none => []
    | some sector =>
      let s := s.load sector
      if s.hdr 0 = 0 then []
      else
        nameReads s.hdr max fuel 0 out ++
          match listNameWithin s.hdr buf max fuel 0 out s.memory with
          | none => []
          | some (memory,out) =>
            let (memory,out) := if out + 1 < max then (memory.set (buf + out).toNat 10,out + 1) else (memory,out)
            let size := parseOctalWord s.hdr 124 0 12
            listReads device buf max fuel turns (k + 1) (lba + (1 + sectorsOf size)) out { s with memory := memory }

section bytes
variable {buf out : Word} {i j : Nat}

theorem byteAtWord (buf out : Word) : (buf + out).toNat = byteAt buf out.toNat := by
  rw [byteAt,BitVec.ofNat_toNat,BitVec.setWidth_eq]

theorem byteAtInj (low : i < 2 ^ 64) (low' : j < 2 ^ 64) (same : byteAt buf i = byteAt buf j) : i = j := by
  have offsets := (BitVec.add_right_inj buf).mp (BitVec.eq_of_toNat_eq same)
  calc i = (BitVec.ofNat 64 i).toNat := by rw [BitVec.toNat_ofNat,Nat.mod_eq_of_lt low]
    _ = (BitVec.ofNat 64 j).toNat := by rw [offsets]
    _ = j := by rw [BitVec.toNat_ofNat,Nat.mod_eq_of_lt low']

theorem wordSucc (room : out.toNat + 1 < 2 ^ 64) : (out + 1).toNat = out.toNat + 1 := BitVec.toNat_add_of_lt room

theorem wordSuccSucc (room : out.toNat + 2 < 2 ^ 64) : (out + 2).toNat = out.toNat + 2 := BitVec.toNat_add_of_lt room

end bytes

section copying
variable {name memory memory' : Buffer Byte} {buf max out out' : Word} {fuel i j : Nat} {text : List Byte}

/- `text` is written from `buf[lo]` on, up to `buf[hi]`, and nothing else. -/
structure TextWritten (memory memory' : Buffer Byte) (buf : Word) (lo hi : Nat) (text : List Byte) : Prop where
  cells : ∀ j, lo + j < hi → some (memory' (byteAt buf (lo + j))) = text[j]?
  outside : ∀ a, (∀ j, lo ≤ j → j < hi → a ≠ byteAt buf j) → memory' a = memory a

theorem TextWritten.none {lo : Nat} : TextWritten memory memory buf lo lo text := ⟨fun j low => by omega,fun _ _ => rfl⟩

theorem TextWritten.cons {c : Byte} {lo hi : Nat} (wrote : TextWritten (memory.set (byteAt buf lo) c) memory' buf (lo + 1) hi text) (some' : lo < hi)
    (room : hi < 2 ^ 64) : TextWritten memory memory' buf lo hi (c :: text) where
  cells j low := by
    cases j with
    | zero =>
      have kept := wrote.outside (byteAt buf lo) fun j above below same => by
        have equal := byteAtInj (by omega) (by omega) same
        omega
      rw [Nat.add_zero,kept,setSame]
      rfl
    | succ j =>
      have cell := wrote.cells j (by omega)
      rwa [Nat.add_right_comm,Nat.add_assoc] at cell
  outside a other := by
    rw [wrote.outside a fun j above below => other j (by omega) below]
    exact setOther (other lo (Nat.le_refl lo) some')

/- The copy of a name: it ends at the NUL or where the buffer has room for two more bytes only. -/
theorem nameCopied (listed : listNameWithin name buf max fuel i out memory = some (memory',out')) (shown : read name i text.length = text)
    (clean : 0 ∉ text) (stops : name (i + text.length) = 0 ∨ max.toNat ≤ out.toNat + text.length + 1) (room : out.toNat + text.length + 2 < 2 ^ 64) :
    out'.toNat = out.toNat + min text.length (max.toNat - 2 - out.toNat) ∧ TextWritten memory memory' buf out.toNat out'.toNat text := by
  induction fuel generalizing i out memory text with
  | zero => cases listed
  | succ fuel ih =>
    have two : (out + 2).toNat = out.toNat + 2 := wordSuccSucc (by omega)
    rw [listNameWithin] at listed
    cases text with
    | nil =>
      have ends : ¬ (name i ≠ 0 ∧ out + 2 < max) := by
        rintro ⟨some,free⟩
        rw [BitVec.lt_def,two] at free
        rcases stops with nul | full
        · exact some nul
        · rw [List.length_nil] at full
          omega
      rw [if_neg ends] at listed
      cases listed
      rw [List.length_nil,Nat.zero_min,Nat.add_zero]
      exact ⟨rfl,.none⟩
    | cons c text =>
      obtain ⟨first,rest⟩ := List.cons.inj shown
      obtain ⟨some,clean⟩ := not_or.mp (List.mem_cons.not.mp clean)
      rw [List.length_cons] at stops room ⊢
      have one : (out + 1).toNat = out.toNat + 1 := wordSucc (by omega)
      have named : name i ≠ 0 := fun nul => some (nul.symm.trans first)
      split at listed
      · rename_i goes
        have free := goes.2
        rw [BitVec.lt_def,two] at free
        rw [byteAtWord] at listed
        have stops' : name (i + 1 + text.length) = 0 ∨ max.toNat ≤ (out + 1).toNat + text.length + 1 := by
          rw [one]
          rcases stops with nul | full
          · exact .inl (by rwa [Nat.add_right_comm])
          · exact .inr (by omega)
        obtain ⟨count,wrote⟩ := ih listed rest clean stops' (by rw [one]; omega)
        rw [one] at count wrote
        rw [first] at wrote
        refine ⟨by omega,wrote.cons ?_ ?_⟩ <;> omega
      · rename_i full
        have none : max.toNat - 2 - out.toNat = 0 := by
          by_contra some
          refine full ⟨named,?_⟩
          rw [BitVec.lt_def,two]
          omega
        cases listed
        rw [none,Nat.min_zero,Nat.add_zero]
        exact ⟨rfl,.none⟩

/- It reads the bytes that it copies, and one more. -/
theorem readsWithin (shown : read name i text.length = text) (stops : name (i + text.length) = 0 ∨ max.toNat ≤ out.toNat + text.length + 1)
    (room : out.toNat + text.length + 2 < 2 ^ 64) :
    ∀ j ∈ nameReads name max fuel i out, j ≤ i + min text.length (max.toNat - 2 - out.toNat) := by
  induction fuel generalizing i out text with
  | zero => exact List.forall_mem_nil _
  | succ fuel ih =>
    have two : (out + 2).toNat = out.toNat + 2 := wordSuccSucc (by omega)
    rw [nameReads]
    refine List.forall_mem_cons.mpr ⟨Nat.le_add_right _ _,?_⟩
    split
    · rename_i goes
      have free := goes.2
      rw [BitVec.lt_def,two] at free
      cases text with
      | nil =>
        rw [List.length_nil] at stops
        rcases stops with nul | full
        · exact absurd nul goes.1
        · omega
      | cons c text =>
        rw [List.length_cons] at stops room ⊢
        have one : (out + 1).toNat = out.toNat + 1 := wordSucc (by omega)
        have stops' : name (i + 1 + text.length) = 0 ∨ max.toNat ≤ (out + 1).toNat + text.length + 1 := by
          rw [one]
          rcases stops with nul | full
          · exact .inl (by rwa [Nat.add_right_comm])
          · exact .inr (by omega)
        intro j member
        have within := ih (List.cons.inj shown).2 stops' (by rw [one]; omega) j member
        rw [one] at within
        omega
    · exact List.forall_mem_nil _

/- A name that goes on, in a buffer with room for it, is read on. -/
theorem readsBeyond (listed : listNameWithin name buf max fuel i out memory = some (memory',out')) {n : Nat}
    (named : ∀ j, i ≤ j → j < i + n → name j ≠ 0) (free : out.toNat + n + 1 < max.toNat) : i + n ∈ nameReads name max fuel i out := by
  induction fuel generalizing i out memory n with
  | zero => cases listed
  | succ fuel ih =>
    rw [listNameWithin] at listed
    rw [nameReads]
    cases n with
    | zero => exact List.mem_cons_self
    | succ n =>
      have word := max.isLt
      have one : (out + 1).toNat = out.toNat + 1 := wordSucc (by omega)
      have two : (out + 2).toNat = out.toNat + 2 := wordSuccSucc (by omega)
      have goes : name i ≠ 0 ∧ out + 2 < max := by
        refine ⟨named i (Nat.le_refl i) (by omega),?_⟩
        rw [BitVec.lt_def,two]
        omega
      rw [if_pos goes] at listed ⊢
      have later := ih (n := n) listed (fun j above below => named j (by omega) (by omega)) (by rw [one]; omega)
      rw [Nat.add_right_comm,Nat.add_assoc] at later
      exact List.mem_cons_of_mem _ later

end copying

/- The listing so far: `text` stands in the buffer from `out` on, as far as it fits. -/
structure Listed (memory memory' : Buffer Byte) (buf max : Word) (out hi : Nat) (text : List Byte) : Prop where
  count : hi = min (out + text.length) (max.toNat - 1)
  whole : out + text.length < max.toNat → ∀ j < text.length, some (memory' (byteAt buf (out + j))) = text[j]?
  outside : ∀ a, (∀ j, out ≤ j → j < hi → a ≠ byteAt buf j) → memory' a = memory a

section lines
variable {memory memory' memory'' : Buffer Byte} {buf max : Word} {out hi hi' : Nat} {text text' : List Byte}

theorem Listed.nil (low : out < max.toNat) : Listed memory memory buf max out out [] :=
  ⟨by rw [List.length_nil]; omega,fun _ => nofun,fun _ _ => rfl⟩

theorem Listed.append (first : Listed memory memory' buf max out hi text) (low : out < max.toNat)
    (second : Listed memory' memory'' buf max hi hi' text') : Listed memory memory'' buf max out hi' (text ++ text') where
  count := by
    rw [second.count,first.count,List.length_append]
    omega
  whole fits j inside := by
    rw [List.length_append] at fits inside
    have count := first.count
    have word := max.isLt
    have here : hi = out + text.length := by omega
    rcases Nat.lt_or_ge j text.length with early | late
    · rw [List.getElem?_append_left early,← first.whole (by omega) j early]
      refine congrArg some (second.outside _ fun k above below same => ?_)
      have top := second.count
      have equal := byteAtInj (by omega) (by omega) same
      omega
    · have cell := second.whole (by omega) (j - text.length) (by omega)
      rw [here,Nat.add_assoc,Nat.add_sub_cancel' late] at cell
      rw [List.getElem?_append_right late,← cell]
  outside a other := by
    have top := second.count
    have count := first.count
    rw [second.outside a fun j above below => other j (by omega) below]
    exact first.outside a fun j above below => other j above (by omega)

/- `if (out + 1 < max) buf[out++] = '\n'`. -/
def newlineListed (buf max : Word) (line : Buffer Byte × Word) : Buffer Byte × Word :=
  if line.2 + 1 < max then (line.1.set (buf + line.2).toNat 10,line.2 + 1) else line

variable {v : Visited} {hdr : Buffer Byte} {place place' : Word} {fuel : Nat}

/- The loop over the name stops inside the header. -/
theorem nameStops (loaded : Loaded hdr v) (fits : v.Ended ∨ max.toNat ≤ out + 513) :
    hdr (0 + v.name.length) = 0 ∨ max.toNat ≤ out + v.name.length + 1 := by
  rw [Nat.zero_add]
  by_cases ended : v.Ended
  · obtain ⟨short,nul⟩ := v.nameNul ended
    exact .inl ((loaded.cells _ short).trans nul)
  · have long := v.nameLong ended
    have full := fits.resolve_left ended
    exact .inr (by omega)

/- One line of the listing. -/
theorem lineListed (loaded : Loaded hdr v) (fits : v.Ended ∨ max.toNat ≤ place.toNat + 513)
    (low : place.toNat < max.toNat) (room : place.toNat + v.name.length + 2 < 2 ^ 64)
    (copied : listNameWithin hdr buf max fuel 0 place memory = some (memory',place')) :
    Listed memory (newlineListed buf max (memory',place')).1 buf max place.toNat (newlineListed buf max (memory',place')).2.toNat (v.name ++ [10]) := by
  obtain ⟨count,wrote⟩ := nameCopied copied loaded.shown v.nameClean (nameStops loaded fits) room
  have length : (v.name ++ [10]).length = v.name.length + 1 := List.length_append
  have one : (place' + 1).toNat = place'.toNat + 1 := wordSucc (by omega)
  have free : place' + 1 < max ↔ place'.toNat + 1 < max.toNat := by rw [BitVec.lt_def,one]
  rw [newlineListed]
  split
  · rename_i ends
    have ends := free.mp ends
    rw [byteAtWord]
    dsimp only
    rw [one]
    refine ⟨by omega,fun whole j inside => ?_,fun a other => ?_⟩
    · rw [length] at whole inside
      rcases Nat.lt_or_ge j v.name.length with early | late
      · rw [List.getElem?_append_left early,← wrote.cells j (by omega)]
        refine congrArg some (setOther fun same => ?_)
        have equal := byteAtInj (by omega) (by omega) same
        omega
      · have last : j = v.name.length := by omega
        have here : place.toNat + j = place'.toNat := by omega
        rw [here,setSame,last,List.getElem?_append_right (Nat.le_refl _),Nat.sub_self]
        rfl
    · rw [setOther (other _ (by omega) (by omega))]
      exact wrote.outside a fun j above below => other j above (by omega)
  · rename_i full
    have full := mt free.mpr full
    dsimp only
    refine ⟨by omega,fun whole => ?_,wrote.outside⟩
    rw [length] at whole
    omega

end lines

section walks
variable {content : DiskContent} {lba out : Word} {visited : List Visited} {v : Visited} {last fuel turns k : Nat} {s s' : Walker last} {buf max : Word}

theorem listingCons (v : Visited) (rest : List Visited) : listing (v :: rest) = v.name ++ [10] ++ listing rest := List.flatMap_cons

theorem listingConsLength (v : Visited) (rest : List Visited) : (listing (v :: rest)).length = v.name.length + 1 + (listing rest).length := by
  rw [listingCons,List.length_append,List.length_append]
  rfl

/- One header of the listing. -/
theorem listStep (found : content v.lba = some v.sector) (named : v.sector 0 ≠ 0) :
    s.fsList (.fixed content) buf max fuel (turns + 1) k v.lba out =
      match listNameWithin (s.load v.sector).hdr buf max fuel 0 out s.memory with
      | none => none
      | some line => Walker.fsList (.fixed content) buf max fuel turns (k + 1) v.next (newlineListed buf max line).2
          { s.load v.sector with memory := (newlineListed buf max line).1 } := by
  have loaded := headerLoaded s v
  have answer : (BlockDevice.fixed content).answer k v.lba = some v.sector := found
  have start : (s.load v.sector).hdr 0 ≠ 0 := by rwa [loaded.first]
  rw [Walker.fsList,answer]
  have memory : (s.load v.sector).memory = s.memory := rfl
  dsimp only
  rw [if_neg start,nextLater loaded,memory]
  rcases listNameWithin (s.load v.sector).hdr buf max fuel 0 out s.memory with _ | ⟨_,_⟩ <;> rfl

theorem readsStep (found : content v.lba = some v.sector) (named : v.sector 0 ≠ 0) :
    s.listReads (.fixed content) buf max fuel (turns + 1) k v.lba out =
      nameReads (s.load v.sector).hdr max fuel 0 out ++
        match listNameWithin (s.load v.sector).hdr buf max fuel 0 out s.memory with
        | none => []
        | some line => Walker.listReads (.fixed content) buf max fuel turns (k + 1) v.next (newlineListed buf max line).2
            { s.load v.sector with memory := (newlineListed buf max line).1 } := by
  have loaded := headerLoaded s v
  have answer : (BlockDevice.fixed content).answer k v.lba = some v.sector := found
  have start : (s.load v.sector).hdr 0 ≠ 0 := by rwa [loaded.first]
  rw [Walker.listReads,answer]
  have memory : (s.load v.sector).memory = s.memory := rfl
  dsimp only
  rw [if_neg start,nextLater loaded,memory]
  rcases listNameWithin (s.load v.sector).hdr buf max fuel 0 out s.memory with _ | ⟨_,_⟩ <;> rfl

/- The end of the walk. -/
theorem listStops (visits : Visits content lba []) (s : Walker last) (buf max : Word) (fuel turns k : Nat) (out : Word) :
    ∃ hdr nul, s.fsList (.fixed content) buf max fuel (turns + 1) k lba out =
      some (out,k + 1,⟨hdr,nul,s.ftab,s.memory.set (buf + out).toNat 0⟩) ∧ s.listReads (.fixed content) buf max fuel (turns + 1) k lba out = [] := by
  have answer : (BlockDevice.fixed content).answer k lba = content lba := rfl
  cases visits with
  | failed unread =>
    rw [Walker.fsList,Walker.listReads,answer,unread]
    exact ⟨_,_,rfl,rfl⟩
  | empty found empty =>
    rename_i sector
    have start : (s.load sector).hdr 0 = 0 := (loadCell s sector (by decide)).trans empty
    rw [Walker.fsList,Walker.listReads,answer,found]
    dsimp only
    rw [if_pos start,if_pos start]
    exact ⟨_,_,rfl,rfl⟩

/- A listing that ends has gone through the headers of the disk. -/
theorem listVisits {r : Word} {k' : Nat} (ended : s.fsList (.fixed content) buf max fuel turns k lba out = some (r,k',s')) :
    ∃ visited, Visits content lba visited := by
  induction turns generalizing k lba out s with
  | zero => cases ended
  | succ turns ih =>
    rcases found : content lba with _ | sector
    · exact ⟨[],.failed found⟩
    · by_cases named : sector 0 = 0
      · exact ⟨[],.empty found named⟩
      · rw [listStep (v := ⟨lba,sector⟩) found named] at ended
        split at ended
        · cases ended
        · obtain ⟨rest,later⟩ := ih ended
          exact ⟨_,.header (v := ⟨lba,sector⟩) found named later⟩

/- With enough fuel the listing ends. -/
theorem listGoes (visits : Visits content lba visited) (s : Walker last) (buf max : Word) (k : Nat) (out : Word) (long : last < fuel)
    (enough : visited.length < turns) : ∃ r k' s', s.fsList (.fixed content) buf max fuel turns k lba out = some (r,k',s') := by
  induction turns generalizing k lba out s visited with
  | zero => cases enough
  | succ turns ih =>
    cases visited with
    | nil =>
      obtain ⟨_,_,ended,_⟩ := listStops visits s buf max fuel turns k out
      exact ⟨_,_,_,ended⟩
    | cons v rest =>
      cases visits with
      | header found named later =>
        have nul : (s.load v.sector).hdr (0 + last) = 0 := by
          rw [Nat.zero_add]
          exact (s.load v.sector).nul.2
        obtain ⟨line,copied⟩ := listNameEnds out s.memory nul long
        rw [listStep found named,copied]
        exact ih later _ _ _ (Nat.lt_of_succ_lt_succ enough)

/- The names end inside their headers, or the buffer is full before. -/
def NamesFit (max : Word) (out : Nat) (visited : List Visited) : Prop :=
  ∀ front v rest, visited = front ++ v :: rest → v.Ended ∨ max.toNat ≤ out + (listing front).length + 513

theorem namesFitCons {out out' : Nat} (v : Visited) (rest : List Visited) (count : out' = min (out + (v.name.length + 1)) (max.toNat - 1)) :
    NamesFit max out (v :: rest) ↔ (v.Ended ∨ max.toNat ≤ out + 513) ∧ NamesFit max out' rest := by
  have later (front : List Visited) :
      max.toNat ≤ out + (listing (v :: front)).length + 513 ↔ max.toNat ≤ out' + (listing front).length + 513 := by
    rw [listingConsLength]
    omega
  rw [NamesFit,Trace.splitsCons]
  simp only [later]
  rfl

/- What the walk leaves in the buffer. -/
theorem walkListed {r : Word} {k' : Nat} (visits : Visits content lba visited)
    (ended : s.fsList (.fixed content) buf max fuel turns k lba out = some (r,k',s')) (low : out.toNat < max.toNat)
    (room : out.toNat + (listing visited).length + 1 < 2 ^ 64) (fits : NamesFit max out.toNat visited) :
    ∃ memory, Listed s.memory memory buf max out.toNat r.toNat (listing visited) ∧ s'.memory = memory.set (byteAt buf r.toNat) 0 := by
  induction turns generalizing k lba out s visited with
  | zero => cases ended
  | succ turns ih =>
    cases visited with
    | nil =>
      obtain ⟨_,_,stopped,_⟩ := listStops visits s buf max fuel turns k out
      rw [stopped] at ended
      cases ended
      rw [byteAtWord]
      exact ⟨_,.nil low,rfl⟩
    | cons v rest =>
      cases visits with
      | header found named later =>
        rw [listStep found named] at ended
        rcases copied : listNameWithin (s.load v.sector).hdr buf max fuel 0 out s.memory with _ | ⟨memory,place⟩
        · rw [copied] at ended
          cases ended
        · rw [copied] at ended
          have length := listingConsLength v rest
          have first : v.Ended ∨ max.toNat ≤ out.toNat + 513 := fits [] v rest rfl
          have line := lineListed (headerLoaded s v) first low (by omega) copied
          have count := line.count
          rw [List.length_append,List.length_singleton] at count
          obtain ⟨memory',rest',same⟩ := ih later ended (by omega) (by omega) ((namesFitCons v rest count).mp fits).2
          refine ⟨memory',?_,same⟩
          rw [listingCons]
          exact line.append low rest'

/- The names are read inside their headers exactly then. -/
theorem walkReads {r : Word} {k' : Nat} (visits : Visits content lba visited)
    (ended : s.fsList (.fixed content) buf max fuel turns k lba out = some (r,k',s')) (low : out.toNat < max.toNat)
    (room : out.toNat + (listing visited).length + 1 < 2 ^ 64) :
    (∀ i ∈ s.listReads (.fixed content) buf max fuel turns k lba out, i < 512) ↔ NamesFit max out.toNat visited := by
  induction turns generalizing k lba out s visited with
  | zero => cases ended
  | succ turns ih =>
    cases visited with
    | nil =>
      obtain ⟨_,_,_,none⟩ := listStops visits s buf max fuel turns k out
      rw [none]
      refine iff_of_true (List.forall_mem_nil _) fun front v rest split => ?_
      cases front <;> cases split
    | cons v rest =>
      cases visits with
      | header found named later =>
        rw [listStep found named] at ended
        rcases copied : listNameWithin (s.load v.sector).hdr buf max fuel 0 out s.memory with _ | ⟨memory,place⟩
        · rw [copied] at ended
          cases ended
        rw [copied] at ended
        have length := listingConsLength v rest
        have loaded := headerLoaded s v
        rw [readsStep found named,copied,List.forall_mem_append]
        by_cases first : v.Ended ∨ max.toNat ≤ out.toNat + 513
        · have line := lineListed loaded first low (by omega) copied
          have count := line.count
          rw [List.length_append,List.length_singleton] at count
          have inside : ∀ i ∈ nameReads (s.load v.sector).hdr max fuel 0 out, i < 512 := by
            intro i member
            have within := readsWithin loaded.shown (nameStops loaded first) (by omega) i member
            rcases first with ended | full
            · have short := (v.nameNul ended).1
              omega
            · omega
          rw [namesFitCons v rest count]
          exact and_congr (iff_of_true inside first) (ih later ended (by omega) (by omega))
        · obtain ⟨endless,free⟩ := not_or.mp first
          have some : ∀ j, 0 ≤ j → j < 0 + 512 → (s.load v.sector).hdr j ≠ 0 := by
            intro j _ low nul
            rw [loaded.cells j (by omega)] at nul
            exact endless (List.mem_map.mpr ⟨j,List.mem_range'_1.mpr ⟨Nat.zero_le j,low⟩,nul⟩)
          have beyond := readsBeyond copied some (by omega)
          exact iff_of_false (fun inside => absurd (inside.1 _ beyond) (by decide)) fun fits => first (fits [] v rest rfl)

theorem listingShort {drive : Drive} (visits : Visits drive.content lba visited) : (listing visited).length ≤ 2 ^ 28 * 513 := by
  have few : visited.length ≤ 2 ^ 28 := by
    have inside : (visited.map fun v => v.lba.toNat % 2 ^ 28) ⊆ List.range (2 ^ 28) := by
      intro i member
      obtain ⟨v,_,rfl⟩ := List.mem_map.mp member
      exact List.mem_range.mpr (Nat.mod_lt _ (by decide))
    have short := (List.subperm_of_subset (visitsApart visits) inside).length_le
    rwa [List.length_map,List.length_range] at short
  have lines : (listing visited).length ≤ visited.length * 513 := by
    clear visits few
    induction visited with
    | nil => exact Nat.zero_le _
    | cons v rest ih =>
      have short := v.nameShort
      rw [listingConsLength,List.length_cons,Nat.add_mul]
      omega
  exact lines.trans (Nat.mul_le_mul_right 513 few)

end walks

/- `buf[0]` to `buf[n - 1]`. -/
def bytesAt (memory : Buffer Byte) (buf : Word) (n : Nat) : List Byte := (List.range n).map fun i => memory (byteAt buf i)

/- What `fs_list` is for: `r` is what it returns, and `reads` where it read in the names. -/
structure Lists {last : Nat} (drive : Drive) (s s' : Walker last) (buf max r : Word) (reads : List Nat) : Prop where
  names : ∀ i ∈ reads, i < 512
  outside : ∀ a, (∀ j < max.toNat, a ≠ byteAt buf j) → s'.memory a = s.memory a
  count : r < max
  nul : s'.memory (byteAt buf r.toNat) = 0
  exact : ∀ visited, Visits drive.content 0 visited → (listing visited).length < max.toNat →
    r.toNat = (listing visited).length ∧ bytesAt s'.memory buf r.toNat = listing visited

/- The listing ends, in its buffer. -/
def Walker.ListsWell {last : Nat} (s : Walker last) (drive : Drive) (buf max : Word) : Prop :=
  ∃ fuel turns r k s', s.fsList drive.device buf max fuel turns 0 0 0 = some (r,k,s') ∧
    Lists drive s s' buf max r (s.listReads drive.device buf max fuel turns 0 0 0)

section
variable {buf : Word}

theorem bytesSame {memory : Buffer Byte} {text : List Byte} (cells : ∀ j < text.length, some (memory (byteAt buf j)) = text[j]?) :
    bytesAt memory buf text.length = text := by
  apply List.ext_getElem?
  intro j
  rcases Nat.lt_or_ge j text.length with low | high
  · rw [← cells j low,bytesAt,List.getElem?_map,List.getElem?_range low]
    rfl
  · rw [List.getElem?_eq_none high,List.getElem?_eq_none (by rwa [bytesAt,List.length_map,List.length_range])]

/- `fs_list` stays in its buffer and lists every name, exactly for a buffer that is not empty and an archive that ends,
whose names end in their headers unless the buffer is too short for the first that does not. -/
theorem listsWellIff (s : Walker last) (drive : Drive) (buf max : Word) : s.ListsWell drive buf max ↔
    0 < max ∧ ∃ visited, Visits drive.content 0 visited ∧
      ∀ front v rest, visited = front ++ v :: rest → v.Ended ∨ max.toNat ≤ (listing front).length + 513 := by
  have start : (0 : Word).toNat = 0 := rfl
  constructor
  · rintro ⟨fuel,turns,r,k,s',ended,lists⟩
    have low : 0 < max.toNat := Nat.zero_lt_of_lt lists.count
    obtain ⟨visited,visits⟩ := listVisits ended
    have short := listingShort visits
    have fits := (walkReads visits ended low (by omega)).mp lists.names
    refine ⟨low,visited,visits,fun front v rest split => ?_⟩
    have one := fits front v rest split
    rwa [start,Nat.zero_add] at one
  · rintro ⟨low,visited,visits,fits⟩
    have short := listingShort visits
    have fits' : NamesFit max (0 : Word).toNat visited := by
      intro front v rest split
      rw [start,Nat.zero_add]
      exact fits front v rest split
    obtain ⟨r,k,s',ended⟩ := listGoes visits s buf max 0 0 (Nat.lt_succ_self last) (Nat.lt_succ_self _)
    obtain ⟨memory,listed,same⟩ := walkListed visits ended low (by omega) fits'
    have count := listed.count
    rw [start,Nat.zero_add] at count
    have inside : r.toNat < max.toNat := by
      have positive : 0 < max.toNat := low
      omega
    refine ⟨_,_,r,k,s',ended,(walkReads visits ended low (by omega)).mpr fits',fun a other => ?_,inside,?_,fun visited' visits' whole => ?_⟩
    · rw [same,setOther (other _ inside)]
      exact listed.outside a fun j _ below => other j (by omega)
    · rw [same,setSame]
    · cases visitsUnique visits visits' rfl
      have length : r.toNat = (listing visited).length := by omega
      refine ⟨length,?_⟩
      rw [length]
      refine bytesSame fun j below => ?_
      have word := max.isLt
      have cell := listed.whole (by rw [start]; omega) j below
      rw [start,Nat.zero_add] at cell
      rw [← cell,same]
      exact congrArg some (setOther fun equal => absurd (byteAtInj (by omega) (by omega) equal) (by omega))

/- One header of 512 letters, and behind it a sector that cannot be read. -/
def lettersDrive : Drive := ⟨fun i => if i = 0 then some fun _ => ascii 'x' else none⟩

/- The server as it starts, over memory of ones. -/
def onesWalker : Walker 512 := ⟨fun _ => 0,zeroNul,fun _ => ⟨0,0,false⟩,fun _ => 1⟩

theorem lettersVisits : Visits lettersDrive.content 0 [⟨0,fun _ => ascii 'x'⟩] := by
  refine .header (v := ⟨0,fun _ => ascii 'x'⟩) rfl (by decide) (.failed ?_)
  decide +kernel

/- A buffer of no bytes gets a NUL, and in a longer one the name is read on behind its header. -/
theorem listOverruns : ¬ onesWalker.ListsWell ⟨fun _ => none⟩ 1000 0 ∧ ¬ onesWalker.ListsWell lettersDrive 1000 1000 := by
  constructor
  · rintro ⟨_,_,_,_,_,_,lists⟩
    exact BitVec.not_lt_zero lists.count
  · rintro ⟨_,_,_,_,_,ended,lists⟩
    have fits := (walkReads lettersVisits ended (by decide) (by decide +kernel)).mp lists.names
    exact absurd (fits [] _ [] rfl) (by decide +kernel)

end

section opening
variable {visited : List Visited} {last last' fuel turns : Nat}

theorem listingSplit (plain : ∀ v ∈ visited, 10 ∉ v.name) : (listing visited).splitOn 10 = visited.map Visited.name ++ [[]] := by
  induction visited with
  | nil => rfl
  | cons v rest ih =>
    obtain ⟨first,others⟩ := List.forall_mem_cons.mp plain
    rw [listingCons,List.append_assoc,List.singleton_append,List.splitOn_append_cons_self_of_not_mem first,ih others]
    rfl

/- Listing and opening agree: in a list longer than its names need, a path can be opened exactly if it is one of the
lines, and the handle is for the first header of that name. -/
theorem listingOpens (content : DiskContent) (visited : List Visited) (visits : Visits content 0 visited)
    (ended : ∀ v ∈ visited, v.Ended) (plain : ∀ v ∈ visited, 10 ∉ v.name) (s : Walker last) (s' : Walker last') (buf max : Word)
    (whole : (listing visited).length < max.toNat) (p : List Byte) (path : Nat) (given : Named s'.memory path p)
    (some' : p ≠ []) (clean : 0 ∉ p) (free : ∃ i < 8, (s'.ftab i).used = false)
    (long : last < fuel) (long' : last' < fuel) (enough : visited.length < turns) :
    ∃ n j l r k o, s.fsList (.fixed content) buf max fuel turns 0 0 0 = some (n,j,l) ∧
      s'.fsOpen (.fixed content) path fuel turns 0 0 = some (r,k,o) ∧
      (0 ≤ r ↔ p ∈ (bytesAt l.memory buf n.toNat).splitOn 10) ∧
      (0 ≤ r → ∃ front v rest, visited = front ++ v :: rest ∧ (∀ u ∈ front, u.name ≠ p) ∧ v.name = p ∧
        (s'.ftab r.toNat).used = false ∧ o.ftab = Function.update s'.ftab r.toNat ⟨(v.lba + 1).toNat,v.size.toNat,true⟩) := by
  have start : (0 : Word).toNat = 0 := rfl
  have word := max.isLt
  have low : (0 : Word).toNat < max.toNat := by omega
  obtain ⟨n,j,l,listed⟩ := listGoes visits s buf max 0 0 long enough
  obtain ⟨memory,wrote,same⟩ := walkListed visits listed low (by omega) fun front v rest split =>
    .inl (ended v (split ▸ List.mem_append_right front List.mem_cons_self))
  have count : n.toNat = (listing visited).length := by
    have count := wrote.count
    omega
  have text : bytesAt l.memory buf n.toNat = listing visited := by
    rw [count]
    refine bytesSame fun j below => ?_
    have cell := wrote.whole (by omega) j below
    rw [start,Nat.zero_add] at cell
    rw [← cell,same]
    exact congrArg some (setOther fun equal => absurd (byteAtInj (by omega) (by omega) equal) (by omega))
  have named : p ∈ (bytesAt l.memory buf n.toNat).splitOn 10 ↔ ∃ v ∈ visited, v.name = p := by
    rw [text,listingSplit plain,List.mem_append,List.mem_singleton,or_iff_left some',List.mem_map]
  obtain ⟨r,k,o,opened,outcome⟩ := walkOpens visits ended long' enough given clean 0
  refine ⟨n,j,l,r,k,o,listed,opened,?_⟩
  rw [named]
  rcases first : visited.find? fun v => v.name = p with _ | v
  · rw [first] at outcome
    obtain ⟨failed,_⟩ := Prod.mk.inj outcome
    have none : ¬ ∃ v ∈ visited, v.name = p := by
      rintro ⟨v,member,equal⟩
      exact List.find?_eq_none.mp first v member (decide_eq_true equal)
    exact ⟨iff_of_false (by omega) none,fun opened => by omega⟩
  · rw [first] at outcome
    obtain ⟨handle,unused,takes⟩ := takesFree free v
    obtain ⟨taken,entry⟩ := Prod.mk.inj (outcome.trans takes)
    obtain ⟨equal,front,rest,split,others⟩ := List.find?_eq_some_iff_append.mp first
    refine ⟨iff_of_true (by omega) ⟨v,List.mem_of_find?_eq_some first,of_decide_eq_true equal⟩,fun _ => ?_⟩
    refine ⟨front,v,rest,split,fun u member same => ?_,of_decide_eq_true equal,?_⟩
    · have other := others u member
      rw [decide_eq_true same] at other
      cases other
    · rw [taken,Int.toNat_natCast]
      exact ⟨unused,entry⟩

/- A header for a file named `a`, and behind it a sector that cannot be read. -/
def letterSector : Buffer Byte := fun j => if j = 0 then ascii 'a' else 0

def letterHeader : Visited := ⟨0,letterSector⟩

def letterContent : DiskContent := fun lba => if lba = 0 then some letterSector else none

def letterWalker : Walker 512 := ⟨fun _ => 0,zeroNul,fun _ => ⟨0,0,false⟩,letterSector⟩

theorem letterVisits : Visits letterContent 0 [letterHeader] := by
  refine .header (v := letterHeader) rfl (by decide) (.failed ?_)
  decide +kernel

theorem listingOpensLetter : ∃ n j l r k o, onesWalker.fsList (.fixed letterContent) 1000 64 513 2 0 0 0 = some (n,j,l) ∧
    letterWalker.fsOpen (.fixed letterContent) 0 513 2 0 0 = some (r,k,o) ∧
    (0 ≤ r ↔ [ascii 'a'] ∈ (bytesAt l.memory 1000 n.toNat).splitOn 10) ∧
    (0 ≤ r → ∃ front v rest, [letterHeader] = front ++ v :: rest ∧ (∀ u ∈ front, u.name ≠ [ascii 'a']) ∧ v.name = [ascii 'a'] ∧
      (letterWalker.ftab r.toNat).used = false ∧ o.ftab = Function.update letterWalker.ftab r.toNat ⟨(v.lba + 1).toNat,v.size.toNat,true⟩) :=
  listingOpens letterContent [letterHeader] letterVisits (by decide +kernel) (by decide +kernel) onesWalker letterWalker 1000 64 (by decide +kernel)
    [ascii 'a'] 0 (by decide) (by decide) (by decide) ⟨0,by decide,rfl⟩ (by decide) (by decide) (by decide)

end opening

end Mukern
