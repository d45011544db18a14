import Mukern.TableGrowth

/-! The physical addresses that the kernel uses as pointers: the bytes of the frame bitmap,
and the tables on the way of `vmm_map` and `vmm_unmap`. `boot_long_mode` maps one GiB. -/
namespace Mukern
open RadixTree Layout

/- The end of the identity map, and the same as a frame number. -/
def identityEnd : Nat := 2 ^ 30

def identityFrames : Nat := 2 ^ 18

namespace Pmm

/- The bytes that `pmm_init` fills. -/
def bitmapBytes (info : BootInfo) : Nat := (((archMemDetect info maxRegions).2 >>> 12).toNat + 7) / 8

/- `&bitmap[f >> 3]`, which `bm_set`, `bm_clear` and `bm_test` use. -/
def bitAddress (image : KernelImage) (f : Nat) : Nat := (bitmapAddr image).toNat + f / 8

/- The frames that the search of `pmm_alloc_frame` looks at, the last of them the one it takes. -/
def scanned (p : Pmm) : (fuel i : Nat) → List Nat
  | 0, _ => []
  | fuel + 1, i =>
    let f := (p.allocHint + i) % p.totalFrames
    f :: if p.bmTest f then p.scanned fuel (i + 1) else []

/- The next `n` frames that are handed out lie below the end of the identity map. -/
def HandsOutLow : Nat → Pmm → Prop
  | 0, _ => True
  | n + 1, p => ∀ f, p.NextFree f → f < identityFrames ∧
      HandsOutLow n { p.bmSet f with freeFrames := p.freeFrames - 1, allocHint := f + 1 }

end Pmm

namespace Memory

/- The walk of `vmm_map` (`create`) and `vmm_unmap` from a table of level `level` down: the
memory afterwards, and the tables through which it goes. A table that `next_table`
returns is used by the next call, or by the final write to the leaf. -/
def walkDown (m : Memory) (va : Word) (create : Bool) : (level : Nat) → (table : Word) → Memory × List Word
  | 0, table | 1, table => (m,[table])
  | level + 2, table =>
    match m.nextTable table (index va (level + 2)) create with
    | (m, none) => (m,[table])
    | (m, some next) =>
      let (m, below) := m.walkDown va create (level + 1) next
      (m,table :: below)

def pointers (m : Memory) (va : Word) (create : Bool) : List Word := (m.walkDown va create 4 (m.cr3 &&& addrMask)).2

end Memory

/- The whole frame lies in the identity map. -/
def InIdentity (table : Word) : Prop := table.toNat + 4096 ≤ identityEnd

def TablesLow (m : Memory) : Prop := ∀ p n, m.layout.table m.words p = some n → n < identityFrames

/- The frames for the tables that are missing on the way of `va` are low. -/
def MapsLow (m : Memory) (va : Word) : Prop := ∀ k n, Frontier m va k n → m.pmm.HandsOutLow (3 - k)

section
variable {m m' : Memory} {va : Word} {p : List (Fin 512)} {n k t : Nat} {i : Fin 512}

theorem identityTable (low : n < 2 ^ 40) : InIdentity (frameAddr n) ↔ n < identityFrames := by
  rw [InIdentity,frameAddrNat low,identityEnd,identityFrames]
  omega

theorem TablesLow.pointer (tables : TablesLow m) (here : m.layout.table m.words p = some n) : InIdentity (frameAddr n) :=
  (identityTable (tableLow here)).mpr (tables p n here)

/- The frame that `next_table` hangs is the next one. -/
theorem hungNext (tree : PageTree m) (low : n < 2 ^ 40) (absent : m.words (m.layout.cell n i) &&& ptePresent = 0)
    (made : m.nextTable (frameAddr n) i.val true = (m',some (frameAddr t))) (inside : t < 2 ^ 40) : m.pmm.NextFree t := by
  unfold Memory.nextTable at made
  rw [entryCell low,if_pos absent,if_pos rfl] at made
  by_cases empty : m.pmm.freeSet = ∅
  · have none : m.pmm.allocFrame = (m.pmm,0) := by
      have outcome := Pmm.allocOutcome m.pmm
      generalize m.pmm.allocFrame = result at outcome ⊢
      cases outcome with
      | full _ => rfl
      | taken f member =>
        rw [empty] at member
        cases member
    rw [none] at made
    cases made
  · obtain ⟨f,next,taken⟩ := Pmm.allocNext empty
    have inside' : f < 2 ^ 40 := Nat.lt_of_lt_of_le (Pmm.memFree.mp next.1).1 tree.frames
    rw [taken] at made
    dsimp only at made
    split at made
    · cases made
    · have same := congrArg BitVec.toNat (Option.some.inj (Prod.mk.inj made).2)
      rw [Pmm.frameWord inside',frameAddrNat inside] at same
      have equal : f = t := by omega
      exact equal ▸ next

theorem walkHead {create : Bool} {level : Nat} {table : Word} : table ∈ (m.walkDown va create level table).2 := by
  match level with
  | 0 | 1 => exact List.mem_singleton_self table
  | level + 2 =>
    rw [Memory.walkDown]
    split
    · exact List.mem_singleton_self table
    · exact List.mem_cons_self

/- The entry at which the walk stops fixes how many tables are missing. -/
theorem Frontier.mapsLow (frontier : Frontier m va k n) : MapsLow m va ↔ m.pmm.HandsOutLow (3 - k) := by
  constructor
  · exact fun maps => maps k n frontier
  · intro low j n' frontier'
    have above := frontier'.last frontier.level frontier.here
    have below := frontier.last frontier'.level frontier'.here
    rwa [show 3 - j = 3 - k by omega]

theorem Pmm.NextFree.handsOutLow {q : Pmm} (next : q.NextFree t) (count : Nat) : q.HandsOutLow (count + 1) ↔ t < identityFrames ∧
    Pmm.HandsOutLow count { q.bmSet t with freeFrames := q.freeFrames - 1, allocHint := t + 1 } :=
  ⟨fun low => low t next,fun low _ other => other.unique next ▸ low⟩

/- The tables on the way, followed one call of `next_table` after the other; `k` of them
lie above. -/
theorem walkLow {level : Nat} (depth : level + k = 4) (start : 1 ≤ level) (tree : PageTree m) (tables : TablesLow m)
    (here : m.layout.table m.words (pathOf va k) = some n) :
    ((∀ t ∈ (m.walkDown va true level (frameAddr n)).2, InIdentity t) ↔ MapsLow m va) ∧
      (MapsLow m va → TablesLow (m.walkDown va true level (frameAddr n)).1) := by
  induction level generalizing m k n with
  | zero => omega
  | succ level ih =>
    have own := tables.pointer here
    cases level with
    | zero =>
      obtain rfl : k = 3 := by omega
      have nothing : MapsLow m va := by
        intro j n' frontier
        have deep := frontier.last (Nat.le_refl 3) here
        have short := frontier.level
        rw [show 3 - j = 0 by omega]
        trivial
      have single : ∀ t ∈ (m.walkDown va true 1 (frameAddr n)).2, InIdentity t := fun t member => List.mem_singleton.mp member ▸ own
      exact ⟨iff_of_true single nothing,fun _ => tables⟩
    | succ level =>
      have short : (pathOf va k).length ≤ 2 := by
        rw [pathLength]
        omega
      have index : 4 - k = level + 2 := by omega
      have outcome := nextOutcome m (pathOf va k) n (slotOf va (4 - k)) tree here short
      have hangs := nextHangs here short outcome
      have below := nextBelow (i := slotOf va (4 - k)) here short
      have made : ∀ m' t, m.nextTable (frameAddr n) (slotOf va (4 - k)).val true = (m',some (frameAddr t)) →
          m.words (m.layout.cell n (slotOf va (4 - k))) &&& ptePresent = 0 → t < 2 ^ 40 → m.pmm.NextFree t :=
        fun m' t made absent inside => hungNext tree (tableLow here) absent made inside
      rw [Memory.walkDown,indexSlot,← index]
      generalize m.nextTable (frameAddr n) (slotOf va (4 - k)).val true = result at outcome hangs made
      cases outcome with
      | there t there =>
        have rest := ih (k := k + 1) (by omega) (by omega) tree tables there
        exact ⟨by simpa [own] using rest.1,rest.2⟩
      | large present single =>
        have nothing : MapsLow m va := by
          intro j n' frontier
          have deep := frontier.last (by omega) here
          rw [if_pos (.inr single)] at below
          rcases Nat.lt_or_eq_of_le deep with less | rfl
          · obtain ⟨_,there⟩ := tableAbove frontier.here (by omega : k + 1 ≤ j)
            cases below.symm.trans there
          · cases here.symm.trans frontier.here
            exact absurd frontier.absent present
        exact ⟨iff_of_true (by simpa using own) nothing,fun _ => tables⟩
      | full absent empty =>
        have nothing : MapsLow m va := by
          intro j n' frontier
          cases count : 3 - j with
          | zero => trivial
          | succ c =>
            intro f next
            have free := next.1
            rw [empty] at free
            cases free
        exact ⟨iff_of_true (by simpa using own) nothing,fun _ => tables⟩
      | hung t absent free =>
        have inside : t < 2 ^ 40 := Nat.lt_of_lt_of_le (Pmm.memFree.mp free).1 tree.frames
        have next : m.pmm.NextFree t := made _ t rfl absent inside
        have frontier : Frontier m va k n := ⟨by omega,here,absent⟩
        have hung {q} := hangTable (q := q) tree here short absent free
        have there : (m.hang n (slotOf va (4 - k)) t).layout.table (m.hang n (slotOf va (4 - k)) t).words (pathOf va (k + 1)) = some t :=
          hung.trans (if_pos rfl)
        have frontier' : Frontier (m.hang n (slotOf va (4 - k)) t) va (k + 1) t := by
          have zero : (m.hang n (slotOf va (4 - k)) t).words ((m.hang n (slotOf va (4 - k)) t).layout.cell t (slotOf va (4 - (k + 1)))) = 0 :=
            hungZero tree here free _
          exact ⟨by omega,there,by rw [zero]; decide⟩
        have tables' (low : t < identityFrames) : TablesLow (m.hang n (slotOf va (4 - k)) t) := by
          intro q u found
          rw [hung] at found
          split at found
          · cases found
            exact low
          · exact tables q u found
        have step : MapsLow m va ↔ t < identityFrames ∧ MapsLow (m.hang n (slotOf va (4 - k)) t) va := by
          rw [frontier.mapsLow,frontier'.mapsLow,show 3 - k = 3 - (k + 1) + 1 by omega]
          exact next.handsOutLow _
        have rest (low : t < identityFrames) := ih (k := k + 1) (by omega) (by omega) (hangs.grown tree).tree (tables' low) there
        refine ⟨?_,fun maps => (rest (step.mp maps).1).2 (step.mp maps).2⟩
        constructor
        · intro all
          have low : t < identityFrames := (identityTable inside).mp (all _ (List.mem_cons_of_mem _ walkHead))
          exact step.mpr ⟨low,(rest low).1.mp fun u member => all u (List.mem_cons_of_mem _ member)⟩
        · intro maps u member
          rcases List.mem_cons.mp member with rfl | below
          · exact own
          · exact (rest (step.mp maps).1).1.mpr (step.mp maps).2 u below

/- Without `create` the walk uses tables that are there. -/
theorem unmapLow {level : Nat} (depth : level + k = 4) (start : 1 ≤ level) (tree : PageTree m) (tables : TablesLow m)
    (here : m.layout.table m.words (pathOf va k) = some n) : ∀ t ∈ (m.walkDown va false level (frameAddr n)).2, InIdentity t := by
  induction level generalizing k n with
  | zero => omega
  | succ level ih =>
    have own := tables.pointer here
    cases level with
    | zero => exact fun t member => List.mem_singleton.mp member ▸ own
    | succ level =>
      have short : (pathOf va k).length ≤ 2 := by
        rw [pathLength]
        omega
      have index : 4 - k = level + 2 := by omega
      have next := nextTableSpec m (pathOf va k) n (slotOf va (4 - k)) false tree here short
      rw [Memory.walkDown,indexSlot,← index]
      generalize m.nextTable (frameAddr n) (slotOf va (4 - k)).val false = result at next
      cases next with
      | there t there =>
        have rest := ih (k := k + 1) (by omega) (by omega) there
        simpa [own] using rest
      | stopped missing => simpa using own
      | created t creates grown there => cases creates

theorem walkDescend (m : Memory) (va : Word) (create : Bool) :
    (m.walkDown va create 4 (m.cr3 &&& addrMask)).1 = (m.descend va create).1 := by
  simp only [Memory.walkDown,Memory.descend]
  rcases m.nextTable (m.cr3 &&& addrMask) (Memory.index va 4) create with ⟨m₁,none | pdpt⟩
  · rfl
  dsimp only
  rcases m₁.nextTable pdpt (Memory.index va 3) create with ⟨m₂,none | pd⟩
  · rfl
  dsimp only
  rcases m₂.nextTable pd (Memory.index va 2) create with ⟨m₃,none | pt⟩ <;> rfl

theorem mapPointers (tree : PageTree m) (tables : TablesLow m) (va : Word) :
    ((∀ t ∈ m.pointers va true, InIdentity t) ↔ MapsLow m va) ∧ (MapsLow m va → TablesLow (m.descend va true).1) := by
  have root : m.layout.table m.words (pathOf va 0) = some (entryFrame m.cr3) := rfl
  have low := walkLow (rfl : 4 + 0 = 4) (by decide) tree tables root
  rwa [frameOfEntry,walkDescend] at low

theorem mapTablesLow {pa flags : Word} (tree : PageTree m) (tables : TablesLow m) (low : MapsLow m va) :
    TablesLow (m.vmmMap va pa flags).1 := by
  have after := (mapPointers tree tables va).2 low
  have spec := descendSpec va true tree
  rw [mapDescend]
  generalize m.descend va true = result at after spec ⊢
  rcases result with ⟨m₁,none | pt⟩
  · exact after
  · obtain ⟨grown,_,missing | ⟨n,value,here⟩⟩ := spec
    · cases missing
    · cases value
      exact fun p t there => after p t ((leafTable here grown.tree).symm.trans there)

end

/- Runs as in `VmRuns`, in which `vmm_map` finds low frames for the tables it needs. -/
inductive LowRuns (start : Memory) : Memory → Prop where
  | start : LowRuns start start
  | map {m} (va pa flags : Word) (earlier : LowRuns start m) (low : MapsLow m va) : LowRuns start (m.vmmMap va pa flags).1
  | unmap {m} (va : Word) (earlier : LowRuns start m) : LowRuns start (m.vmmUnmap va)
  | alloc {m} (earlier : LowRuns start m) : LowRuns start { m with pmm := m.pmm.allocFrame.1 }
  | data {m} (words : Words) (earlier : LowRuns start m)
      (apart : ∀ p n i, m.layout.table m.words p = some n → words (m.layout.cell n i) = m.words (m.layout.cell n i)) :
      LowRuns start { m with words := words }

/- What the kernel uses as pointers in this state: the bytes of the bitmap that the next
`pmm_alloc_frame` reads and writes, and the tables of any `vmm_unmap` and `vmm_map`. -/
structure PointersLow (image : KernelImage) (m : Memory) : Prop where
  bitmap : ∀ f ∈ m.pmm.scanned m.pmm.totalFrames 0, Pmm.bitAddress image f < identityEnd
  unmap : ∀ va, ∀ t ∈ m.pointers va false, InIdentity t
  map : ∀ va, (∀ t ∈ m.pointers va true, InIdentity t) ↔ MapsLow m va

section
variable {image : KernelImage} {tables : LoaderTables image} {info : BootInfo} {words : Words} {before : Nat → BitVec 8}
  {m start : Memory}

theorem LowRuns.runs (runs : LowRuns start m) : VmRuns start m := by
  induction runs with
  | start => exact .start
  | map va pa flags earlier low ih => exact .map va pa flags ih
  | unmap va earlier ih => exact .unmap va ih
  | alloc earlier ih => exact .alloc ih
  | data words earlier apart ih => exact .data words ih apart

theorem runsTotal (bounded : Pmm.Bounded info) (runs : VmRuns (bootMemory tables info words before) m) :
    m.pmm.totalFrames = ((archMemDetect info maxRegions).2 >>> 12).toNat := by
  induction runs with
  | start => exact Pmm.initTotal
  | map va pa flags earlier ih =>
    rcases mapOutcome (runsTree bounded earlier) va pa flags with ⟨grown,_⟩ | ⟨m₁,n,grown,here,result⟩
    · exact grown.total.trans ih
    · rw [result]
      exact grown.total.trans ih
  | unmap va earlier ih =>
    rcases unmapOutcome (runsTree bounded earlier) va with same | ⟨n,here,result⟩
    · rwa [same]
    · rwa [result]
  | alloc earlier ih => exact allocFrames.trans ih
  | data words earlier apart ih => exact ih

theorem scannedInside {p : Pmm} {fuel i f : Nat} (frames : 0 < p.totalFrames) (member : f ∈ p.scanned fuel i) : f < p.totalFrames := by
  induction fuel generalizing i with
  | zero => cases member
  | succ fuel ih =>
    rw [Pmm.scanned] at member
    rcases List.mem_cons.mp member with rfl | later
    · exact Nat.mod_lt _ frames
    · split at later
      · exact ih later
      · cases later

theorem runsTablesLow (bounded : Pmm.Bounded info) (fits : (Pmm.bitmapAddr image).toNat + Pmm.bitmapBytes info ≤ identityEnd)
    (runs : LowRuns (bootMemory tables info words before) m) : TablesLow m := by
  induction runs with
  | start =>
    intro p n there
    obtain ⟨short,_,rfl⟩ := bootTables there
    have inside := tables.inside
    have image' := Pmm.imageBelow image
    rw [identityEnd] at fits
    rw [identityFrames]
    omega
  | map va pa flags earlier low ih => exact mapTablesLow (runsTree bounded earlier.runs) ih low
  | unmap va earlier ih =>
    have tree := runsTree bounded earlier.runs
    rcases unmapOutcome tree va with same | ⟨n,here,result⟩
    · rwa [same]
    · rw [result]
      exact fun p t there => ih p t ((leafTable here tree).symm.trans there)
  | alloc earlier ih => exact ih
  | @data m words earlier apart ih =>
    exact fun p n there => ih p n ((Layout.tableApart apart).symm.trans there)

/- `pmm_init` stays in the identity map if the bitmap does; from then on, as long as the
frames for new page tables are low, so does every pointer, and `vmm_map` leaves the map
exactly when it needs a frame that is not. -/
theorem directPointers (image : KernelImage) (info : BootInfo) (bounded : Pmm.Bounded info) :
    ((∀ j < Pmm.bitmapBytes info, (Pmm.bitmapAddr image).toNat + j < identityEnd) ↔
      Pmm.bitmapBytes info = 0 ∨ (Pmm.bitmapAddr image).toNat + Pmm.bitmapBytes info ≤ identityEnd) ∧
    ((Pmm.bitmapAddr image).toNat + Pmm.bitmapBytes info ≤ identityEnd → ∀ (tables : LoaderTables image) words before m,
      LowRuns (bootMemory tables info words before) m → PointersLow image m) := by
  refine ⟨⟨fun all => ?_,fun fits j low => by omega⟩,fun fits tables words before m runs => ?_⟩
  · rcases Nat.eq_zero_or_pos (Pmm.bitmapBytes info) with none | some
    · exact .inl none
    · have last := all (Pmm.bitmapBytes info - 1) (by omega)
      exact .inr (by omega)
  · have tree := runsTree bounded runs.runs
    have low := runsTablesLow bounded fits runs
    refine ⟨fun f member => ?_,fun va => ?_,fun va => (mapPointers tree low va).1⟩
    · have frames : 0 < m.pmm.totalFrames := by
        by_contra none
        rw [show m.pmm.totalFrames = 0 by omega] at member
        cases member
      have inside := scannedInside frames member
      rw [runsTotal bounded runs.runs] at inside
      rw [Pmm.bitmapBytes] at fits
      rw [Pmm.bitAddress]
      omega
    · have root : m.layout.table m.words (pathOf va 0) = some (entryFrame m.cr3) := rfl
      have walk := unmapLow (rfl : 4 + 0 = 4) (by decide) tree low root
      rwa [frameOfEntry] at walk

theorem directPointersSmall : PointersLow Pmm.smallImage smallMemory :=
  (directPointers Pmm.smallImage Pmm.smallInfo (by decide)).2 (by decide +kernel) smallTables (fun _ => 0) (fun _ => 0) smallMemory .start

/- Frames are taken until the next one in line is high. -/
theorem allocsHigh {g : Nat} (runs : LowRuns start m) (free : g ∈ m.pmm.freeSet) (high : identityFrames ≤ g) :
    ∃ m', LowRuns start m' ∧ m'.words = m.words ∧ m'.cr3 = m.cr3 ∧ ∃ f, m'.pmm.NextFree f ∧ identityFrames ≤ f := by
  generalize size : (m.pmm.freeSet.filter (· < identityFrames)).card = count
  induction count using Nat.strong_induction_on generalizing m with
  | _ count ih =>
    obtain ⟨f,next,taken⟩ := Pmm.allocNext (Finset.ne_empty_of_mem free)
    by_cases low : f < identityFrames
    · have set : m.pmm.allocFrame.1.freeSet = m.pmm.freeSet.erase f := by
        rw [taken]
        exact Pmm.freeSetSet
      have other : g ≠ f := by omega
      have fewer : (m.pmm.allocFrame.1.freeSet.filter (· < identityFrames)).card < count := by
        rw [set,Finset.filter_erase,← size]
        exact Finset.card_erase_lt_of_mem (Finset.mem_filter.mpr ⟨next.1,low⟩)
      have still : g ∈ m.pmm.allocFrame.1.freeSet := by
        rw [set]
        exact Finset.mem_erase.mpr ⟨other,free⟩
      obtain ⟨m',runs',words,root,found⟩ := ih _ fewer runs.alloc still rfl
      exact ⟨m',runs',words,root,found⟩
    · exact ⟨m,runs,rfl,rfl,f,next,by omega⟩

theorem Frontier.same {m' : Memory} {va : Word} {k n : Nat} (frontier : Frontier m va k n) (words : m'.words = m.words) (root : m'.cr3 = m.cr3) :
    Frontier m' va k n := by
  obtain ⟨words',pmm',cr3'⟩ := m'
  cases words
  cases root
  exact ⟨frontier.level,frontier.here,frontier.absent⟩

/- 2 GiB of RAM. -/
def wideInfo : BootInfo := .mmap [⟨0x100000,0x7FF00000,1⟩]

/- Once the low frames are used up, the next page table lies behind the identity map. -/
theorem directPointersHigh : ∃ m va, VmRuns (bootMemory smallTables wideInfo (fun _ => 0) fun _ => 0) m ∧ ∃ t ∈ m.pointers va true, ¬ InIdentity t := by
  have bounded : Pmm.Bounded wideInfo := by decide
  have free : identityFrames ∈ (bootMemory smallTables wideInfo (fun _ => 0) fun _ => 0).pmm.freeSet := by
    have region : (archMemDetect wideInfo maxRegions).1 = [⟨0x100000,0x7FF00000⟩] := by decide +kernel
    have top : ((archMemDetect wideInfo maxRegions).2 >>> 12).toNat = 0x80000 := by decide +kernel
    have reserved : (Pmm.reservedTop Pmm.smallImage (archMemDetect wideInfo maxRegions).2).toNat ≤ 0x200000 := by decide +kernel
    refine (Pmm.initFree bounded).mpr ⟨?_,⟨⟨0x100000,0x7FF00000⟩,by rw [region]; exact List.mem_singleton_self _,?_⟩,?_⟩
    · rw [Pmm.initTotal,top]
      decide
    · have base : (0x100000 : Word).toNat = 0x100000 := by decide
      have len : (0x7FF00000 : Word).toNat = 0x7FF00000 := by decide
      simp only [Pmm.Holds,base,len,identityFrames]
      omega
    · exact Nat.le_trans reserved (by decide)
  obtain ⟨m,runs,words,root,f,next,high⟩ := allocsHigh .start free (Nat.le_refl _)
  have atBoot : Frontier (bootMemory smallTables wideInfo (fun _ => 0) fun _ => 0) 0x400000000000 0 (smallTables.pml4 + 0) :=
    bootFrontier (by decide) rfl (by decide)
  have frontier := atBoot.same words root
  have low := runsTablesLow bounded (by decide +kernel) runs
  have pointers := (mapPointers (runsTree bounded runs.runs) low 0x400000000000).1
  refine ⟨m,0x400000000000,runs.runs,?_⟩
  by_contra none
  simp only [not_exists,not_and,not_not] at none
  have maps := frontier.mapsLow.mp (pointers.mp none)
  have small := (maps f next).1
  omega

end
end Mukern
