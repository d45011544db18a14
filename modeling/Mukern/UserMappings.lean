import Mukern.TableGrowth

/-! What Ring 3 may do with a page that `vmm_map` has mapped. The walk grants what all
its levels grant; `next_table` opens its links to Ring 3, the loader did not open its own. -/
namespace Mukern
open RadixTree Layout

/- Ring 3 may read and write at `va`: the walk says so, and all four levels do. -/
structure Usable (m : Memory) (va : Word) : Prop where
  walk : ∃ pa, m.walk va = some ⟨pa,true,true⟩
  levels : ∃ entries, m.trace va = some entries ∧ entries.length = 4 ∧ ∀ e ∈ entries, e &&& vmUserRw = vmUserRw

/- Only the loader's links, at index 0, are closed to Ring 3; the page directory below
them holds large pages only. -/
structure LinkFlags (m : Memory) : Prop where
  link : ∀ (i : Fin 512) (p : List (Fin 512)) n t, m.layout.table m.words p = some n → m.layout.table m.words (i :: p) = some t →
    m.words (m.layout.cell n i) &&& vmUserRw = if ∀ j ∈ i :: p, j = 0 then 3 else 7
  identity : ∃ n, m.layout.table m.words ([0,0] : List (Fin 512)) = some n ∧
    ∀ i : Fin 512, m.words (m.layout.cell n i) &&& ptePresent ≠ 0 ∧ m.words (m.layout.cell n i) &&& ptePs ≠ 0

section
variable {m m' : Memory} {va pa flags : Word} {p : List (Fin 512)} {n k t : Nat} {i : Fin 512}

/- The walk of a mapped address grants what every entry on its way grants. -/
theorem walkGrants {words : Words} {level : Nat} {table : Word} {w u : Bool} {entries : List Word}
    (trace : traceFrom words va level table = some entries) : ∃ pa, Memory.walkFrom words va level table w u =
      some ⟨pa,w && entries.all (· &&& pteWrite != 0),u && entries.all (· &&& pteUser != 0)⟩ := by
  induction level generalizing table w u entries with
  | zero =>
    cases trace
    simp only [List.all_nil,Bool.and_true]
    exact ⟨_,rfl⟩
  | succ level ih =>
    rw [traceFrom] at trace
    rw [Memory.walkFrom]
    dsimp only at trace ⊢
    split at trace
    · cases trace
    · rename_i present
      rw [if_neg present]
      split at trace
      · rename_i large
        rw [if_pos large]
        split at trace
        · cases trace
        · rename_i low
          cases trace
          rw [if_neg low]
          simp only [List.all_cons,List.all_nil,Bool.and_true]
          exact ⟨_,rfl⟩
      · rename_i small
        rw [if_neg small]
        obtain ⟨rest,below,rfl⟩ := Option.map_eq_some_iff.mp trace
        obtain ⟨pa,walks⟩ := ih (w := w && Memory.entry words table (Memory.index va (level + 1)) &&& pteWrite != 0)
          (u := u && Memory.entry words table (Memory.index va (level + 1)) &&& pteUser != 0) below
        refine ⟨pa,walks.trans ?_⟩
        simp only [List.all_cons,Bool.and_assoc]

theorem allFlags {e : Word} (all : e &&& vmUserRw = vmUserRw) : (e &&& pteWrite != 0) = true ∧ (e &&& pteUser != 0) = true := by
  have write : e &&& pteWrite = pteWrite := by
    have inner : e &&& vmUserRw &&& pteWrite = vmUserRw &&& pteWrite := congrArg (· &&& pteWrite) all
    rwa [BitVec.and_assoc,show vmUserRw &&& pteWrite = pteWrite from by decide] at inner
  have user : e &&& pteUser = pteUser := by
    have inner : e &&& vmUserRw &&& pteUser = vmUserRw &&& pteUser := congrArg (· &&& pteUser) all
    rwa [BitVec.and_assoc,show vmUserRw &&& pteUser = pteUser from by decide] at inner
  rw [write,user]
  exact ⟨by decide,by decide⟩

theorem usableLevels {entries : List Word} (trace : m.trace va = some entries) (size : entries.length = 4)
    (all : ∀ e ∈ entries, e &&& vmUserRw = vmUserRw) : Usable m va := by
  refine ⟨?_,entries,trace,size,all⟩
  have granted : ∃ pa, Memory.walkFrom m.words va 4 (m.cr3 &&& addrMask) true true =
      some ⟨pa,true && entries.all (· &&& pteWrite != 0),true && entries.all (· &&& pteUser != 0)⟩ := walkGrants trace
  obtain ⟨pa,walks⟩ := granted
  have write : entries.all (· &&& pteWrite != 0) = true := List.all_eq_true.mpr fun e member => (allFlags (all e member)).1
  have user : entries.all (· &&& pteUser != 0) = true := List.all_eq_true.mpr fun e member => (allFlags (all e member)).2
  rw [write,user] at walks
  exact ⟨pa,walks⟩

theorem pathTop (k : Nat) : slotOf va 4 ∈ pathOf va (k + 1) := by
  induction k with
  | zero => exact List.mem_singleton_self _
  | succ k ih => exact List.mem_cons_of_mem _ ih

/- A page with an open leaf is usable just when it does not lie below the loader's first link. -/
theorem LinkFlags.usable (links : LinkFlags m) (here : m.layout.table m.words (pathOf va 3) = some n)
    (leaf : m.words (m.layout.cell n (slotOf va 1)) &&& vmUserRw = vmUserRw) : Usable m va ↔ slotOf va 4 ≠ 0 := by
  obtain ⟨above,size,rest,entries⟩ := traceThrough here (Nat.le_refl 3)
  have present : m.words (m.layout.cell n (slotOf va 1)) &&& ptePresent ≠ 0 := by
    intro absent
    have inner : m.words (m.layout.cell n (slotOf va 1)) &&& vmUserRw &&& ptePresent = vmUserRw &&& ptePresent :=
      congrArg (· &&& ptePresent) leaf
    rw [BitVec.and_assoc,show vmUserRw &&& ptePresent = ptePresent from by decide,absent] at inner
    exact absurd inner (by decide)
  have bottom : ¬ (m.words (m.layout.cell n (slotOf va 1)) &&& ptePs ≠ 0 ∧ 0 ≠ 0) := fun large => large.2 rfl
  have trace : m.trace va = some (above ++ [m.words (m.layout.cell n (slotOf va 1))]) := by
    rw [rest,traceSucc m va (tableLow here) 0]
    simp only [Nat.zero_add,if_neg bottom,if_neg present,traceFrom,Option.map_some]
  have flagsAt : ∀ j < 3, ∃ e, above[j]? = some e ∧ e &&& vmUserRw = if ∀ i ∈ pathOf va (j + 1), i = 0 then 3 else 7 := by
    intro j low
    obtain ⟨n',table,entry⟩ := entries j low
    obtain ⟨t,below⟩ := tableAbove here (by omega : j + 1 ≤ 3)
    exact ⟨_,entry,links.link (slotOf va (4 - j)) (pathOf va j) n' t table below⟩
  constructor
  · rintro usable zero
    obtain ⟨found,again,_,all⟩ := usable.levels
    cases trace.symm.trans again
    obtain ⟨e,entry,closed⟩ := flagsAt 0 (by decide)
    have zeros : ∀ i ∈ pathOf va 1, i = 0 := by
      intro i member
      rw [pathOf,pathOf,List.mem_singleton] at member
      rw [member,zero]
    rw [if_pos zeros,all e (List.mem_append_left _ (List.mem_of_getElem? entry))] at closed
    exact absurd closed (by decide)
  · intro top
    refine usableLevels trace (by rw [List.length_append,size,List.length_singleton]) fun e member => ?_
    rcases List.mem_append.mp member with link | own
    · obtain ⟨j,low,rfl⟩ := List.mem_iff_getElem.mp link
      obtain ⟨e,entry,opens⟩ := flagsAt j (by omega)
      rw [List.getElem?_eq_getElem low] at entry
      cases entry
      rw [opens,if_neg fun zeros => top (zeros _ (pathTop j))]
      rfl
    · rw [List.mem_singleton.mp own,leaf]

/- Links are only read through the words of the tables. -/
theorem LinkFlags.same (links : LinkFlags m) (tables : ∀ q, m'.layout.table m'.words q = m.layout.table m.words q)
    (kept : ∀ (j : Fin 512) (q : List (Fin 512)) t, q.length ≤ 2 → m.layout.table m.words q = some t →
      m'.words (m.layout.cell t j) = m.words (m.layout.cell t j)) : LinkFlags m' := by
  refine ⟨fun i p n t here below => ?_,?_⟩
  · rw [tables] at here below
    obtain ⟨_,_,child⟩ := Layout.tableParent below
    have short : p.length ≤ 2 := by
      have level : 1 < 4 - p.length := (childSome child).1
      omega
    exact (congrArg (· &&& vmUserRw) (kept i p n short here)).trans (links.link i p n t here below)
  · obtain ⟨n,here,large⟩ := links.identity
    refine ⟨n,(tables _).trans here,fun i => ?_⟩
    have same : m'.words (m'.layout.cell n i) = m.words (m.layout.cell n i) := kept i [0,0] n (by decide) here
    rw [same]
    exact large i

/- No entry on the way to the page directory is absent, and none in it. -/
theorem LinkFlags.filled (links : LinkFlags m) (here : m.layout.table m.words p = some n)
    (absent : m.words (m.layout.cell n i) &&& ptePresent = 0) (short : p.length ≤ 2) : ¬ ∀ j ∈ i :: p, j = 0 := by
  intro zeros
  obtain ⟨directory,there,large⟩ := links.identity
  have first : m.layout.table m.words ([0,0] : List (Fin 512)) ≠ none := by
    rw [there]
    exact Option.some_ne_none _
  have below := nextBelow (i := i) here short
  rw [if_pos (.inl absent)] at below
  have start : i = 0 := zeros i List.mem_cons_self
  subst start
  match p,short with
  | [],_ =>
    rw [Layout.table,below] at first
    exact first rfl
  | [j],_ =>
    have second : j = 0 := zeros j (by simp)
    subst second
    exact first below
  | [j,l],_ =>
    have second : j = 0 := zeros j (by simp)
    have third : l = 0 := zeros l (by simp)
    subst second third
    cases here.symm.trans there
    exact (large 0).1 absent

theorem LinkFlags.hang (tree : PageTree m) (links : LinkFlags m) (here : m.layout.table m.words p = some n) (short : p.length ≤ 2)
    (absent : m.words (m.layout.cell n i) &&& ptePresent = 0) (free : t ∈ m.pmm.freeSet) : LinkFlags (m.hang n i t) := by
  have below : m.layout.table m.words (i :: p) = none := (nextBelow here short).trans (if_pos (.inl absent))
  have notZeros := links.filled here absent short
  refine ⟨fun j q u u' first second => ?_,?_⟩
  · rw [hangTable tree here short absent free] at first second
    by_cases new : j :: q = i :: p
    · rw [List.cons_eq_cons] at new
      obtain ⟨rfl,rfl⟩ := new
      rw [if_neg (fun same => absurd (congrArg List.length same) (by simp))] at first
      cases here.symm.trans first
      have word : (m.hang n j t).words ((m.hang n j t).layout.cell n j) = frameAddr t ||| ptePresent ||| pteWrite ||| pteUser :=
        setEntryCell (tableLow here)
      have inside : t < 2 ^ 40 := Nat.lt_of_lt_of_le (Pmm.memFree.mp free).1 tree.frames
      have joined : frameAddr t ||| ptePresent ||| pteWrite ||| pteUser = frameAddr t ||| (ptePresent ||| pteWrite ||| pteUser) := by
        rw [BitVec.or_assoc,BitVec.or_assoc,BitVec.or_assoc]
      rw [word,joined,entryFlags inside (by decide),if_neg notZeros]
      decide
    · rw [if_neg new] at second
      by_cases under : q = i :: p
      · subst under
        rw [Layout.table,below] at second
        cases second
      · rw [if_neg under] at first
        have other : q ≠ p ∨ j ≠ i := by
          by_contra both
          obtain ⟨path,index⟩ := not_or.mp both
          exact new (by rw [not_not.mp path,not_not.mp index])
        have word : (m.hang n i t).words ((m.hang n i t).layout.cell u j) = m.words (m.layout.cell u j) :=
          hangWord tree here short absent free first other
        rw [word]
        exact links.link j q u u' first second
  · obtain ⟨directory,there,large⟩ := links.identity
    have old : ([0,0] : List (Fin 512)) ≠ i :: p := by
      intro same
      rw [same,below] at there
      cases there
    refine ⟨directory,by rw [hangTable tree here short absent free,if_neg old,there],fun j => ?_⟩
    have other : ([0,0] : List (Fin 512)) ≠ p ∨ j ≠ i := by
      by_contra both
      obtain ⟨path,index⟩ := not_or.mp both
      rw [← not_not.mp path] at here
      cases here.symm.trans there
      exact (large i).1 absent
    have word : (m.hang n i t).words ((m.hang n i t).layout.cell directory j) = m.words (m.layout.cell directory j) :=
      hangWord tree here short absent free there other
    rw [word]
    exact large j

theorem LinkFlags.hangs (tree : PageTree m) (links : LinkFlags m) (hangs : Hangs m m') : LinkFlags m' := by
  induction hangs with
  | none => exact links
  | hang i earlier here short absent free ih => exact ih.hang (earlier.grown tree).tree here short absent free

/- A leaf lies in a table that no link is in. -/
theorem LinkFlags.put {v : Word} (tree : PageTree m) (links : LinkFlags m) (here : m.layout.table m.words (pathOf va 3) = some n) :
    LinkFlags (m.putLeaf va n v) := by
  refine links.same (fun q => leafTable here tree) fun j q u short there => putOther (tableLow here) fun same => ?_
  obtain ⟨path,_⟩ := tree.separated.word there here same
  rw [path,pathLength] at short
  exact absurd short (by decide)

theorem LinkFlags.map (tree : PageTree m) (links : LinkFlags m) (va pa flags : Word) : LinkFlags (m.vmmMap va pa flags).1 := by
  rcases mapHangs tree va pa flags with ⟨hangs,_⟩ | ⟨m₁,n,hangs,here,result⟩
  · exact links.hangs tree hangs
  · rw [result]
    exact (links.hangs tree hangs).put (hangs.grown tree).tree here

theorem LinkFlags.mapped (tree : PageTree m) (links : LinkFlags m) (maps : (m.vmmMap va pa vmUserRw).2 = 0) :
    Usable (m.vmmMap va pa vmUserRw).1 va ↔ slotOf va 4 ≠ 0 := by
  have links := links.map tree va pa vmUserRw
  rcases mapHangs tree va pa vmUserRw with ⟨_,fails⟩ | ⟨m₁,n,hangs,here,result⟩
  · rw [fails] at maps
    cases maps
  · rw [result] at links ⊢
    have there : (m₁.putLeaf va n (leafEntry pa vmUserRw)).layout.table (m₁.putLeaf va n (leafEntry pa vmUserRw)).words (pathOf va 3) = some n :=
      (leafTable here (hangs.grown tree).tree).trans here
    refine links.usable there ?_
    have cell : (m₁.putLeaf va n (leafEntry pa vmUserRw)).words
        ((m₁.putLeaf va n (leafEntry pa vmUserRw)).layout.cell n (slotOf va 1)) = leafEntry pa vmUserRw := putCell (tableLow here)
    rw [cell,leafFlags pa (by decide)]
    decide

end

section
variable {image : KernelImage} {tables : LoaderTables image} {info : BootInfo} {words : Words} {before : Nat → BitVec 8}
  {m : Memory} {va pa : Word}

theorem bootLinks : LinkFlags (bootMemory tables info words before) := by
  have small : tables.pml4 + 3 < 2 ^ 20 := loaderLow
  refine ⟨fun i p n t here below => ?_,tables.pml4 + 2,bootLink (Nat.le_refl 2),fun i => ?_⟩
  · obtain ⟨short,_,rfl⟩ := bootTables here
    obtain ⟨shorter,zeros,_⟩ := bootTables below
    have all : ∀ j ∈ i :: p, j = 0 := by
      intro j member
      rw [zeros] at member
      exact List.eq_of_mem_replicate member
    have depth : p.length ≤ 1 := by
      rw [List.length_cons] at shorter
      omega
    have start : i = 0 := all i List.mem_cons_self
    rw [bootCell i (by omega),if_pos all,start]
    have entry : loaderEntry tables.pml4 (p.length * 512 + (0 : Fin 512).val) = frameAddr (tables.pml4 + (p.length + 1)) ||| 0x3 := by
      generalize p.length = k at depth
      match k,depth with
      | 0,_ => rfl
      | 1,_ => rfl
    rw [entry,entryFlags (by omega) (by decide)]
    decide
  · have high := i.isLt
    rw [bootCell i (by decide),loaderEntry,if_neg (by omega),if_neg (by omega),if_pos (by omega)]
    constructor
    · intro absent
      have bit := congrArg (·.getLsbD 0) absent
      simp [ptePresent] at bit
    · intro single
      have bit := congrArg (·.getLsbD 7) single
      simp [ptePs] at bit

theorem runsLinks (bounded : Pmm.Bounded info) (runs : VmRuns (bootMemory tables info words before) m) : LinkFlags m := by
  induction runs with
  | start => exact bootLinks
  | @map m va pa flags earlier ih => exact ih.map (runsTree bounded earlier) va pa flags
  | @unmap m va earlier ih =>
    have tree := runsTree bounded earlier
    rcases unmapOutcome tree va with same | ⟨n,here,result⟩
    · rwa [same]
    · rw [result]
      exact ih.put tree here
  | alloc earlier ih => exact ⟨ih.link,ih.identity⟩
  | @data m words earlier apart ih =>
    exact ih.same (fun q => Layout.tableApart apart) fun j q t _ there => apart q t j there

theorem mappedUsable (bounded : Pmm.Bounded info) (runs : VmRuns (bootMemory tables info words before) m)
    (maps : (m.vmmMap va pa vmUserRw).2 = 0) : Usable (m.vmmMap va pa vmUserRw).1 va ↔ slotOf va 4 ≠ 0 :=
  (runsLinks bounded runs).mapped (runsTree bounded runs) maps

/- Below both of the loader's links there are large pages only. -/
theorem LinkFlags.noRoom (links : LinkFlags m) (top : slotOf va 4 = 0) (second : slotOf va 3 = 0) : ¬ Room m va := by
  obtain ⟨directory,there,large⟩ := links.identity
  have path : pathOf va 2 = [0,0] := by
    rw [pathOf,pathOf,pathOf,show slotOf va (4 - 1) = 0 from second,show slotOf va (4 - 0) = 0 from top]
  have below : m.layout.table m.words (pathOf va 3) = none := by
    rw [pathOf,path,nextBelow there (by decide),if_pos (.inr (large _).2)]
  rintro (⟨n,whole⟩ | ⟨k,n,frontier,_⟩)
  · cases below.symm.trans whole
  · rw [← path] at there
    have deep := frontier.last (by decide) there
    rcases Nat.lt_or_eq_of_le deep with less | rfl
    · obtain ⟨_,whole⟩ := tableAbove frontier.here (by omega : 3 ≤ k)
      cases below.symm.trans whole
    · cases there.symm.trans frontier.here
      exact (large _).1 frontier.absent

/- A page that `vmm_map` has mapped for Ring 3 can be used there, except below the
loader's first link. -/
theorem userMappings (bounded : Pmm.Bounded info) (runs : VmRuns (bootMemory tables info words before) m) (va pa : Word) :
    ((m.vmmMap va pa vmUserRw).2 = 0 → Usable (m.vmmMap va pa vmUserRw).1 va) ↔
      ¬ (slotOf va 4 = 0 ∧ slotOf va 3 ≠ 0 ∧ Room m va) := by
  have tree := runsTree bounded runs
  constructor
  · rintro works ⟨top,_,room⟩
    have maps : (m.vmmMap va pa vmUserRw).2 = 0 := (mapSucceeds tree).mpr room
    exact (mappedUsable bounded runs maps).mp (works maps) top
  · intro outside maps
    have room : Room m va := (mapSucceeds tree).mp maps
    exact (mappedUsable bounded runs maps).mpr fun top =>
      outside ⟨top,fun second => (runsLinks bounded runs).noRoom top second room,room⟩

theorem userMappingsSmall : Usable (smallMemory.vmmMap 0x400000000000 0x600000 vmUserRw).1 0x400000000000 := by
  have bounded : Pmm.Bounded Pmm.smallInfo := by decide
  have maps : (smallMemory.vmmMap 0x400000000000 0x600000 vmUserRw).2 = 0 :=
    (mapSucceeds (bootTree bounded)).mpr (smallRoom (bootFrontier (k := 0) (by decide) rfl (by decide)))
  exact (userMappings bounded .start 0x400000000000 0x600000).mpr (fun low => absurd low.1 (by decide)) maps

/- The second GiB lies below the loader's `pml4[0]`. -/
theorem userMappingsClosed : (smallMemory.vmmMap 0x40000000 0x600000 vmUserRw).2 = 0 ∧
    ¬ Usable (smallMemory.vmmMap 0x40000000 0x600000 vmUserRw).1 0x40000000 := by
  have bounded : Pmm.Bounded Pmm.smallInfo := by decide
  have maps : (smallMemory.vmmMap 0x40000000 0x600000 vmUserRw).2 = 0 :=
    (mapSucceeds (bootTree bounded)).mpr (smallRoom (bootFrontier (k := 1) (by decide) (by decide) (by decide)))
  have closed : ¬ slotOf 0x40000000 4 ≠ 0 := by decide
  exact ⟨maps,fun usable => closed ((mappedUsable bounded .start maps).mp usable)⟩

end
end Mukern
