import Mukern.PageTree

/-! `vmm_map` and `vmm_unmap` change the translation of one page and of no other, in
every memory that grows out of the loader's boot tables. -/
namespace Mukern
open RadixTree Layout

/- The frame that holds a physical address: bits 12 to 51. -/
def frameBase (pa : Word) : Nat := pa.toNat % 2 ^ 52 / 4096 * 4096

/- The entry that `vmm_map` writes. -/
def leafEntry (pa flags : Word) : Word := (pa &&& addrMask) ||| Memory.flagsToPte flags

/- The hardware walk, run on the entries that it reads. -/
def replay (va : Word) : (level : Nat) → (frame : Word) → List Word → (write user : Bool) → Option Memory.Translation
  | 0, frame, _, w, u => some ⟨frame.toNat + va.toNat % 2 ^ 12,w,u⟩
  | _ + 1, _, [], _, _ => none
  | level + 1, _, e :: rest, w, u =>
    let w := w && e &&& pteWrite != 0
    let u := u && e &&& pteUser != 0
    if e &&& ptePs ≠ 0 ∧ level ≠ 0 then
      let span := 2 ^ (12 + 9 * level)
      some ⟨(e &&& addrMask).toNat / span * span + va.toNat % span,w,u⟩
    else replay va level (e &&& addrMask) rest w u

section
variable {m m' : Memory} {va va' pa flags : Word} {n : Nat}

theorem maskNat (x : Word) : (x &&& addrMask).toNat = frameBase x := by
  have shifts : frameBase x = ((x.toNat % 2 ^ 52) >>> 12) <<< 12 := by
    rw [frameBase,Nat.shiftLeft_eq,Nat.shiftRight_eq_div_pow]
  refine Nat.eq_of_testBit_eq fun j => ?_
  rw [shifts,Nat.testBit_shiftLeft,Nat.testBit_shiftRight,Nat.testBit_mod_two_pow,BitVec.toNat_and,Nat.testBit_and]
  by_cases inside : j < 64
  · have mask : addrMask.toNat.testBit j = decide (12 ≤ j ∧ j < 52) := maskBit inside
    rw [mask]
    by_cases low : 12 ≤ j
    · have back : 12 + (j - 12) = j := by omega
      simp [low,back,Bool.and_comm]
    · simp [low]
  · have none : addrMask.toNat.testBit j = false := by
      rw [Nat.testBit_lt_two_pow]
      exact Nat.lt_of_lt_of_le addrMask.isLt (Nat.pow_le_pow_right Nat.two_pos (by omega))
    have high : ¬ 12 + (j - 12) < 52 := by omega
    simp [none,high]

theorem walkReplay (words : Words) (level : Nat) (table : Word) (w u : Bool) : Memory.walkFrom words va level table w u =
    (traceFrom words va level table).bind fun entries => replay va level table entries w u := by
  induction level generalizing table w u with
  | zero => rfl
  | succ level ih =>
    rw [Memory.walkFrom,traceFrom]
    dsimp only
    split
    · rfl
    · split
      · rename_i large
        split
        · rfl
        · rw [Option.bind_some,replay,if_pos large]
      · rename_i small
        rw [ih,Option.bind_map]
        congr 1
        funext rest
        rw [Function.comp_apply,replay,if_neg small]

/- Two memories in which the walk reads the same entries translate alike. -/
theorem walkSame (root : m'.cr3 = m.cr3) (same : m'.trace va = m.trace va) : m'.walk va = m.walk va := by
  unfold Memory.trace at same
  rw [Memory.walk,Memory.walk,walkReplay,walkReplay,same,root]

theorem trSame (same : m'.trace va = m.trace va) : m'.tr va = m.tr va := by rw [Memory.tr,Memory.tr,same]

/- The bits of `flags_to_pte`. -/
theorem flagsBits (flags : Word) : (Memory.flagsToPte flags).toNat < 4096 ∧ Memory.flagsToPte flags &&& ptePresent ≠ 0 ∧
    (Memory.flagsToPte flags &&& pteWrite != 0) = (flags &&& vmWrite != 0) ∧
      (Memory.flagsToPte flags &&& pteUser != 0) = (flags &&& vmUser != 0) := by
  unfold Memory.flagsToPte
  cases w : flags &&& vmWrite != 0 with
  | false =>
    have write : flags &&& vmWrite = 0 := by simpa using w
    cases u : flags &&& vmUser != 0 with
    | false =>
      have user : flags &&& vmUser = 0 := by simpa using u
      simp only [write,user,ne_eq,not_true_eq_false,if_false]
      decide
    | true =>
      have user : flags &&& vmUser ≠ 0 := by simpa using u
      simp only [write,user,ne_eq,not_true_eq_false,not_false_eq_true,if_false,if_true]
      decide
  | true =>
    have write : flags &&& vmWrite ≠ 0 := by simpa using w
    cases u : flags &&& vmUser != 0 with
    | false =>
      have user : flags &&& vmUser = 0 := by simpa using u
      simp only [write,user,ne_eq,not_true_eq_false,not_false_eq_true,if_false,if_true]
      decide
    | true =>
      have user : flags &&& vmUser ≠ 0 := by simpa using u
      simp only [write,user,ne_eq,not_false_eq_true,if_true]
      decide

variable (pa) in
theorem leafFlags {mask : Word} (small : mask.toNat < 4096) :
    leafEntry pa flags &&& mask = Memory.flagsToPte flags &&& mask := by
  rw [leafEntry,← frameOfEntry,entryFlags (entryFrameLow pa) small]

theorem leafPresent (pa flags : Word) : leafEntry pa flags &&& ptePresent ≠ 0 := by
  rw [leafFlags pa (by decide)]
  exact (flagsBits flags).2.1

/- A walk that ends in this entry finds the frame with the requested bits. -/
theorem leafSays {above : List Word} (size : above.length = 3) : leafOf va (above ++ [leafEntry pa flags]) =
    some ⟨frameBase pa + va.toNat % 4096,flags &&& vmWrite != 0,flags &&& vmUser != 0⟩ := by
  obtain ⟨low,_,write,user⟩ := flagsBits flags
  rw [← leafFlags pa (by decide)] at write user
  have addr : frameBase (leafEntry pa flags) = frameBase pa := by
    rw [← maskNat,← maskNat,leafEntry,← frameOfEntry pa,entryAddr (entryFrameLow pa) low]
  have depth : (above ++ [leafEntry pa flags]).length = 4 := by rw [List.length_append,size,List.length_singleton]
  have span : 2 ^ (12 + 9 * (4 - 4)) = 4096 := by decide
  have whole : frameBase pa / 4096 * 4096 = frameBase pa := by
    unfold frameBase
    omega
  rw [leafOf,List.getLast?_append_of_ne_nil _ (by simp),depth,List.getLast?_singleton,Option.map_some,maskNat,addr]
  simp only [span,whole,write,user]

/- `vmm_map` grows the tree down to a level-1 table and writes one entry of it, or stops. -/
theorem mapOutcome (tree : PageTree m) (va pa flags : Word) :
    Grown m (m.vmmMap va pa flags).1 ∧ (m.vmmMap va pa flags).2 = -1 ∨
      ∃ m₁ n, Grown m m₁ ∧ m₁.layout.table m₁.words (pathOf va 3) = some n ∧
        m.vmmMap va pa flags = (m₁.putLeaf va n (leafEntry pa flags),0) := by
  have spec := descendSpec va true tree
  rw [mapDescend]
  generalize m.descend va true = result at spec ⊢
  rcases result with ⟨m₁,none | pt⟩
  · exact .inl ⟨spec.1,rfl⟩
  · obtain ⟨grown,_,missing | ⟨n,value,here⟩⟩ := spec
    · cases missing
    · cases value
      exact .inr ⟨m₁,n,grown,here,rfl⟩

theorem unmapOutcome (tree : PageTree m) (va : Word) : m.vmmUnmap va = m ∨
    ∃ n, m.layout.table m.words (pathOf va 3) = some n ∧ m.vmmUnmap va = m.putLeaf va n 0 := by
  have spec := descendSpec va false tree
  rw [unmapDescend]
  generalize m.descend va false = result at spec ⊢
  obtain ⟨_,same,rest⟩ := spec
  have kept := same rfl
  rcases result with ⟨m₁,none | pt⟩
  · exact .inl kept
  · rcases rest with missing | ⟨n,value,here⟩
    · cases missing
    · cases value
      cases kept
      exact .inr ⟨n,here,rfl⟩

theorem mapTree (tree : PageTree m) : PageTree (m.vmmMap va pa flags).1 := by
  rcases mapOutcome tree va pa flags with ⟨grown,_⟩ | ⟨m₁,n,grown,here,result⟩
  · exact grown.tree
  · rw [result]
    exact leafTree here grown.tree

theorem mapRoot (tree : PageTree m) : (m.vmmMap va pa flags).1.cr3 = m.cr3 := by
  rcases mapOutcome tree va pa flags with ⟨grown,_⟩ | ⟨m₁,n,grown,here,result⟩
  · exact grown.root
  · rw [result]
    exact grown.root

theorem unmapTree (tree : PageTree m) : PageTree (m.vmmUnmap va) := by
  rcases unmapOutcome tree va with same | ⟨n,here,result⟩
  · rwa [same]
  · rw [result]
    exact leafTree here tree

theorem mapOther (tree : PageTree m) (other : pageNumber va' ≠ pageNumber va) :
    (m.vmmMap va pa flags).1.trace va' = m.trace va' := by
  rcases mapOutcome tree va pa flags with ⟨grown,_⟩ | ⟨m₁,n,grown,here,result⟩
  · exact grown.trace va'
  · rw [result]
    exact (leafOther here grown.tree other).trans (grown.trace va')

theorem mapFails (tree : PageTree m) (fails : (m.vmmMap va pa flags).2 ≠ 0) :
    (m.vmmMap va pa flags).1.trace va' = m.trace va' := by
  rcases mapOutcome tree va pa flags with ⟨grown,_⟩ | ⟨m₁,n,grown,here,result⟩
  · exact grown.trace va'
  · rw [result] at fails
    exact absurd rfl fails

theorem mapOwn (tree : PageTree m) (maps : (m.vmmMap va pa flags).2 = 0) (same : pageNumber va' = pageNumber va) :
    (m.vmmMap va pa flags).1.tr va' =
      some ⟨frameBase pa + va'.toNat % 4096,flags &&& vmWrite != 0,flags &&& vmUser != 0⟩ := by
  rcases mapOutcome tree va pa flags with ⟨_,fails⟩ | ⟨m₁,n,grown,here,result⟩
  · rw [fails] at maps
    cases maps
  · rw [result]
    obtain ⟨above,size,trace⟩ := leafOwn (v := leafEntry pa flags) here grown.tree
    rw [if_neg (leafPresent pa flags)] at trace
    have walks : (m₁.putLeaf va n (leafEntry pa flags)).trace va' = some (above ++ [leafEntry pa flags]) :=
      (leafSame same).trans trace
    rw [Memory.tr,walks,Option.bind_some,leafSays size]

theorem unmapOther (tree : PageTree m) (other : pageNumber va' ≠ pageNumber va) : (m.vmmUnmap va).trace va' = m.trace va' := by
  rcases unmapOutcome tree va with same | ⟨n,here,result⟩
  · rw [same]
  · rw [result]
    exact leafOther here tree other

/- Below a large page there is no level-1 table. -/
theorem unmapLarge (tree : PageTree m) (large : m.Large va) : m.vmmUnmap va = m := by
  rcases unmapOutcome tree va with same | ⟨n,here,_⟩
  · exact same
  · obtain ⟨entries,trace,short⟩ := large
    obtain ⟨above,size,read⟩ := leafTrace here
    rw [trace] at read
    split at read
    · cases read
    · cases read
      rw [List.length_append,size,List.length_singleton] at short
      exact absurd short (by decide)

/- A walk of four entries goes through tables of all four levels. -/
theorem smallTable (small : m.Small va) {k : Nat} (low : k ≤ 3) : ∃ n, m.layout.table m.words (pathOf va k) = some n := by
  obtain ⟨entries,trace,size⟩ := small
  induction k with
  | zero => exact ⟨_,rfl⟩
  | succ k ih =>
    obtain ⟨n,here⟩ := ih (by omega)
    have level : 4 - k = 4 - (k + 1) + 1 := by omega
    have depth : m.layout.level (pathOf va k) = 4 - k := by rw [Layout.level,pathLength]
    rw [pathOf,Layout.tableCons here,depth]
    cases child : childTable (4 - k) (m.words (m.layout.cell n (slotOf va (4 - k)))) with
    | some t => exact ⟨t,child⟩
    | none =>
      obtain ⟨above,length,rest⟩ := traceTo here (by omega)
      have step := traceSucc m va (tableLow here) (4 - (k + 1))
      rw [← level] at step
      rw [trace,step] at rest
      dsimp only at rest
      split at rest
      · cases rest
      · rename_i present
        split at rest
        · split at rest
          · cases rest
          · cases rest
            rw [List.length_append,length,List.length_singleton] at size
            omega
        · rename_i notLarge
          have tall : ¬ 4 - (k + 1) = 0 := by omega
          have table : childTable (4 - k) (m.words (m.layout.cell n (slotOf va (4 - k)))) ≠ none := by
            rw [childTable,if_neg]
            · exact Option.some_ne_none _
            · rintro (bottom | absent | large)
              · omega
              · exact present absent
              · exact notLarge ⟨large,tall⟩
          exact absurd child table

theorem nextThere {p : List (Fin 512)} {i : Fin 512} {t : Nat} (tree : PageTree m) (here : m.layout.table m.words p = some n)
    (short : p.length ≤ 2) (below : m.layout.table m.words (i :: p) = some t) :
    m.nextTable (frameAddr n) i.val false = (m,some (frameAddr t)) := by
  have next := nextTableSpec m p n i false tree here short
  generalize m.nextTable (frameAddr n) i.val false = r at next
  cases next with
  | there u there =>
    cases below.symm.trans there
    rfl
  | stopped missing => cases below.symm.trans missing
  | created u creates _ _ => cases creates

/- So it goes through a level-1 table, and `vmm_unmap` clears its entry there. -/
theorem unmapOwn (tree : PageTree m) (small : m.Small va) : (m.vmmUnmap va).trace va = none := by
  obtain ⟨pdpt,first⟩ := smallTable (k := 1) small (by decide)
  obtain ⟨pd,second⟩ := smallTable (k := 2) small (by decide)
  obtain ⟨pt,third⟩ := smallTable (k := 3) small (by decide)
  have root : m.layout.table m.words (pathOf va 0) = some (entryFrame m.cr3) := rfl
  have top := nextThere tree root (by simp [pathLength]) first
  have middle := nextThere tree first (by simp [pathLength]) second
  have bottom := nextThere tree second (by simp [pathLength]) third
  rw [frameOfEntry,← indexSlot] at top
  rw [← indexSlot] at middle bottom
  have descends : m.descend va false = (m,some (frameAddr pt)) := by
    simp only [Memory.descend,top,middle]
    exact bottom
  have result : m.vmmUnmap va = m.putLeaf va pt 0 := by rw [unmapDescend,descends]
  obtain ⟨above,_,trace⟩ := leafOwn (v := 0) third tree
  rw [result,trace]
  exact if_pos (by decide)

end
/- The loader's `pml4`, `pdpt` and `pd`: three consecutive frames of the kernel's bss. -/
structure LoaderTables (image : KernelImage) where
  pml4 : Nat
  inside : (pml4 + 3) * 4096 ≤ image.kernelEnd

/- Word `j` of the three tables: an identity map of the first GiB in 2 MiB pages. -/
def loaderEntry (pml4 j : Nat) : Word :=
  if j = 0 then frameAddr (pml4 + 1) ||| 0x3
  else if j = 512 then frameAddr (pml4 + 2) ||| 0x3
  else if 1024 ≤ j then BitVec.ofNat 64 ((j - 1024) * 0x200000) ||| 0x83
  else 0

/- Memory as `kmain` finds it after `pmm_init`; `words` and `before` are what it held. -/
def bootMemory {image : KernelImage} (tables : LoaderTables image) (info : BootInfo) (words : Words) (before : Nat → BitVec 8) : Memory :=
  { words := fun a => if tables.pml4 * 512 ≤ a ∧ a < tables.pml4 * 512 + 1536 then
      loaderEntry tables.pml4 (a - tables.pml4 * 512) else words a
    pmm := Pmm.pmmInit image info before
    cr3 := frameAddr tables.pml4 }

/- Page-table memory under any calls; between them frames are taken for data, and
words outside the tables change. -/
inductive VmRuns (start : Memory) : Memory → Prop where
  | start : VmRuns start start
  | map {m} (va pa flags : Word) (earlier : VmRuns start m) : VmRuns start (m.vmmMap va pa flags).1
  | unmap {m} (va : Word) (earlier : VmRuns start m) : VmRuns start (m.vmmUnmap va)
  | alloc {m} (earlier : VmRuns start m) : VmRuns start { m with pmm := m.pmm.allocFrame.1 }
  | data {m} (words : Words) (earlier : VmRuns start m)
      (apart : ∀ p n i, m.layout.table m.words p = some n → words (m.layout.cell n i) = m.words (m.layout.cell n i)) :
      VmRuns start { m with words := words }

section
variable {image : KernelImage} {tables : LoaderTables image} {info : BootInfo} {words : Words} {before : Nat → BitVec 8}
  {m : Memory} {va pa flags : Word}

theorem loaderLow : tables.pml4 + 3 < 2 ^ 20 := by
  have inside := tables.inside
  have below := image.below
  omega

theorem bootCell {k : Nat} (i : Fin 512) (low : k < 3) :
    (bootMemory tables info words before).words ((bootMemory tables info words before).layout.cell (tables.pml4 + k) i) =
      loaderEntry tables.pml4 (k * 512 + i.val) := by
  have place : (bootMemory tables info words before).layout.cell (tables.pml4 + k) i = tables.pml4 * 512 + (k * 512 + i.val) := by
    have cell : (bootMemory tables info words before).layout.cell (tables.pml4 + k) i = (tables.pml4 + k) * 512 + i.val := rfl
    rw [cell]
    omega
  have high := i.isLt
  rw [place,bootMemory]
  dsimp only
  rw [if_pos (by omega),Nat.add_sub_cancel_left]

theorem bootChild {k level n : Nat} {i : Fin 512}
    (child : childTable level (loaderEntry tables.pml4 (k * 512 + i.val)) = some n) :
    i = 0 ∧ (k = 0 ∧ n = tables.pml4 + 1 ∨ k = 1 ∧ n = tables.pml4 + 2) := by
  have small : tables.pml4 + 3 < 2 ^ 20 := loaderLow
  have high := i.isLt
  obtain ⟨_,present,single,frame⟩ := childSome child
  unfold loaderEntry at present single frame
  split at frame
  · rename_i first
    rw [entryFrameOf (by omega) (by decide)] at frame
    exact ⟨Fin.ext (by omega),.inl ⟨by omega,frame⟩⟩
  · split at frame
    · rename_i second
      rw [entryFrameOf (by omega) (by decide)] at frame
      exact ⟨Fin.ext (by omega),.inr ⟨by omega,frame⟩⟩
    · rename_i notFirst notSecond
      rw [if_neg notFirst,if_neg notSecond] at present single
      split at single
      · -- the page-size bit of a 2 MiB entry
        have bit := congrArg (·.getLsbD 7) single
        simp [ptePs] at bit
      · rename_i notThird
        rw [if_neg notThird] at present
        exact absurd (by decide) present

/- The loader's memory has these three tables and no others. -/
theorem bootTables {p : List (Fin 512)} {n : Nat}
    (here : (bootMemory tables info words before).layout.table (bootMemory tables info words before).words p = some n) :
    p.length ≤ 2 ∧ p = List.replicate p.length 0 ∧ n = tables.pml4 + p.length := by
  have small : tables.pml4 + 3 < 2 ^ 20 := loaderLow
  induction p generalizing n with
  | nil =>
    cases here
    refine ⟨by decide,rfl,?_⟩
    have low : tables.pml4 < 2 ^ 40 := by omega
    have flagless : frameAddr tables.pml4 ||| 0 = frameAddr tables.pml4 := BitVec.or_zero
    have frame : entryFrame (frameAddr tables.pml4 ||| 0) = tables.pml4 := entryFrameOf low (by decide)
    rwa [flagless] at frame
  | cons i p ih =>
    obtain ⟨parent,there,child⟩ := Layout.tableParent here
    obtain ⟨short,zeros,rfl⟩ := ih there
    rw [bootCell i (by omega)] at child
    obtain ⟨rfl,step⟩ := bootChild child
    refine ⟨?_,?_,?_⟩
    · rw [List.length_cons]
      omega
    · rw [List.length_cons,List.replicate_succ,← zeros]
    · rw [List.length_cons]
      omega

/- The loader's tables, root first. -/
theorem bootLink {k : Nat} (low : k ≤ 2) :
    (bootMemory tables info words before).layout.table (bootMemory tables info words before).words (List.replicate k (0 : Fin 512)) =
      some (tables.pml4 + k) := by
  have small : tables.pml4 + 3 < 2 ^ 20 := loaderLow
  induction k with
  | zero =>
    have frame : entryFrame (frameAddr tables.pml4 ||| 0) = tables.pml4 := entryFrameOf (by omega) (by decide)
    have flagless : frameAddr tables.pml4 ||| 0 = frameAddr tables.pml4 := BitVec.or_zero
    rw [flagless] at frame
    exact congrArg some frame
  | succ k ih =>
    have entry : loaderEntry tables.pml4 (k * 512 + (0 : Fin 512).val) = frameAddr (tables.pml4 + (k + 1)) ||| 0x3 := by
      match k,low with
      | 0,_ => rfl
      | 1,_ => rfl
    have here := ih (by omega)
    rw [List.replicate_succ,nextBelow here (by rw [List.length_replicate]; omega),bootCell 0 (by omega),entry,
      entryFlags (by omega) (by decide),entryFlags (by omega) (by decide),entryFrameOf (by omega) (by decide)]
    exact if_neg (by decide)

theorem bootTree (bounded : Pmm.Bounded info) : PageTree (bootMemory tables info words before) := by
  have sound := Pmm.initSound image before bounded
  have reserved : ∀ f ∈ (bootMemory tables info words before).pmm.freeSet, image.kernelEnd ≤ f * 4096 := by
    intro f free
    exact Nat.le_trans (Pmm.reservedAbove bounded) (sound.free f free).2
  refine ⟨?_,?_,sound.frames,?_⟩
  · intro p q n first second
    obtain ⟨_,zeros,path⟩ := bootTables first
    obtain ⟨_,zeros',path'⟩ := bootTables second
    have same : p.length = q.length := by omega
    rw [zeros,zeros',same]
  · intro p n there free
    obtain ⟨short,_,rfl⟩ := bootTables there
    have inside := tables.inside
    have above := reserved _ free
    omega
  · intro free
    have above := reserved 0 free
    have image' := image.above
    omega

theorem runsTree (bounded : Pmm.Bounded info) (runs : VmRuns (bootMemory tables info words before) m) : PageTree m := by
  induction runs with
  | start => exact bootTree bounded
  | map va pa flags earlier ih => exact mapTree ih
  | unmap va earlier ih => exact unmapTree ih
  | @alloc m earlier ih =>
    have fewer : m.pmm.allocFrame.1.freeSet ⊆ m.pmm.freeSet := Pmm.allocFewer
    have frames : m.pmm.allocFrame.1.totalFrames ≤ 2 ^ 40 := by
      rw [allocFrames]
      exact ih.frames
    exact ⟨ih.separated,fun p n there free => ih.live p n there (fewer free),frames,fun free => ih.zero (fewer free)⟩
  | @data m words earlier apart ih =>
    have tables : ∀ q, m.layout.table words q = m.layout.table m.words q := fun q => Layout.tableApart apart
    exact ⟨ih.separated.same tables,fun p n there => ih.live p n ((tables p).symm.trans there),ih.frames,ih.zero⟩

/- `vmm_map` that returns 0 maps the page with the requested bits, and one that returns
-1 maps nothing; `vmm_unmap` unmaps a 4 KiB page. No other page is translated
differently after either, and no large page after `vmm_unmap`. -/
theorem pageTableUpdates (bounded : Pmm.Bounded info) (runs : VmRuns (bootMemory tables info words before) m) (va pa flags : Word) :
    ((m.vmmMap va pa flags).2 = 0 ∧ (∀ va', pageNumber va' = pageNumber va → (m.vmmMap va pa flags).1.tr va' =
        some ⟨frameBase pa + va'.toNat % 4096,flags &&& vmWrite != 0,flags &&& vmUser != 0⟩) ∧
      (∀ va', pageNumber va' ≠ pageNumber va → (m.vmmMap va pa flags).1.tr va' = m.tr va' ∧
        (m.vmmMap va pa flags).1.walk va' = m.walk va') ∨
      (m.vmmMap va pa flags).2 = -1 ∧ ∀ va', (m.vmmMap va pa flags).1.tr va' = m.tr va' ∧
        (m.vmmMap va pa flags).1.walk va' = m.walk va') ∧
    (m.Small va → (m.vmmUnmap va).tr va = none) ∧
    (∀ va', pageNumber va' ≠ pageNumber va → (m.vmmUnmap va).tr va' = m.tr va' ∧ (m.vmmUnmap va).walk va' = m.walk va') ∧
    (∀ va', m.Large va' → (m.vmmUnmap va).tr va' = m.tr va' ∧ (m.vmmUnmap va).walk va' = m.walk va') := by
  have tree := runsTree bounded runs
  have unmapRoot : (m.vmmUnmap va).cr3 = m.cr3 := by
    rcases unmapOutcome tree va with same | ⟨n,_,result⟩
    · rw [same]
    · rw [result]
  have mapped : ∀ va', (m.vmmMap va pa flags).1.trace va' = m.trace va' →
      (m.vmmMap va pa flags).1.tr va' = m.tr va' ∧ (m.vmmMap va pa flags).1.walk va' = m.walk va' :=
    fun va' same => ⟨trSame same,walkSame (mapRoot tree) same⟩
  have unmapped : ∀ va', (m.vmmUnmap va).trace va' = m.trace va' →
      (m.vmmUnmap va).tr va' = m.tr va' ∧ (m.vmmUnmap va).walk va' = m.walk va' :=
    fun va' same => ⟨trSame same,walkSame unmapRoot same⟩
  refine ⟨?_,?_,fun va' other => unmapped va' (unmapOther tree other),fun va' large => ?_⟩
  · rcases mapOutcome tree va pa flags with ⟨_,fails⟩ | ⟨_,_,_,_,result⟩
    · refine .inr ⟨fails,fun va' => mapped va' (mapFails tree ?_)⟩
      rw [fails]
      decide
    · have maps : (m.vmmMap va pa flags).2 = 0 := by rw [result]
      exact .inl ⟨maps,fun va' same => mapOwn tree maps same,fun va' other => mapped va' (mapOther tree other)⟩
  · intro small
    rw [Memory.tr,unmapOwn tree small,Option.bind_none]
  · refine unmapped va' ?_
    by_cases same : pageNumber va' = pageNumber va
    · have shared : m.Large va := by
        obtain ⟨entries,trace,short⟩ := large
        exact ⟨entries,(leafSame same).symm.trans trace,short⟩
      rw [unmapLarge tree shared]
    · exact unmapOther tree same

/- The loader's tables of a small machine. -/
def smallTables : LoaderTables Pmm.smallImage := ⟨0x110,by decide⟩

def smallMemory : Memory := bootMemory smallTables Pmm.smallInfo (fun _ => 0) fun _ => 0

theorem pageTableUpdatesSmall : (smallMemory.vmmUnmap 0x40000).tr 0x40000 = smallMemory.tr 0x40000 := by
  have large : smallMemory.Large 0x40000 := ⟨[0x111003,0x112003,0x83],by decide +kernel,by decide⟩
  exact ((pageTableUpdates (by decide) .start 0x40000 0 0).2.2.2 0x40000 large).1

end
end Mukern
