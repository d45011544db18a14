import Mathlib.Order.Interval.Set.Defs
import Mathlib.Data.Set.Insert
import Mukern.Rootfs

/-! What `rootfs_load_all` leaves behind: every frame that it took is a table or the frame
of a page, and no page of a program shares a frame with a table. -/
namespace Mukern
open RadixTree Layout

/- `done` are the numbers of the pages that are mapped so far, apart from the identity map
under the first entry of the PML4. -/
structure Loading (frames : Finset Nat) (m : Memory) (done : Set Nat) : Prop where
  tree : PageTree m
  accounted : Accounted frames m
  nonzero : ∀ p, m.layout.table m.words p ≠ some 0
  data : ∀ va, pageNumber va ∈ done → DataPage m va
  rest : ∀ va, slotOf va 4 ≠ 0 → pageNumber va ∉ done → ∃ k n, Frontier m va k n
  leaves : LeavesLive m
  identity : m.Large 0x200000
  fewer : m.pmm.freeSet ⊆ frames

/- Memory outside the tables has changed. -/
structure TablesKept (m m' : Memory) : Prop where
  root : m'.cr3 = m.cr3
  pmm : m'.pmm = m.pmm
  apart : ∀ p n i, m.layout.table m.words p = some n → m'.words (m.layout.cell n i) = m.words (m.layout.cell n i)

section
variable {frames : Finset Nat} {done : Set Nat} {m m' : Memory} {va va' pa flags v : Word} {p q : List (Fin 512)} {f n n' k t : Nat}
  {i j : Fin 512}

namespace TablesKept
variable (kept : TablesKept m m')
include kept

theorem table : m'.layout.table m'.words q = m.layout.table m.words q := by
  rw [rootTable kept.root]
  exact Layout.tableApart kept.apart

theorem trace : m'.trace va = m.trace va := traceSame kept.root fun _ n _ there => kept.apart _ n _ there

theorem tree (tree : PageTree m) : PageTree m' := by
  refine ⟨rootSeparated kept.root (tree.separated.same fun q => ?_),fun p n there => ?_,?_,?_⟩
  · rw [← rootTable kept.root]
    exact kept.table
  · rw [kept.pmm]
    exact tree.live p n (kept.table.symm.trans there)
  · rw [kept.pmm]
    exact tree.frames
  · rw [kept.pmm]
    exact tree.zero

theorem maps : Maps m' f q n i ↔ Maps m f q n i := by
  have word (there : m.layout.table m.words q = some n) : m'.words (m'.layout.cell n i) = m.words (m.layout.cell n i) := kept.apart q n i there
  constructor
  · rintro ⟨depth,there,present,frame⟩
    have there' := kept.table.symm.trans there
    exact ⟨depth,there',word there' ▸ present,word there' ▸ frame⟩
  · rintro ⟨depth,there,present,frame⟩
    exact ⟨depth,kept.table.trans there,(word there).symm ▸ present,(word there).symm ▸ frame⟩

theorem referenced (ref : Referenced m f) : Referenced m' f := by
  rcases ref with ⟨p,here⟩ | ⟨p,n,i,maps⟩
  · exact .inl ⟨p,kept.table.trans here⟩
  · exact .inr ⟨p,n,i,kept.maps.mpr maps⟩

theorem accounted (accounted : Accounted frames m) : Accounted frames m' := by
  intro f member taken
  rw [kept.pmm] at taken
  exact kept.referenced (accounted f member taken)

theorem frontier (frontier : Frontier m va k n) : Frontier m' va k n := by
  refine ⟨frontier.level,kept.table.trans frontier.here,?_⟩
  have word : m'.words (m'.layout.cell n (slotOf va (4 - k))) = m.words (m.layout.cell n (slotOf va (4 - k))) :=
    kept.apart _ n _ frontier.here
  rw [word]
  exact frontier.absent

theorem dataPage (data : DataPage m va) : DataPage m' va := by
  obtain ⟨above,e,trace,size,notTable,notFree⟩ := data
  refine ⟨above,e,kept.trace.trans trace,size,fun p there => notTable p (kept.table.symm.trans there),?_⟩
  rwa [kept.pmm]

theorem loading (loading : Loading frames m done) : Loading frames m' done := by
  refine ⟨kept.tree loading.tree,kept.accounted loading.accounted,fun p there => loading.nonzero p (kept.table.symm.trans there),
    fun va member => kept.dataPage (loading.data va member),fun va high other => ?_,fun f p n i maps => ?_,?_,kept.pmm ▸ loading.fewer⟩
  · obtain ⟨k,n,frontier⟩ := loading.rest va high other
    exact ⟨k,n,kept.frontier frontier⟩
  · rw [kept.pmm]
    exact loading.leaves f p n i (kept.maps.mp maps)
  · obtain ⟨entries,trace,short⟩ := loading.identity
    exact ⟨entries,kept.trace.trans trace,short⟩

end TablesKept

theorem Hangs.frontier (tree : PageTree m) (hangs : Hangs m m') (frontier : Frontier m va k n) : ∃ k' n', Frontier m' va k' n' := by
  induction hangs with
  | none => exact ⟨k,n,frontier⟩
  | @hang m' p n₁ t i earlier here short absent free ih =>
    obtain ⟨k,n,before⟩ := ih
    have tree' := (earlier.grown tree).tree
    by_cases same : pathOf va k = p ∧ slotOf va (4 - k) = i
    · -- the walk goes on to the new table
      obtain ⟨rfl,rfl⟩ := same
      rw [pathLength] at short
      refine ⟨k + 1,t,by omega,(hangTable tree' here (by rwa [pathLength]) absent free).trans (if_pos rfl),?_⟩
      have empty : (m'.hang n₁ (slotOf va (4 - k)) t).words ((m'.hang n₁ (slotOf va (4 - k)) t).layout.cell t (slotOf va (4 - (k + 1)))) = 0 :=
        hungZero tree' here free _
      rw [empty]
      decide
    · refine ⟨k,n,before.level,?_,?_⟩
      · rw [hangTable tree' here short absent free]
        refine (if_neg fun own => ?_).trans before.here
        have there := before.here
        rw [own,nextBelow here short,if_pos (.inl absent)] at there
        cases there
      · have word : (m'.hang n₁ i t).words ((m'.hang n₁ i t).layout.cell n (slotOf va (4 - k))) = m'.words (m'.layout.cell n (slotOf va (4 - k))) :=
          hangWord tree' here short absent free before.here (not_and_or.mp same)
        rw [word]
        exact before.absent

theorem putFrontier (tree : PageTree m) (here : m.layout.table m.words (pathOf va 3) = some n) (other : pageNumber va' ≠ pageNumber va)
    (frontier : Frontier m va' k n') : Frontier (m.putLeaf va n v) va' k n' := by
  refine ⟨frontier.level,(leafTable here tree).trans frontier.here,?_⟩
  have apart : m.layout.cell n' (slotOf va' (4 - k)) ≠ m.layout.cell n (slotOf va 1) := by
    intro same
    obtain ⟨path,slot⟩ := tree.separated.word frontier.here here same
    have size : (pathOf va' k).length = k := pathLength
    have depth : k = 3 := by rw [← size,path,pathLength]
    subst depth
    exact other (pathPage (List.cons_eq_cons.mpr ⟨slot,path⟩))
  have word : (m.putLeaf va n v).words ((m.putLeaf va n v).layout.cell n' (slotOf va' (4 - k))) = m.words (m.layout.cell n' (slotOf va' (4 - k))) :=
    putOther (tableLow here) apart
  rw [word]
  exact frontier.absent

theorem Hangs.dataPage (tree : PageTree m) (hangs : Hangs m m') (data : DataPage m va) : DataPage m' va := by
  obtain ⟨above,e,trace,size,notTable,notFree⟩ := data
  have grown := hangs.grown tree
  refine ⟨above,e,(grown.trace va).trans trace,size,fun p there => ?_,fun free => notFree (grown.free free)⟩
  rcases hangs.fresh tree there with before | free
  · exact notTable p before
  · exact notFree free

theorem putDataOther (tree : PageTree m) (here : m.layout.table m.words (pathOf va 3) = some n) (other : pageNumber va' ≠ pageNumber va)
    (data : DataPage m va') : DataPage (m.putLeaf va n v) va' := by
  obtain ⟨above,e,trace,size,notTable,notFree⟩ := data
  exact ⟨above,e,(leafOther here tree other).trans trace,size,fun p there => notTable p ((leafTable here tree).symm.trans there),notFree⟩

theorem putDataOwn (tree : PageTree m) (here : m.layout.table m.words (pathOf va 3) = some n) (same : pageNumber va' = pageNumber va)
    (present : v &&& ptePresent ≠ 0) (notTable : ∀ p, m.layout.table m.words p ≠ some (entryFrame v)) (notFree : entryFrame v ∉ m.pmm.freeSet) :
    DataPage (m.putLeaf va n v) va' := by
  obtain ⟨above,size,trace⟩ := leafOwn (v := v) here tree
  rw [if_neg present] at trace
  exact ⟨above,v,(leafSame same).trans trace,size,fun p there => notTable p ((leafTable here tree).symm.trans there),notFree⟩

/- What `pmm_alloc_frame` returns is a fresh frame, or 0. -/
theorem takeFresh (tree : PageTree m) (nonzero : ∀ p, m.layout.table m.words p ≠ some 0) :
    entryFrame m.pmm.allocFrame.2 ∉ m.takeFrame.pmm.freeSet ∧ (∀ p, m.layout.table m.words p ≠ some (entryFrame m.pmm.allocFrame.2)) := by
  by_cases empty : m.pmm.freeSet = ∅
  · have none := takeNone empty
    have zero : entryFrame 0 = 0 := by decide
    have fewer : m.takeFrame.pmm.freeSet ⊆ m.pmm.freeSet := Pmm.allocFewer
    rw [none,zero]
    exact ⟨fun free => tree.zero (fewer free),nonzero⟩
  · obtain ⟨f,free,_,_,frame,set⟩ := takeFree tree empty
    rw [frame,set]
    exact ⟨Finset.notMem_erase f _,fun p there => tree.live p f there free⟩

/- One page is mapped: what the tables say of it, and of the rest. -/
theorem loadingMapped (loading : Loading frames m done) (high : slotOf va 4 ≠ 0) (new : pageNumber va ∉ done)
    (maps : (m.takeFrame.vmmMap va m.pmm.allocFrame.2 vmUserRw).2 = 0) :
    Loading frames (m.takeFrame.vmmMap va m.pmm.allocFrame.2 vmUserRw).1 (insert (pageNumber va) done) := by
  obtain ⟨notFree,notTable⟩ := takeFresh loading.tree loading.nonzero
  have tree₁ := takeTree loading.tree
  have unmapped : m.takeFrame.trace va = none := by
    obtain ⟨k,n,frontier⟩ := loading.rest va high new
    exact frontier.trace
  have accounted : Accounted frames (m.takeFrame.vmmMap va m.pmm.allocFrame.2 vmUserRw).1 := by
    refine mapAccounted tree₁ maps (takeAccounted loading.tree loading.accounted) fun old n mapped _ => ?_
    obtain ⟨above,_,trace⟩ := leafTrace mapped.here
    rw [unmapped,if_neg mapped.present] at trace
    cases trace
  rcases mapHangs tree₁ va m.pmm.allocFrame.2 vmUserRw with ⟨_,fails⟩ | ⟨m₁,n,hangs,here,result⟩
  · rw [fails] at maps
    cases maps
  rw [result] at accounted ⊢
  have grown := hangs.grown tree₁
  have fewer : m.takeFrame.pmm.freeSet ⊆ m.pmm.freeSet := Pmm.allocFewer
  have notTable₁ : ∀ p, m₁.layout.table m₁.words p ≠ some (entryFrame (leafEntry m.pmm.allocFrame.2 vmUserRw)) := by
    intro p there
    rw [leafFrame] at there
    rcases hangs.fresh tree₁ there with before | free
    · exact notTable p before
    · exact notFree free
  have notFree₁ : entryFrame (leafEntry m.pmm.allocFrame.2 vmUserRw) ∉ m₁.pmm.freeSet := by
    rw [leafFrame]
    exact fun free => notFree (grown.free free)
  refine ⟨leafTree here grown.tree,accounted,fun p there => ?_,fun va' member => ?_,fun va' high' other => ?_,fun f p n' i mapped => ?_,?_,?_⟩
  · rw [leafTable here grown.tree] at there
    rcases hangs.fresh tree₁ there with before | free
    · exact loading.nonzero p before
    · exact tree₁.zero free
  · by_cases same : pageNumber va' = pageNumber va
    · exact putDataOwn grown.tree here same (leafPresent _ _) notTable₁ notFree₁
    · obtain ⟨above,e,trace,size,notTable',notFree'⟩ := loading.data va' (member.resolve_left same)
      have taken : DataPage m.takeFrame va' := ⟨above,e,trace,size,notTable',fun free => notFree' (fewer free)⟩
      exact putDataOther grown.tree here same (hangs.dataPage tree₁ taken)
  · have apart := not_or.mp other
    obtain ⟨k,n',frontier⟩ := loading.rest va' high' apart.2
    have taken : Frontier m.takeFrame va' k n' := ⟨frontier.level,frontier.here,frontier.absent⟩
    obtain ⟨k',n'',frontier'⟩ := hangs.frontier tree₁ taken
    exact ⟨k',n'',putFrontier grown.tree here apart.1 frontier'⟩
  · rw [putMaps grown.tree here] at mapped
    split at mapped
    · exact mapped.2.2 ▸ notFree₁
    · have before := takeMaps.mp ((hangs.maps tree₁).mp mapped)
      exact fun free => loading.leaves f p n' i before (fewer (grown.free free))
  · obtain ⟨entries,trace,short⟩ := loading.identity
    have other : pageNumber 0x200000 ≠ pageNumber va := by
      intro same
      have number : pageNumber 0x200000 = 512 := by decide
      rw [number,pageNumber] at same
      refine high (Fin.ext ?_)
      simp only [slotOf,Fin.val_zero]
      omega
    have kept : (m.takeFrame.vmmMap va m.pmm.allocFrame.2 vmUserRw).1.trace 0x200000 = m.takeFrame.trace 0x200000 := mapOther tree₁ other
    rw [result] at kept
    exact ⟨entries,kept.trans trace,short⟩
  · exact (grown.free.trans fewer).trans loading.fewer

theorem pageBytes (aligned : va.toNat % 4096 = 0) {j : Nat} (inside : j < 4096) : pageNumber (va + BitVec.ofNat 64 j) = pageNumber va := by
  have low := va.isLt
  have sum : (va + BitVec.ofNat 64 j).toNat = va.toNat + j := by
    rw [BitVec.toNat_add,BitVec.toNat_ofNat]
    omega
  unfold pageNumber
  rw [sum]
  omega

theorem writeKept {bytes : List (BitVec 8)} (data : ∀ j < bytes.length, DataPage m (va + BitVec.ofNat 64 j))
    (written : m.writeBytes va bytes = some m') : TablesKept m m' := by
  obtain ⟨words,rfl,apart⟩ := writeApart data written
  exact ⟨rfl,rfl,apart⟩

/- A page that is not mapped cannot be written, so the loader goes on only with it mapped. -/
theorem pageMaps (loading : Loading frames m done) (high : slotOf va 4 ≠ 0) (new : pageNumber va ∉ done)
    (loaded : m.mapZeroedPage va = some m') : (m.takeFrame.vmmMap va m.pmm.allocFrame.2 vmUserRw).2 = 0 := by
  have length : (List.replicate 4096 (0 : BitVec 8)).length = 4096 := List.length_replicate
  unfold Memory.mapZeroedPage at loaded
  generalize List.replicate 4096 (0 : BitVec 8) = bytes at loaded length
  by_contra fails
  obtain ⟨k,n,frontier⟩ := loading.rest va high new
  have unmapped : (m.takeFrame.vmmMap va m.pmm.allocFrame.2 vmUserRw).1.trace va = none :=
    (mapFails (takeTree loading.tree) fails).trans frontier.trace
  obtain ⟨span,found,_⟩ := Option.map_eq_some_iff.mp loaded
  obtain ⟨_,each⟩ := spanAccess found
  obtain ⟨access,some'⟩ := each 0 (by omega)
  rw [← access,BitVec.add_zero,Memory.kernelAccess,walkUnmapped unmapped] at some'
  split at some' <;> cases some'

/- What zeroing the new page leaves alone. -/
theorem pageKept (loading : Loading frames m done) (high : slotOf va 4 ≠ 0) (aligned : va.toNat % 4096 = 0) (new : pageNumber va ∉ done)
    (loaded : m.mapZeroedPage va = some m') : TablesKept (m.takeFrame.vmmMap va m.pmm.allocFrame.2 vmUserRw).1 m' := by
  have length : (List.replicate 4096 (0 : BitVec 8)).length = 4096 := List.length_replicate
  have mapped := loadingMapped loading high new (pageMaps loading high new loaded)
  unfold Memory.mapZeroedPage at loaded
  generalize List.replicate 4096 (0 : BitVec 8) = bytes at loaded length
  refine writeKept (fun j low => mapped.data _ ?_) loaded
  rw [length] at low
  rw [pageBytes aligned low]
  exact Set.mem_insert _ _

theorem pageLoading (loading : Loading frames m done) (high : slotOf va 4 ≠ 0) (aligned : va.toNat % 4096 = 0) (new : pageNumber va ∉ done)
    (loaded : m.mapZeroedPage va = some m') : Loading frames m' (insert (pageNumber va) done) :=
  (pageKept loading high aligned new loaded).loading (loadingMapped loading high new (pageMaps loading high new loaded))

/- A run of pages in the lower half, outside the identity map. -/
structure PageRun (va : Word) (pages : Nat) : Prop where
  aligned : va.toNat % 4096 = 0
  above : 2 ^ 39 ≤ va.toNat
  below : va.toNat + pages * 4096 ≤ 2 ^ 47

theorem runPage {pages : Nat} (run : PageRun va pages) {j : Nat} (inside : j < pages * 4096) :
    pageNumber (va + BitVec.ofNat 64 j) = va.toNat / 4096 + j / 4096 ∧ slotOf (va + BitVec.ofNat 64 j) 4 ≠ 0 := by
  obtain ⟨aligned,above,below⟩ := run
  have sum : (va + BitVec.ofNat 64 j).toNat = va.toNat + j := by
    rw [BitVec.toNat_add,BitVec.toNat_ofNat]
    omega
  constructor
  · unfold pageNumber
    rw [sum]
    omega
  · intro zero
    have index := congrArg Fin.val zero
    simp only [slotOf,sum,Fin.val_zero] at index
    omega

theorem runFirst {pages : Nat} (run : PageRun va (pages + 1)) : PageRun va 1 :=
  ⟨run.aligned,run.above,(Nat.add_le_add_left (Nat.mul_le_mul_right 4096 (Nat.le_add_left 1 pages)) _).trans run.below⟩

theorem runNext {pages : Nat} (run : PageRun va (pages + 1)) : (va + 4096).toNat = va.toNat + 4096 ∧ PageRun (va + 4096) pages := by
  obtain ⟨aligned,above,below⟩ := run
  have sum : (va + 4096).toNat = va.toNat + 4096 := by
    rw [BitVec.toNat_add]
    simp
    omega
  exact ⟨sum,by omega,by omega,by omega⟩

/- The numbers of the pages. -/
def runPages (va : Word) (pages : Nat) : Set Nat := Set.Ico (va.toNat / 4096) (va.toNat / 4096 + pages)

theorem zeroedLoading {pages : Nat} (loading : Loading frames m done) (run : PageRun va pages) (new : ∀ q ∈ runPages va pages, q ∉ done)
    (loaded : m.mapZeroed va pages = some m') : Loading frames m' (done ∪ runPages va pages) := by
  induction pages generalizing m va done with
  | zero =>
    cases loaded
    have none : done ∪ runPages va 0 = done := by
      ext q
      have empty : ¬ (va.toNat / 4096 ≤ q ∧ q < va.toNat / 4096 + 0) := by omega
      simp only [runPages,Set.mem_union,Set.mem_Ico,empty,or_false]
    rwa [none]
  | succ pages ih =>
    rw [Memory.mapZeroed] at loaded
    obtain ⟨m₁,first,rest⟩ := Option.bind_eq_some_iff.mp loaded
    obtain ⟨page,high⟩ := runPage run (j := 0) (by omega)
    rw [BitVec.add_zero,Nat.zero_div,Nat.add_zero] at page
    rw [BitVec.add_zero] at high
    have own : va.toNat / 4096 ∈ runPages va (pages + 1) := Set.mem_Ico.mpr ⟨Nat.le_refl _,by omega⟩
    have loading₁ := pageLoading loading high run.aligned (page ▸ new _ own) first
    obtain ⟨sum,run'⟩ := runNext run
    have whole : insert (pageNumber va) done ∪ runPages (va + 4096) pages = done ∪ runPages va (pages + 1) := by
      ext q
      have first : va.toNat / 4096 ≤ q ∧ q < va.toNat / 4096 + (pages + 1) ↔
          q = va.toNat / 4096 ∨ (va.toNat + 4096) / 4096 ≤ q ∧ q < (va.toNat + 4096) / 4096 + pages := by omega
      simp only [runPages,sum,page,Set.mem_union,Set.mem_insert_iff,Set.mem_Ico,first]
      exact or_assoc.trans or_left_comm
    rw [← whole]
    refine ih loading₁ run' (fun q member => ?_) rest
    have later := Set.mem_Ico.mp member
    rw [sum] at later
    rw [Set.mem_insert_iff,page,not_or]
    exact ⟨by omega,new q (Set.mem_Ico.mpr (by omega))⟩

/- Where a program of the table lies. -/
structure ProgPlaced (pr : Prog) : Prop where
  run : PageRun pr.base 128
  top : pr.stackTop = pr.base + 0x80000

/- The pages of its image and of its stack. -/
def progPages (pr : Prog) : Set Nat := runPages pr.base 16 ∪ runPages (pr.stackTop - 0x4000) 4

theorem stackBottom {pr : Prog} (placed : ProgPlaced pr) : (pr.stackTop - 0x4000).toNat = pr.base.toNat + 0x7C000 := by
  have below := placed.run.below
  rw [placed.top,BitVec.toNat_sub,BitVec.toNat_add]
  simp
  omega

/- The image and the stack as runs of pages that are still to be mapped. -/
theorem progRuns {pr : Prog} (placed : ProgPlaced pr) (new : ∀ q ∈ runPages pr.base 128, q ∉ done) :
    PageRun pr.base 16 ∧ PageRun (pr.stackTop - 0x4000) 4 ∧ (∀ q ∈ runPages pr.base 16, q ∉ done) ∧
      ∀ q ∈ runPages (pr.stackTop - 0x4000) 4, q ∉ done ∪ runPages pr.base 16 := by
  have bottom := stackBottom placed
  obtain ⟨aligned,above,below⟩ := placed.run
  refine ⟨⟨aligned,above,by omega⟩,⟨by omega,by omega,by omega⟩,fun q member => new q ?_,fun q member => ?_⟩
  · have inside := Set.mem_Ico.mp member
    exact Set.mem_Ico.mpr (by omega)
  · have inside := Set.mem_Ico.mp member
    rw [bottom] at inside
    rw [Set.mem_union,not_or]
    refine ⟨new q (Set.mem_Ico.mpr (by omega)),fun low => ?_⟩
    have low := Set.mem_Ico.mp low
    omega

/- A copy faults on a page that is not mapped. -/
theorem copyShort {bytes : List (BitVec 8)} {size : Nat} (loading : Loading frames m done) (high : slotOf (va + BitVec.ofNat 64 size) 4 ≠ 0)
    (behind : pageNumber (va + BitVec.ofNat 64 size) ∉ done) (copied : m.writeBytes va bytes = some m') : bytes.length ≤ size := by
  by_contra long
  obtain ⟨span,found,_⟩ := Option.map_eq_some_iff.mp copied
  obtain ⟨access,some⟩ := (spanAccess found).2 size (by omega)
  obtain ⟨k,n,frontier⟩ := loading.rest _ high behind
  rw [← access,Memory.kernelAccess,walkUnmapped frontier.trace] at some
  split at some <;> cases some

theorem progLoading {pr : Prog} (loading : Loading frames m done) (placed : ProgPlaced pr) (new : ∀ q ∈ runPages pr.base 128, q ∉ done)
    (loaded : m.loadOne pr = some m') : Loading frames m' (done ∪ progPages pr) := by
  rw [Memory.loadOne] at loaded
  obtain ⟨m₁,image,rest⟩ := Option.bind_eq_some_iff.mp loaded
  obtain ⟨m₂,stack,copied⟩ := Option.bind_eq_some_iff.mp rest
  have bottom := stackBottom placed
  obtain ⟨imageRun,stackRun,imageNew,stackNew⟩ := progRuns placed new
  have loading₁ := zeroedLoading loading imageRun imageNew image
  have loading₂ := zeroedLoading loading₁ stackRun stackNew stack
  rw [Set.union_assoc] at loading₂
  obtain ⟨page,high⟩ := runPage placed.run (j := 65536) (by decide)
  have short : pr.image.length ≤ 65536 := by
    refine copyShort loading₂ high ?_ copied
    rw [page,Set.mem_union,Set.mem_union,not_or,not_or]
    refine ⟨new _ (Set.mem_Ico.mpr (by omega)),fun inside => ?_,fun inside => ?_⟩
    · have inside := Set.mem_Ico.mp inside
      omega
    · have inside := Set.mem_Ico.mp inside
      rw [bottom] at inside
      omega
  refine (writeKept (fun j low => loading₂.data _ ?_) copied).loading loading₂
  obtain ⟨page,_⟩ := runPage placed.run (j := j) (by omega)
  rw [page]
  exact .inr (.inl (Set.mem_Ico.mpr (by omega)))

theorem spanSome {count : Nat} (mapped : ∀ j < count, (m.kernelAccess (va + BitVec.ofNat 64 j)).isSome) : (m.kernelSpan va count).isSome := by
  induction count generalizing va with
  | zero => rfl
  | succ count ih =>
    have first := mapped 0 (Nat.succ_pos count)
    rw [BitVec.add_zero] at first
    obtain ⟨pa,access⟩ := Option.isSome_iff_exists.mp first
    have rest : (m.kernelSpan (va + 1) count).isSome := ih fun j low => by
      have next := mapped (j + 1) (Nat.succ_lt_succ low)
      rwa [← nextByte] at next
    obtain ⟨span,found⟩ := Option.isSome_iff_exists.mp rest
    rw [Memory.kernelSpan,access,found]
    rfl

theorem canonicalLow (low : va.toNat < 2 ^ 47) : Memory.canonical va = true := by
  rw [canonicalIff]
  have clear : ∀ n, 47 ≤ n → va.getLsbD n = false := by
    intro n high
    rw [BitVec.getLsbD,Nat.testBit_lt_two_pow]
    exact Nat.lt_of_lt_of_le low (Nat.pow_le_pow_right Nat.two_pos high)
  intro n high _
  rw [clear n (by omega),clear 47 (Nat.le_refl 47)]

/- Bytes of data pages can be written. -/
theorem writeSome {bytes : List (BitVec 8)} (data : ∀ j < bytes.length, DataPage m (va + BitVec.ofNat 64 j))
    (low : va.toNat + bytes.length ≤ 2 ^ 47) : ∃ m', m.writeBytes va bytes = some m' := by
  have mapped : ∀ j < bytes.length, (m.kernelAccess (va + BitVec.ofNat 64 j)).isSome := by
    intro j inside
    obtain ⟨above,e,trace,size,_⟩ := data j inside
    obtain ⟨w,u,found⟩ := walkMapped trace size
    have sum : (va + BitVec.ofNat 64 j).toNat = va.toNat + j := by
      rw [BitVec.toNat_add,BitVec.toNat_ofNat]
      omega
    rw [Memory.kernelAccess,canonicalLow (by omega),found]
    rfl
  obtain ⟨span,found⟩ := Option.isSome_iff_exists.mp (spanSome mapped)
  rw [Memory.writeBytes,found]
  exact ⟨_,rfl⟩

theorem runHigh (run : PageRun va 1) : slotOf va 4 ≠ 0 := by
  have first := (runPage run (j := 0) (by decide)).2
  rwa [BitVec.add_zero] at first

/- A page that is mapped can be zeroed. -/
theorem mappedLoads (loading : Loading frames m done) (run : PageRun va 1) (new : pageNumber va ∉ done)
    (maps : (m.takeFrame.vmmMap va m.pmm.allocFrame.2 vmUserRw).2 = 0) : ∃ m', m.mapZeroedPage va = some m' := by
  have mapped := loadingMapped loading (runHigh run) new maps
  have length : (List.replicate 4096 (0 : BitVec 8)).length = 4096 := List.length_replicate
  have below := run.below
  unfold Memory.mapZeroedPage
  generalize List.replicate 4096 (0 : BitVec 8) = bytes at length ⊢
  refine writeSome (fun j low => mapped.data _ ?_) (by omega)
  rw [pageBytes run.aligned (length ▸ low)]
  exact Set.mem_insert _ _

/- The programs lie one above the other, 1 MiB apart at least. -/
theorem progBelow {image : List (BitVec 8)} {base : Word} {bases : List Word} (placed : ProgPlaced ⟨image,base,base + 0x80000⟩)
    (lowest : ∀ b ∈ bases, base.toNat + 0x80000 ≤ b.toNat) (below : ∀ q ∈ done, ∀ b ∈ base :: bases, q < b.toNat / 4096) :
    ∀ q ∈ done ∪ progPages ⟨image,base,base + 0x80000⟩, ∀ b ∈ bases, q < b.toNat / 4096 := by
  intro q member b later
  have above := lowest b later
  have bottom := stackBottom placed
  dsimp only at bottom
  rcases member with old | image | stack
  · exact below q old b (List.mem_cons_of_mem _ later)
  · have inside : base.toNat / 4096 ≤ q ∧ q < base.toNat / 4096 + 16 := Set.mem_Ico.mp image
    omega
  · have inside : (base + 0x80000 - 0x4000).toNat / 4096 ≤ q ∧ q < (base + 0x80000 - 0x4000).toNat / 4096 + 4 := Set.mem_Ico.mp stack
    rw [bottom] at inside
    omega

theorem progAhead {base : Word} {bases : List Word} (below : ∀ q ∈ done, ∀ b ∈ base :: bases, q < b.toNat / 4096) :
    ∀ q ∈ runPages base 128, q ∉ done := by
  intro q member old
  have inside := Set.mem_Ico.mp member
  have before := below q old base List.mem_cons_self
  omega

theorem progsLoading {images : List (List (BitVec 8))} {bases : List Word} (loading : Loading frames m done)
    (placed : ∀ base ∈ bases, PageRun base 128) (apart : bases.Pairwise fun a b => a.toNat + 0x80000 ≤ b.toNat)
    (below : ∀ q ∈ done, ∀ base ∈ bases, q < base.toNat / 4096)
    (loaded : (List.zipWith (fun image base => (⟨image,base,base + 0x80000⟩ : Prog)) images bases).foldlM Memory.loadOne m = some m') :
    ∃ done, Loading frames m' done := by
  induction bases generalizing images m done with
  | nil =>
    rw [List.zipWith_nil_right] at loaded
    cases loaded
    exact ⟨done,loading⟩
  | cons base bases ih =>
    cases images with
    | nil =>
      cases loaded
      exact ⟨done,loading⟩
    | cons image images =>
      rw [List.zipWith_cons_cons,List.foldlM_cons] at loaded
      obtain ⟨m₁,first,rest⟩ := Option.bind_eq_some_iff.mp loaded
      obtain ⟨lowest,apart⟩ := List.pairwise_cons.mp apart
      have mine : ProgPlaced ⟨image,base,base + 0x80000⟩ := ⟨placed base List.mem_cons_self,rfl⟩
      have loading₁ := progLoading loading mine (progAhead below) first
      exact ih loading₁ (fun b member => placed b (List.mem_cons_of_mem _ member)) apart (progBelow mine lowest below) rest

theorem basesPlaced : (∀ base ∈ progBases, PageRun base 128) ∧ progBases.Pairwise fun a b => a.toNat + 0x80000 ≤ b.toNat := by
  constructor
  · intro base member
    have each : progBases.all fun base => base.toNat % 4096 = 0 ∧ 2 ^ 39 ≤ base.toNat ∧ base.toNat + 128 * 4096 ≤ 2 ^ 47 := by decide +kernel
    obtain ⟨aligned,above,below⟩ := of_decide_eq_true (List.all_eq_true.mp each base member)
    exact ⟨aligned,above,below⟩
  · decide +kernel

end
section
variable {image : KernelImage} {tables : LoaderTables image} {info : BootInfo} {words : Words} {before : Nat → BitVec 8} {m : Memory}
  {images : List (List (BitVec 8))}

/- The identity map stands in large pages. -/
theorem bootLarge : (bootMemory tables info words before).Large 0x200000 := by
  have third : (bootMemory tables info words before).layout.table (bootMemory tables info words before).words (pathOf 0x200000 2) =
      some (tables.pml4 + 2) := by
    have path : pathOf 0x200000 2 = List.replicate 2 0 := by decide
    rw [path]
    exact bootLink (Nat.le_refl 2)
  obtain ⟨above,size,rest⟩ := traceTo third (by decide)
  have index : (slotOf 0x200000 2).val = 1 := by decide
  have entry : (bootMemory tables info words before).words ((bootMemory tables info words before).layout.cell (tables.pml4 + 2) (slotOf 0x200000 2)) =
      BitVec.ofNat 64 (1 * 0x200000) ||| 0x83 := by
    rw [bootCell _ (by decide),index,loaderEntry]
    exact if_neg (by decide)
  have step := traceSucc (bootMemory tables info words before) 0x200000 (tableLow third) 1
  dsimp only at step
  rw [entry,if_neg (by decide),if_pos (by decide),if_neg (by decide)] at step
  refine ⟨above ++ [_],rest.trans (by rw [step]; rfl),?_⟩
  rw [List.length_append,size]
  decide

/- Nothing is mapped yet but the identity map, and no frame is taken. -/
theorem bootLoading (bounded : Pmm.Bounded info) (placed : 0 < tables.pml4) :
    Loading (Pmm.pmmInit image info before).freeSet (bootMemory tables info words before) ∅ := by
  refine ⟨bootTree bounded,fun f member taken => absurd member taken,fun p there => ?_,fun va member => absurd member (Set.notMem_empty _),
    fun va high _ => ?_,fun f p n i maps => ?_,bootLarge,Finset.Subset.refl _⟩
  · obtain ⟨_,_,zero⟩ := bootTables there
    omega
  · refine ⟨0,tables.pml4 + 0,by decide,bootLink (Nat.zero_le 2),?_⟩
    have index : (slotOf va (4 - 0)).val ≠ 0 := fun zero => high (Fin.ext zero)
    have small : (slotOf va (4 - 0)).val < 512 := (slotOf va 4).isLt
    rw [bootCell (slotOf va (4 - 0)) (by decide),loaderEntry,if_neg (by omega),if_neg (by omega),if_neg (by omega)]
    decide
  · obtain ⟨short,_,_⟩ := bootTables maps.here
    have depth := maps.depth
    omega

/- After the loader every frame that was taken is a table or the frame of a page. -/
theorem rootfsLoading (bounded : Pmm.Bounded info) (placed : 0 < tables.pml4)
    (loaded : (bootMemory tables info words before).rootfsLoadAll images = some m) :
    ∃ done, Loading (Pmm.pmmInit image info before).freeSet m done :=
  progsLoading (bootLoading bounded placed) basesPlaced.1 basesPlaced.2 (fun q member => absurd member (Set.notMem_empty q)) loaded

end
end Mukern
