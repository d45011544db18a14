import Mukern.FreshPages
import Mukern.LoadBudget
import Mukern.Protocol
import Mukern.ThreadMemory
import Mukern.UserMappings

/-! The window of the heap that `vm_server` pages in on demand. A page of it is not mapped,
or it has a frame of its own that Ring 3 may read and write. -/
namespace Mukern
open RadixTree Layout

/- What Ring 3 reads at `va`. -/
def Memory.userLoad (m : Memory) (va : Word) : Option (BitVec 8) := (m.userAccess va false).map m.words.byte

structure HeapPages (m : Memory) : Prop where
  tree : PageTree m
  links : LinkFlags m
  page : ∀ va, InHeap va → m.trace va = none ∨ ∃ f, Backed m va f ∧ Usable m va
  apart : ∀ va va' f, InHeap va → InHeap va' → Backed m va f → Backed m va' f → pageNumber va' = pageNumber va

section
variable {m m' : Memory} {va va' pa flags : Word} {f f' : Nat} {b : BitVec 8}

theorem heapPlace (inside : InHeap va) : va.toNat < 2 ^ 47 ∧ slotOf va 4 ≠ 0 := by
  obtain ⟨above,below⟩ := inside
  rw [BitVec.le_def] at above
  rw [BitVec.lt_def] at below
  have low : Code.heapLo.toNat = 0x400000400000 := by decide
  have high : Code.heapHi.toNat = 0x400000410000 := by decide
  refine ⟨by omega,fun zero => ?_⟩
  have index := congrArg Fin.val zero
  simp only [slotOf,Fin.val_zero] at index
  omega

theorem Usable.access (usable : Usable m va) (backed : Backed m va f) (low : va.toNat < 2 ^ 47) (write : Bool) :
    m.userAccess va write = some (f * 4096 + va.toNat % 4096) := by
  obtain ⟨pa,walks⟩ := usable.walk
  have access := backed.access low
  rw [Memory.kernelAccess,if_pos (canonicalLow low),walks] at access
  rw [Memory.userAccess,if_pos (canonicalLow low),walks]
  cases write <;> exact access

theorem unmappedAccess (unmapped : m.trace va = none) (write : Bool) : m.userAccess va write = none := by
  rw [Memory.userAccess,walkUnmapped unmapped]
  split <;> rfl

theorem Backed.mapped (backed : Backed m va f) : m.trace va ≠ none := by
  obtain ⟨above,e,trace,_⟩ := backed.entry
  rw [trace]
  exact Option.some_ne_none _

theorem Usable.same (usable : Usable m va) (trace : m'.trace va = m.trace va) : Usable m' va := by
  obtain ⟨entries,read,size,all⟩ := usable.levels
  exact usableLevels (trace.trans read) size all

theorem Usable.page (usable : Usable m va) (same : pageNumber va' = pageNumber va) : Usable m va' := by
  obtain ⟨entries,read,size,all⟩ := usable.levels
  exact usableLevels ((leafSame same).trans read) size all

/- The page that `SYS_MAP` maps has a frame that was free. -/
theorem freshBacked (tree : PageTree m) (free : m.pmm.freeSet ≠ ∅) (maps : (m.takeFrame.vmmMap va m.pmm.allocFrame.2 vmUserRw).2 = 0) :
    ∃ f ∈ m.pmm.freeSet, Backed (m.takeFrame.vmmMap va m.pmm.allocFrame.2 vmUserRw).1 va f := by
  obtain ⟨f,member,_,_,frame,set⟩ := takeFree tree free
  have tree₁ := takeTree tree
  rcases mapHangs tree₁ va m.pmm.allocFrame.2 vmUserRw with ⟨_,fails⟩ | ⟨m₁,n,hangs,here,result⟩
  · rw [fails] at maps
    cases maps
  · have grown := hangs.grown tree₁
    have notFree : f ∉ m.takeFrame.pmm.freeSet := by
      rw [set]
      exact Finset.notMem_erase f _
    have notTable : ∀ p, m₁.layout.table m₁.words p ≠ some f := by
      intro p there
      rcases hangs.fresh tree₁ there with before | free
      · exact tree.live p f before member
      · exact notFree free
    obtain ⟨above,size,trace⟩ := leafOwn (v := leafEntry m.pmm.allocFrame.2 vmUserRw) here grown.tree
    rw [if_neg (leafPresent _ _)] at trace
    rw [result]
    exact ⟨f,member,⟨above,_,trace,size,(leafFrame _ _).trans frame⟩,fun p there => notTable p ((leafTable here grown.tree).symm.trans there),
      fun free => notFree (grown.free free)⟩

theorem freshOther (tree : PageTree m) (other : pageNumber va' ≠ pageNumber va) : (m.mapFresh va).trace va' = m.trace va' := by
  unfold Memory.mapFresh
  split
  · exact mapOther (takeTree tree) other
  · rfl

/- `SYS_MAP` of the page finds a frame, and the tables for it. -/
structure Memory.MapsFresh (m : Memory) (va : Word) : Prop where
  frame : m.pmm.allocFrame.2 ≠ 0
  maps : (m.takeFrame.vmmMap va m.pmm.allocFrame.2 vmUserRw).2 = 0

theorem Memory.MapsFresh.result (fresh : m.MapsFresh va) : m.mapFresh va = (m.takeFrame.vmmMap va m.pmm.allocFrame.2 vmUserRw).1 := if_pos fresh.frame

theorem Memory.MapsFresh.backed (fresh : m.MapsFresh va) (tree : PageTree m) : ∃ f ∈ m.pmm.freeSet, Backed (m.mapFresh va) va f := by
  rw [fresh.result]
  exact freshBacked tree (fun empty => fresh.frame (congrArg Prod.snd (takeNone empty))) fresh.maps

/- The tables of the page stay, and four frames are taken at most. -/
theorem mapsFresh (tree : PageTree m) (free : m.pmm.freeSet ≠ ∅) (room : Room m.takeFrame va) : m.MapsFresh va ∧
    (∃ n, (m.mapFresh va).layout.table (m.mapFresh va).words (pathOf va 3) = some n) ∧ m.pmm.freeSet.card ≤ (m.mapFresh va).pmm.freeSet.card + 4 := by
  obtain ⟨f,member,_,nonzero,_,set⟩ := takeFree tree free
  obtain ⟨m₁,n,hangs,here,few,result⟩ := mapRoom (takeTree tree) room m.pmm.allocFrame.2 vmUserRw
  have fresh : m.MapsFresh va := ⟨nonzero,by rw [result]⟩
  have taken : m.takeFrame.pmm.freeSet.card + 1 = m.pmm.freeSet.card := by rw [set,Finset.card_erase_add_one member]
  refine ⟨fresh,?_,?_⟩ <;> rw [fresh.result,result]
  · exact ⟨n,(leafTable here (hangs.grown (takeTree tree)).tree).trans here⟩
  · have same : (m₁.putLeaf va n (leafEntry m.pmm.allocFrame.2 vmUserRw)).pmm.freeSet.card = m₁.pmm.freeSet.card := rfl
    dsimp only
    omega

/- Every byte of the window that Ring 3 sees stays where it is. -/
def HeapStays (m m' : Memory) : Prop := ∀ va, InHeap va → m.trace va ≠ none → m'.userAccess va = m.userAccess va ∧ m'.userLoad va = m.userLoad va

theorem HeapStays.same (memory : m' = m) : HeapStays m m' := by
  subst memory
  exact fun _ _ _ => ⟨rfl,rfl⟩

namespace HeapPages
variable (pages : HeapPages m)
include pages

theorem unmapped (inside : InHeap va) {write : Bool} (faults : m.userAccess va write = none) : m.trace va = none := by
  rcases pages.page va inside with unmapped | ⟨f,backed,usable⟩
  · exact unmapped
  · cases (usable.access backed (heapPlace inside).1 write).symm.trans faults

/- The window as before, in other tables. -/
theorem same (tree : PageTree m') (links : LinkFlags m') (trace : ∀ va, InHeap va → m'.trace va = m.trace va)
    (backed : ∀ va f, InHeap va → Backed m va f → Backed m' va f) : HeapPages m' := by
  have back : ∀ va f, InHeap va → Backed m' va f → Backed m va f := by
    intro va f inside after
    rcases pages.page va inside with unmapped | ⟨f₀,before,_⟩
    · exact absurd ((trace va inside).trans unmapped) after.mapped
    · obtain rfl := after.unique (backed va f₀ inside before)
      exact before
  refine ⟨tree,links,fun va inside => ?_,fun va va' f inside inside' here there =>
    pages.apart va va' f inside inside' (back va f inside here) (back va' f inside' there)⟩
  rcases pages.page va inside with unmapped | ⟨f,before,usable⟩
  · exact .inl ((trace va inside).trans unmapped)
  · exact .inr ⟨f,backed va f inside before,usable.same (trace va inside)⟩

/- `vmm_map` outside the window. -/
theorem map (other : ∀ va', InHeap va' → pageNumber va' ≠ pageNumber va) (pa flags : Word) : HeapPages (m.vmmMap va pa flags).1 :=
  pages.same (mapTree pages.tree) (pages.links.map pages.tree va pa flags) (fun va' inside => mapOther pages.tree (other va' inside))
    fun va' _ inside backed => (mapStays pages.tree (other va' inside) pa flags backed).backed

theorem take : HeapPages m.takeFrame :=
  pages.same (takeTree pages.tree) ⟨pages.links.link,pages.links.identity⟩ (fun _ _ => rfl) fun _ _ _ backed => (takeStays backed).backed

/- `SYS_MAP` of a page that is not mapped. -/
theorem fresh (inside : InHeap va) (unmapped : m.trace va = none) : HeapPages (m.mapFresh (pageAlignDown va)) := by
  have number := alignedPage va
  have own : ∀ {va' f}, Backed m va' f → pageNumber va' ≠ pageNumber (pageAlignDown va) := by
    intro va' f backed same
    exact backed.mapped ((leafSame (same.trans number)).trans unmapped)
  have taken := pages.take
  have tree : PageTree (m.takeFrame.vmmMap (pageAlignDown va) m.pmm.allocFrame.2 vmUserRw).1 := mapTree taken.tree
  have links := taken.links.map taken.tree (pageAlignDown va) m.pmm.allocFrame.2 vmUserRw
  have stays {va' f'} (backed : Backed m va' f') : Backed (m.takeFrame.vmmMap (pageAlignDown va) m.pmm.allocFrame.2 vmUserRw).1 va' f' :=
    (mapStays taken.tree (own backed) _ _ (takeStays backed).backed).backed
  unfold Memory.mapFresh
  split
  swap
  · exact taken
  rename_i nonzero
  by_cases maps : (m.takeFrame.vmmMap (pageAlignDown va) m.pmm.allocFrame.2 vmUserRw).2 = 0
  swap
  · exact pages.same tree links (fun va' _ => mapFails taken.tree maps) fun va' f' _ backed => stays backed
  obtain ⟨f,member,backed⟩ := freshBacked pages.tree (fun empty => nonzero (congrArg Prod.snd (takeNone empty))) maps
  have high : slotOf (pageAlignDown va) 4 ≠ 0 := by
    have path := pagePath number
    simp only [pathOf,List.cons.injEq] at path
    rw [path.2.2.2.1]
    exact (heapPlace inside).2
  have usable := (taken.links.mapped taken.tree maps).mpr high
  have other : ∀ va', pageNumber va' ≠ pageNumber (pageAlignDown va) →
      (m.takeFrame.vmmMap (pageAlignDown va) m.pmm.allocFrame.2 vmUserRw).1.trace va' = m.trace va' := fun va' apart => mapOther taken.tree apart
  generalize (m.takeFrame.vmmMap (pageAlignDown va) m.pmm.allocFrame.2 vmUserRw).1 = after at *
  have before : ∀ va' f', InHeap va' → Backed after va' f' → pageNumber va' = pageNumber (pageAlignDown va) ∧ f' ∈ m.pmm.freeSet ∨ Backed m va' f' := by
    intro va' f' inside' there
    by_cases same : pageNumber va' = pageNumber (pageAlignDown va)
    · obtain rfl := (backed.page same).unique there
      exact .inl ⟨same,member⟩
    · rcases pages.page va' inside' with absent | ⟨g,old,_⟩
      · exact absurd ((other va' same).trans absent) there.mapped
      · obtain rfl := (stays old).unique there
        exact .inr old
  refine ⟨tree,links,fun va' inside' => ?_,fun va₁ va₂ g inside₁ inside₂ here there => ?_⟩
  · by_cases same : pageNumber va' = pageNumber (pageAlignDown va)
    · exact .inr ⟨f,backed.page same,usable.page same⟩
    · rcases pages.page va' inside' with absent | ⟨g,old,open'⟩
      · exact .inl ((other va' same).trans absent)
      · exact .inr ⟨g,stays old,open'.same (other va' same)⟩
  · rcases before va₁ g inside₁ here with ⟨same₁,free₁⟩ | old₁ <;> rcases before va₂ g inside₂ there with ⟨same₂,free₂⟩ | old₂
    · exact same₂.trans same₁.symm
    · exact absurd free₁ old₂.notFree
    · exact absurd free₂ old₁.notFree
    · exact pages.apart va₁ va₂ g inside₁ inside₂ old₁ old₂

/- A byte that Ring 3 stores in the window. -/
theorem stored (inside : InHeap va) (written : m.userStore va b = some m') : HeapPages m' ∧
    ∀ va', InHeap va' → m'.userAccess va' = m.userAccess va' ∧ m'.userLoad va' = if va' = va then some b else m.userLoad va' := by
  obtain ⟨pa,access,rfl⟩ := Option.map_eq_some_iff.mp written
  rcases pages.page va inside with unmapped | ⟨f,backed,usable⟩
  · cases (unmappedAccess unmapped true).symm.trans access
  cases (usable.access backed (heapPlace inside).1 true).symm.trans access
  have offset : (f * 4096 + va.toNat % 4096) / 4096 = f := by omega
  have kept : TablesKept m { m with words := m.words.store [(f * 4096 + va.toNat % 4096,b)] } := by
    refine storeKept fun pa member => ?_
    obtain rfl := List.mem_singleton.mp member
    rintro ⟨p,there⟩
    rw [offset] at there
    exact backed.notTable p there
  have after : HeapPages { m with words := m.words.setByte (f * 4096 + va.toNat % 4096) b } :=
    pages.same (kept.tree pages.tree) (pages.links.same (fun q => kept.table) fun j q u _ there => kept.apart q u j there)
      (fun _ _ => kept.trace) fun _ _ _ backed => kept.backed.mpr backed
  refine ⟨after,fun va' inside' => ?_⟩
  rcases pages.page va' inside' with unmapped | ⟨f',backed',usable'⟩
  · have absent : Memory.trace { m with words := m.words.setByte (f * 4096 + va.toNat % 4096) b } va' = none := kept.trace.trans unmapped
    have other : va' ≠ va := by
      rintro rfl
      exact backed.mapped unmapped
    refine ⟨funext fun write => (unmappedAccess absent write).trans (unmappedAccess unmapped write).symm,?_⟩
    rw [if_neg other,Memory.userLoad,Memory.userLoad,unmappedAccess absent,unmappedAccess unmapped]
    rfl
  · have low := (heapPlace inside').1
    have there : ∀ write, Memory.userAccess { m with words := m.words.setByte (f * 4096 + va.toNat % 4096) b } va' write =
        some (f' * 4096 + va'.toNat % 4096) := (usable'.same kept.trace).access (kept.backed.mpr backed') low
    have before := usable'.access backed' low
    refine ⟨funext fun write => (there write).trans (before write).symm,?_⟩
    rw [Memory.userLoad,Memory.userLoad,there,before]
    by_cases same : va' = va
    · obtain rfl := backed.unique (same ▸ backed')
      rw [if_pos same,same]
      exact congrArg some Words.setByteOwn
    · rw [if_neg same]
      refine congrArg some (Words.setByteOther fun place => same ?_)
      have frame : f' = f := by omega
      have page := pages.apart va va' f inside inside' backed (frame ▸ backed')
      have bound := (heapPlace inside).1
      unfold pageNumber at page
      exact BitVec.eq_of_toNat_eq (by omega)

/- The byte that Ring 3 sees at `va` stays where it is. -/
theorem keeps (inside : InHeap va) (mapped : m.trace va ≠ none) (stays : ∀ f, Backed m va f → Stays m m' va f) (trace : m'.trace va = m.trace va) :
    m'.userAccess va = m.userAccess va ∧ m'.userLoad va = m.userLoad va := by
  rcases pages.page va inside with unmapped | ⟨f,backed,usable⟩
  · exact absurd unmapped mapped
  have low := (heapPlace inside).1
  have after := stays f backed
  have before := usable.access backed low
  have there := (usable.same trace).access after.backed low
  refine ⟨funext fun write => (there write).trans (before write).symm,?_⟩
  have load := after.load backed low
  rw [after.backed.load low,backed.load low] at load
  rw [Memory.userLoad,Memory.userLoad,there,before]
  exact load

theorem mapKeeps (other : ∀ va', InHeap va' → pageNumber va' ≠ pageNumber va) (pa flags : Word) : HeapStays m (m.vmmMap va pa flags).1 :=
  fun va' inside mapped => pages.keeps inside mapped (fun _ backed => mapStays pages.tree (other va' inside) pa flags backed)
    (mapOther pages.tree (other va' inside))

theorem freshKeeps (unmapped : m.trace va = none) : HeapStays m (m.mapFresh (pageAlignDown va)) := by
  intro va' inside mapped
  have other : pageNumber va' ≠ pageNumber (pageAlignDown va) := fun same => mapped ((leafSame (same.trans (alignedPage va))).trans unmapped)
  exact pages.keeps inside mapped (fun _ backed => freshStays pages.tree other backed) (freshOther pages.tree other)

end HeapPages
end

section
variable {image : KernelImage} {tables : LoaderTables image} {info : BootInfo} {words : Words} {before : Nat → BitVec 8} {m m' : Memory}
  {images : List (List (BitVec 8))} {frames : Finset Nat} {done : List Word} {va : Word}

/- The loader links its tables like any other, and maps the pages of the programs only. -/
theorem actsLinks {acts : List LoadAct} (loading : Loading frames m (numbers done)) (links : LinkFlags m) (ordered : Ordered done acts)
    (loaded : acts.foldlM LoadAct.run m = some m') : Loading frames m' (numbers ((pagesOf acts).reverse ++ done)) ∧ LinkFlags m' := by
  induction acts generalizing m done with
  | nil =>
    cases loaded
    exact ⟨loading,links⟩
  | cons act acts ih =>
    rw [List.foldlM_cons] at loaded
    obtain ⟨m₁,first,rest⟩ := Option.bind_eq_some_iff.mp loaded
    cases act with
    | page va =>
      obtain ⟨⟨run,new⟩,ordered⟩ := ordered
      have first : m.mapZeroedPage va = some m₁ := first
      have kept := pageKept loading (runHigh run) run.aligned new first
      have taken : LinkFlags m.takeFrame := ⟨links.link,links.identity⟩
      have mapped := taken.map (takeTree loading.tree) va m.pmm.allocFrame.2 vmUserRw
      rw [← reversedPages]
      exact ih (numbersCons ▸ pageLoading loading (runHigh run) run.aligned new first)
        (mapped.same (fun q => kept.table) fun j q u _ there => kept.apart q u j there) ordered rest
    | copy pr =>
      obtain ⟨⟨run,mapped,behind⟩,ordered⟩ := ordered
      have first : m.writeBytes pr.base pr.image = some m₁ := first
      have short := copyShort loading (runPage run (j := 65536) (by decide)).2 behind first
      have image : PageRun pr.base 16 := ⟨run.aligned,run.above,by have := run.below; omega⟩
      have kept := writeKept (fun j low => loading.data _ (imageMapped image mapped short j low)) first
      exact ih (kept.loading loading) (links.same (fun q => kept.table) fun j q u _ there => kept.apart q u j there) ordered rest

/- No program lies in the window. -/
theorem heapUnloaded (inside : InHeap va) : pageNumber va ∉ numbers (pagesOf (loadActs images)).reverse := by
  rintro ⟨va',member,same⟩
  rw [List.mem_reverse,pagesActs] at member
  obtain ⟨pr,listed,within⟩ := List.mem_flatMap.mp member
  obtain ⟨placed,based,_⟩ := progsPlaced basesPlaced.1 pr listed
  have page : pageNumber va ∈ progPages pr := by
    rw [← progPagesNumbers placed]
    exact ⟨va',List.mem_reverse.mpr within,same⟩
  have each : progBases.all fun base => base.toNat + 0x80000 ≤ Code.heapLo.toNat ∨ Code.heapHi.toNat ≤ base.toNat := by decide +kernel
  have beside := of_decide_eq_true (List.all_eq_true.mp each pr.base based)
  have bottom := stackBottom placed
  obtain ⟨bounds,low⟩ : (Code.heapLo.toNat ≤ va.toNat ∧ va.toNat < Code.heapHi.toNat) ∧ va.toNat < 2 ^ 47 :=
    ⟨⟨BitVec.le_def.mp inside.1,BitVec.lt_def.mp inside.2⟩,(heapPlace inside).1⟩
  have aligned : Code.heapLo.toNat % 4096 = 0 ∧ Code.heapHi.toNat % 4096 = 0 ∧ pr.base.toNat % 4096 = 0 := ⟨by decide,by decide,placed.run.aligned⟩
  rw [pageNumber] at page
  rcases page with image | stack
  · have within := Set.mem_Ico.mp image
    omega
  · have within := Set.mem_Ico.mp stack
    omega

/- When the loader is done, the window is empty. -/
theorem loadedHeap (bounded : Pmm.Bounded info) (placed : 0 < tables.pml4) (loaded : (bootMemory tables info words before).rootfsLoadAll images = some m) :
    HeapPages m ∧ ∀ va, InHeap va → ∃ k n, Frontier m va k n := by
  have start : Loading (Pmm.pmmInit image info before).freeSet (bootMemory tables info words before) _ := (bootProvided bounded placed).loading
  obtain ⟨loading,links⟩ := actsLinks start bootLinks bootOrdered (rootfsActs.symm.trans loaded)
  rw [List.append_nil] at loading
  have frontier : ∀ va, InHeap va → ∃ k n, Frontier m va k n := fun va inside => loading.rest va (heapPlace inside).2 (heapUnloaded inside)
  have unmapped : ∀ va, InHeap va → m.trace va = none := by
    intro va inside
    obtain ⟨k,n,frontier⟩ := frontier va inside
    exact frontier.trace
  exact ⟨⟨loading.tree,links,fun va inside => .inl (unmapped va inside),
    fun va _ f inside _ backed => absurd (unmapped va inside) backed.mapped⟩,frontier⟩

end
end Mukern
