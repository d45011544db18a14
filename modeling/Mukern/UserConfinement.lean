import Mukern.FrameLeaks
import Mukern.UserMappings

/-! Which frames Ring 3 reaches: those that `pmm_init` has freed, and the devices that the
root task maps. The rest of memory is the kernel's. -/
namespace Mukern
open Kernel RadixTree Layout

/- The frames of a machine: those that the allocator has to give, those of devices and the
loader's tables. `origin` is what memory held before the programs were loaded. -/
structure Allotment where
  frames : Set Nat
  devices : Set Nat
  loader : Set Nat
  origin : Words
  apart : ∀ f ∈ devices, f ∉ frames ∧ f ∉ loader

/- No frame of these is the kernel's alone. -/
def Allotment.given (A : Allotment) : Set Nat := A.frames ∪ A.devices ∪ A.loader

/- A page outside the first entry of the PML4 is not mapped, or it has a frame of the
allocator's or of a device, which is no table and not free. -/
structure Contained (A : Allotment) (m : Memory) : Prop where
  tree : PageTree m
  links : LinkFlags m
  fewer : ∀ f ∈ m.pmm.freeSet, f ∈ A.frames
  tables : ∀ p t, m.layout.table m.words p = some t → t ∈ A.frames ∨ t ∈ A.loader
  page : ∀ va, slotOf va 4 ≠ 0 → m.trace va = none ∨ ∃ f ∈ A.frames ∪ A.devices, Backed m va f
  rest : ∀ a, a / 512 ∉ A.given → m.words a = A.origin a

/- `SYS_RECV` copies a message to where Ring 3 could write itself, and `SYS_MAP_PHYS` maps devices. -/
structure Discreet (devices : Set Nat) (k : Kernel) (input : Input) : Prop where
  copy : ∀ rsi, copied k input = some (rsi,true) → Trespasses k input = false
  mapPhys : ∀ tf, Acting k 0 → IsCall input .mapPhys tf → entryFrame tf.rsi ∈ devices

section
variable {A : Allotment} {m m' : Memory} {va pa v : Word} {n f : Nat}

theorem accessKernel {write : Bool} {pa : Nat} (access : m.userAccess va write = some pa) : m.kernelAccess va = some pa := by
  unfold Memory.userAccess at access
  split at access
  · rename_i valid
    split at access
    · rename_i t found
      split at access
      · rw [Memory.kernelAccess,if_pos valid,found]
        exact access
      · cases access
    · cases access
  · cases access

/- The loader's first link is closed to Ring 3. -/
theorem LinkFlags.closed (links : LinkFlags m) (zero : slotOf va 4 = 0) (write : Bool) : m.userAccess va write = none := by
  obtain ⟨directory,there,_⟩ := links.identity
  obtain ⟨below,first,_⟩ := Layout.tableParent there
  have here : m.layout.table m.words (pathOf va 1) = some below := by
    rw [pathOf,pathOf,zero]
    exact first
  obtain ⟨above,size,rest,entries⟩ := traceThrough here (by decide)
  obtain ⟨root,top,entry⟩ := entries 0 (by decide)
  rw [pathOf] at top
  have flags := links.link 0 [] root below top first
  rw [if_pos (by simp)] at flags
  rw [zero] at entry
  generalize m.words (m.layout.cell root 0) = e at flags entry
  have user : (e &&& pteUser != 0) = false := by
    have inner : e &&& vmUserRw &&& pteUser = 3 &&& pteUser := congrArg (· &&& pteUser) flags
    rw [BitVec.and_assoc,show vmUserRw &&& pteUser = pteUser from by decide] at inner
    rw [inner]
    decide
  unfold Memory.userAccess
  split
  · cases trace : m.trace va with
    | none => rw [walkUnmapped trace]
    | some entries =>
      obtain ⟨pa,walks⟩ := walkGrants trace (w := true) (u := true)
      rw [rest] at trace
      obtain ⟨last,_,rfl⟩ := Option.map_eq_some_iff.mp trace
      have shut : (above ++ last).all (· &&& pteUser != 0) = false :=
        List.all_eq_false.mpr ⟨e,List.mem_append_left _ (List.mem_of_getElem? entry),by rw [user]; decide⟩
      rw [shut] at walks
      have walks' : m.walk va = some ⟨pa,_,_⟩ := walks
      rw [walks']
      rfl
  · rfl

namespace Contained

theorem place (h : Contained A m) (high : slotOf va 4 ≠ 0) {pa : Nat} (access : m.kernelAccess va = some pa) :
    pa / 4096 ∈ A.frames ∪ A.devices ∧ pa / 4096 ∉ m.pmm.freeSet ∧ ¬ InTable m pa := by
  rcases h.page va high with unmapped | ⟨f,member,backed⟩
  · unfold Memory.kernelAccess at access
    rw [walkUnmapped unmapped] at access
    split at access <;> cases access
  · obtain ⟨above,e,trace,size,rfl⟩ := backed.entry
    have frame : pa / 4096 = entryFrame e := by
      rw [accessMapped trace size access]
      omega
    rw [InTable,frame]
    exact ⟨member,backed.notFree,fun ⟨p,there⟩ => backed.notTable p there⟩

/- What Ring 3 reaches at all. -/
theorem reached (h : Contained A m) {write : Bool} {pa : Nat} (access : m.userAccess va write = some pa) :
    pa / 4096 ∈ A.frames ∪ A.devices ∧ pa / 4096 ∉ m.pmm.freeSet ∧ ¬ InTable m pa := by
  refine h.place (fun zero => ?_) (accessKernel access)
  rw [h.links.closed zero] at access
  cases access

/- What is stored in such bytes leaves the tables alone. -/
theorem store (h : Contained A m) {writes : List (Nat × BitVec 8)}
    (inside : ∀ pa ∈ writes.map Prod.fst, pa / 4096 ∈ A.frames ∪ A.devices ∧ ¬ InTable m pa) :
    Contained A { m with words := m.words.store writes } := by
  have kept : TablesKept m { m with words := m.words.store writes } := storeKept fun pa member => (inside pa member).2
  refine ⟨kept.tree h.tree,h.links.same (fun q => kept.table) fun j q u _ there => kept.apart q u j there,h.fewer,
    fun p t there => h.tables p t (kept.table.symm.trans there),fun va high => ?_,fun a kernel => ?_⟩
  · rcases h.page va high with unmapped | ⟨f,member,backed⟩
    · exact .inl (kept.trace.trans unmapped)
    · exact .inr ⟨f,member,kept.backed.mpr backed⟩
  · refine (storeWord fun pa member same => kernel ?_).trans (h.rest a kernel)
    have frame : pa / 4096 = a / 512 := by omega
    exact frame ▸ .inl (inside pa member).1

/- A copy of the kernel outside the first entry of the PML4. -/
theorem write (h : Contained A m) {bytes : List (BitVec 8)} (high : ∀ j < bytes.length, slotOf (va + BitVec.ofNat 64 j) 4 ≠ 0)
    (written : m.writeBytes va bytes = some m') : Contained A m' := by
  obtain ⟨span,found,rfl⟩ := Option.map_eq_some_iff.mp written
  obtain ⟨length,each⟩ := spanAccess found
  refine h.store fun pa member => ?_
  rw [List.map_fst_zip (by rw [length])] at member
  obtain ⟨j,inSpan,rfl⟩ := List.mem_iff_getElem.mp member
  have low : j < bytes.length := length ▸ inSpan
  have access := (each j low).1
  rw [List.getElem?_eq_getElem inSpan] at access
  obtain ⟨inside,_,notTable⟩ := h.place (high j low) access
  exact ⟨inside,notTable⟩

/- New tables are made of free frames. -/
theorem hangs (h : Contained A m) (hangs : Hangs m m') : Contained A m' := by
  have grown := hangs.grown h.tree
  have tables : ∀ p t, m'.layout.table m'.words p = some t → t ∈ A.frames ∨ t ∈ A.loader := by
    intro p t there
    rcases hangs.fresh h.tree there with before | free
    · exact h.tables p t before
    · exact .inl (h.fewer t free)
  refine ⟨grown.tree,h.links.hangs h.tree hangs,fun f free => h.fewer f (grown.free free),tables,fun va high => ?_,fun a kernel => ?_⟩
  · rcases h.page va high with unmapped | ⟨f,member,backed⟩
    · exact .inl ((grown.trace va).trans unmapped)
    · exact .inr ⟨f,member,(hangs.stays h.tree backed).backed⟩
  · refine (grown.outside a fun p n i there same => kernel ?_).trans (h.rest a kernel)
    have cell : m.layout.cell n i = n * 512 + i.val := rfl
    have inside : i.val < 512 := i.isLt
    rw [cell] at same
    have frame : a / 512 = n := by omega
    rw [frame]
    exact (tables p n there).elim (fun mine => .inl (.inl mine)) .inr

/- A leaf is written. -/
theorem put (h : Contained A m) (here : m.layout.table m.words (pathOf va 3) = some n) (present : v &&& ptePresent ≠ 0)
    (member : entryFrame v ∈ A.frames ∪ A.devices) (notTable : ∀ p, m.layout.table m.words p ≠ some (entryFrame v))
    (notFree : entryFrame v ∉ m.pmm.freeSet) : Contained A (m.putLeaf va n v) := by
  refine ⟨leafTree here h.tree,h.links.put h.tree here,h.fewer,fun p t there => h.tables p t ((leafTable here h.tree).symm.trans there),
    fun va' high => ?_,fun a kernel => ?_⟩
  · by_cases same : pageNumber va' = pageNumber va
    · obtain ⟨above,size,trace⟩ := leafOwn (v := v) here h.tree
      rw [if_neg present] at trace
      exact .inr ⟨entryFrame v,member,⟨⟨above,v,(leafSame same).trans trace,size,rfl⟩,
        fun p there => notTable p ((leafTable here h.tree).symm.trans there),notFree⟩⟩
    · rcases h.page va' high with unmapped | ⟨f,member,backed⟩
      · exact .inl ((leafOther here h.tree same).trans unmapped)
      · exact .inr ⟨f,member,(putStays h.tree here same backed).backed⟩
  · refine (putOther (tableLow here) fun same => kernel ?_).trans (h.rest a kernel)
    have cell : m.layout.cell n (slotOf va 1) = n * 512 + (slotOf va 1).val := rfl
    have inside := (slotOf va 1).isLt
    rw [cell] at same
    have frame : a / 512 = n := by omega
    rw [frame]
    exact (h.tables _ n here).elim (fun mine => .inl (.inl mine)) .inr

/- `vmm_map` of a frame that is no table and not free. -/
theorem map (h : Contained A m) (va : Word) (flags : Word) (member : entryFrame pa ∈ A.frames ∪ A.devices)
    (notTable : ∀ p, m.layout.table m.words p ≠ some (entryFrame pa)) (notFree : entryFrame pa ∉ m.pmm.freeSet) :
    Contained A (m.vmmMap va pa flags).1 := by
  rcases mapHangs h.tree va pa flags with ⟨hangs,_⟩ | ⟨m₁,n,hangs,here,result⟩
  · exact h.hangs hangs
  · rw [result]
    have grown := hangs.grown h.tree
    refine (h.hangs hangs).put here (leafPresent _ _) ?_ ?_ ?_ <;> rw [leafFrame]
    · exact member
    · intro p there
      rcases hangs.fresh h.tree there with before | free
      · exact notTable p before
      · exact notFree free
    · exact fun free => notFree (grown.free free)

theorem device (h : Contained A m) (va flags : Word) (member : entryFrame pa ∈ A.devices) : Contained A (m.vmmMap va pa flags).1 := by
  obtain ⟨notFrame,notLoader⟩ := A.apart _ member
  exact h.map va flags (.inr member) (fun p there => (h.tables p _ there).elim notFrame notLoader) fun free => notFrame (h.fewer _ free)

theorem take (h : Contained A m) : Contained A m.takeFrame := by
  have fewer : m.takeFrame.pmm.freeSet ⊆ m.pmm.freeSet := Pmm.allocFewer
  refine ⟨takeTree h.tree,⟨h.links.link,h.links.identity⟩,fun f free => h.fewer f (fewer free),h.tables,fun va high => ?_,h.rest⟩
  exact (h.page va high).imp_right fun ⟨f,member,backed⟩ => ⟨f,member,(takeStays backed).backed⟩

theorem takeMap (h : Contained A m) (va flags : Word) (free : m.pmm.freeSet ≠ ∅) : Contained A (m.takeFrame.vmmMap va m.pmm.allocFrame.2 flags).1 := by
  obtain ⟨f,member,_,_,frame,set⟩ := takeFree h.tree free
  refine h.take.map va flags ?_ ?_ ?_ <;> rw [frame]
  · exact .inl (h.fewer f member)
  · exact fun p there => h.tree.live p f there member
  · rw [set]
    exact Finset.notMem_erase f _

theorem fresh (h : Contained A m) (va : Word) : Contained A (m.mapFresh va) := by
  unfold Memory.mapFresh
  split
  · rename_i nonzero
    exact h.takeMap va vmUserRw fun empty => nonzero (congrArg Prod.snd (takeNone empty))
  · exact h.take

end Contained

variable {k : Kernel} {input : Input} {stackBase : Word}

/- The bytes of a copy that does not trespass are Ring 3's own. -/
theorem copyReached {rsi : Word} {span : List Nat} (source : copied k input = some (rsi,true)) (confined : Trespasses k input = false)
    (found : k.memory.kernelSpan rsi 32 = some span) : ∀ pa ∈ span, ∃ va, k.memory.userAccess va true = some pa := by
  intro pa member
  obtain ⟨length,each⟩ := spanAccess found
  obtain ⟨j,low,rfl⟩ := List.mem_iff_getElem.mp member
  have short : j < 32 := length ▸ low
  have touched : Touched k.memory rsi j := by
    intro i before
    obtain ⟨access,some⟩ := each i (by omega)
    rwa [access]
  have user := confinedIff.mpr ((trespassesIff source).mp confined) j short touched
  have access := (each j short).1
  rw [List.getElem?_eq_getElem low] at access
  exact ⟨_,userKernel user access⟩

theorem stepContained (coherent : Coherent k) (enabled : k.Enabled input) (discreet : Discreet A.devices k input) (h : Contained A k.memory) :
    Contained A (k.step input).memory := by
  have wrote := stepWrote coherent enabled
  generalize (k.step input).memory = memory at wrote
  cases wrote with
  | nothing => exact h
  | @message rsi msg _ source written =>
    obtain ⟨span,found,rfl⟩ := Option.map_eq_some_iff.mp written
    refine h.store fun pa member => ?_
    obtain ⟨⟨_,b⟩,pair,rfl⟩ := List.mem_map.mp member
    obtain ⟨va,access⟩ := copyReached source (discreet.copy rsi source) found _ (List.of_mem_zip pair).1
    obtain ⟨inside,_,notTable⟩ := h.reached access
    exact ⟨inside,notTable⟩
  | @stored va b _ call written =>
    obtain ⟨pa,access,rfl⟩ := Option.map_eq_some_iff.mp written
    have stored : k.memory.words.setByte pa b = k.memory.words.store [(pa,b)] := rfl
    rw [stored]
    refine h.store fun pa' member => ?_
    obtain rfl := List.mem_singleton.mp member
    obtain ⟨inside,_,notTable⟩ := h.reached access
    exact ⟨inside,notTable⟩
  | mapped acting call => exact h.fresh _
  | @mappedPhys tf acting call => exact h.device _ _ (discreet.mapPhys tf acting call)

theorem runContained (h : Contained A m) (reach : Transition.Reach (loadedMachine m stackBase) (Discreet A.devices) k) : Contained A k.memory := by
  have coherence : ∀ k, Transition.Reach (loadedMachine m stackBase) (Discreet A.devices) k → Coherent k :=
    fun k reach => reachCoherent (loadedReach reach)
  refine reach.invariantUnder (fun k => Contained A k.memory) coherence ?_ ?_
  · rintro _ rfl
    exact h
  · exact fun k input coherent kept enabled discreet => stepContained coherent enabled discreet kept

end

section
variable {image : KernelImage} {tables : LoaderTables image} {info : BootInfo} {words : Words} {before : Nat → BitVec 8} {m m' : Memory}
  {images : List (List (BitVec 8))} {frames : Finset Nat} {done : List Word} {acts : List LoadAct} {A : Allotment}

theorem orderedBehind {l : List LoadAct} (ordered : Ordered done (l ++ acts)) : Ordered ((pagesOf l).reverse ++ done) acts := by
  induction l generalizing done with
  | nil => exact ordered
  | cons act l ih =>
    cases act with
    | page va =>
      rw [← reversedPages]
      exact ih ordered.2
    | copy pr => exact ih ordered.2

/- A step of the loader, with a frame for its page. -/
theorem actContained {act : LoadAct} (h : Contained A m) (loading : Loading frames m (numbers done)) (ordered : Ordered done (act :: acts))
    (free : ∀ va, act = .page va → m.pmm.freeSet ≠ ∅) (runs : act.run m = some m') : Contained A m' := by
  cases act with
  | page va =>
    obtain ⟨⟨run,_⟩,_⟩ := ordered
    have length : (List.replicate 4096 (0 : BitVec 8)).length = 4096 := List.length_replicate
    have runs : m.mapZeroedPage va = some m' := runs
    unfold Memory.mapZeroedPage at runs
    generalize List.replicate 4096 (0 : BitVec 8) = bytes at runs length
    exact (h.takeMap va vmUserRw (free va rfl)).write (fun j low => (runPage run (j := j) (by omega)).2) runs
  | copy pr =>
    obtain ⟨⟨run,_,behind⟩,_⟩ := ordered
    have short := copyShort loading (runPage run (j := 65536) (by decide)).2 behind runs
    have high : ∀ j < pr.image.length, slotOf (pr.base + BitVec.ofNat 64 j) 4 ≠ 0 := fun j low => (runPage run (j := j) (by omega)).2
    exact h.write high runs

theorem actsContained {m₀ : Memory} {content : Word → BitVec 8} (start : Provided frames m₀ done content) (ordered : Ordered done acts)
    (enough : Outlasts (tableNeeds done (pagesReached acts)) m₀.pmm.freeSet.card = true) (nonzero : 0 ∉ frames) (h : Contained A m₀)
    {l rest : List LoadAct} (split : acts = l ++ rest) (runs : l.foldlM LoadAct.run m₀ = some m) : Contained A m := by
  induction l using List.reverseRecOn generalizing rest m with
  | nil =>
    cases runs
    exact h
  | append_singleton l act ih =>
    have reached := outlastsRuns start (split ▸ ordered) (split ▸ enough) runs
    have split' : acts = l ++ act :: rest := by rw [split,List.append_assoc]; rfl
    rw [List.foldlM_append] at runs
    obtain ⟨m₁,earlier,last⟩ := Option.bind_eq_some_iff.mp runs
    have last : act.run m₁ = some m := by
      rw [List.foldlM_cons] at last
      obtain ⟨_,stepped,same⟩ := Option.bind_eq_some_iff.mp last
      cases same
      exact stepped
    have loading := (outlastsRuns start (split' ▸ ordered) (split' ▸ enough) earlier).loading
    have next := orderedBehind (split' ▸ ordered)
    refine actContained (ih split' earlier) loading next (fun va page empty => ?_) last
    subst page
    obtain ⟨⟨run,new⟩,_⟩ := next
    obtain ⟨f,member,backed⟩ := reached.own va (by
      rw [pagesAppend,List.reverse_append]
      exact List.mem_append_left _ List.mem_cons_self)
    rw [(sharedFrame loading run new empty last).unique backed] at member
    exact nonzero member

/- The frames of the machine when the loader starts. -/
def bootAllotment (tables : LoaderTables image) (info : BootInfo) (words : Words) (before : Nat → BitVec 8) (devices : Set Nat)
    (apart : ∀ f ∈ devices, f ∉ (Pmm.pmmInit image info before).freeSet ∧ f ∉ Set.Ico tables.pml4 (tables.pml4 + 3)) : Allotment where
  frames := (Pmm.pmmInit image info before).freeSet
  devices := devices
  loader := Set.Ico tables.pml4 (tables.pml4 + 3)
  origin := words
  apart := apart

theorem bootContained {devices : Set Nat} {apart} (bounded : Pmm.Bounded info) (placed : 0 < tables.pml4) :
    Contained (bootAllotment tables info words before devices apart) (bootMemory tables info words before) := by
  refine ⟨bootTree bounded,bootLinks,fun f free => free,fun p t there => ?_,fun va high => .inl ?_,fun a kernel => ?_⟩
  · obtain ⟨short,_,rfl⟩ := bootTables there
    exact .inr (Set.mem_Ico.mpr ⟨by omega,by omega⟩)
  · obtain ⟨_,_,frontier⟩ := (bootLoading bounded placed).rest va high (Set.notMem_empty _)
    exact frontier.trace
  · have outside : a / 512 ∉ Set.Ico tables.pml4 (tables.pml4 + 3) := fun inside => kernel (.inr inside)
    rw [Set.mem_Ico] at outside
    exact if_neg (by omega)

/- Ring 3 never reaches a page table or a free frame, nor anything but the devices and the
frames that `pmm_init` has freed; and nothing else in memory ever changes, but for the
loader's tables. -/
theorem userConfined {devices : Set Nat} {k : Kernel} {stackBase : Word} (bounded : Pmm.Bounded info) (placed : 0 < tables.pml4)
    (enough : 249 ≤ (Pmm.pmmInit image info before).freeSet.card)
    (apart : ∀ f ∈ devices, f ∉ (Pmm.pmmInit image info before).freeSet ∧ f ∉ Set.Ico tables.pml4 (tables.pml4 + 3))
    (loaded : (bootMemory tables info words before).rootfsLoadAll images = some m)
    (reach : Transition.Reach (loadedMachine m stackBase) (Discreet devices) k) :
    (∀ va write pa, k.memory.userAccess va write = some pa →
      (pa / 4096 ∈ (Pmm.pmmInit image info before).freeSet ∨ pa / 4096 ∈ devices) ∧ pa / 4096 ∉ k.memory.pmm.freeSet ∧ ¬ InTable k.memory pa) ∧
    ∀ a, a / 512 ∉ (Pmm.pmmInit image info before).freeSet → a / 512 ∉ devices → a / 512 ∉ Set.Ico tables.pml4 (tables.pml4 + 3) →
      k.memory.words a = words a := by
  let A := bootAllotment tables info words before devices apart
  have start : Contained A (bootMemory tables info words before) := bootContained bounded placed
  have provided : Provided (Pmm.pmmInit image info before).freeSet (bootMemory tables info words before) [] fun _ => 0 := bootProvided bounded placed
  have nonzero : 0 ∉ (Pmm.pmmInit image info before).freeSet := provided.loading.tree.zero
  have whole : Contained A m :=
    actsContained provided bootOrdered (plentyOutlasts enough) nonzero start (List.append_nil _).symm (rootfsActs.symm.trans loaded)
  have h := runContained whole reach
  refine ⟨fun va write pa access => h.reached access,fun a frame device loader => h.rest a ?_⟩
  rintro ((inside | inside) | inside)
  · exact frame inside
  · exact device inside
  · exact loader inside

/- Nothing below the end of the kernel's image is in the allocator. -/
theorem kernelReserved (bounded : Pmm.Bounded info) {f : Nat} (low : f * 4096 < image.kernelEnd) : f ∉ (Pmm.pmmInit image info before).freeSet := by
  intro free
  have reserved := Nat.le_trans (Pmm.reservedAbove bounded) ((Pmm.initSound image before bounded).free f free).2
  omega

/- The root task maps the screen; the start of the kernel's image stays as it is. -/
theorem userConfinedSmall : ∃ m, smallMemory.rootfsLoadAll smallImages = some m ∧
    (Transition.run (loadedMachine m 0x110000) (boot m 0x110000) [.tick,.go,.call 16 0x400000B00000 0xB8000 0]).memory.words 0x20000 = 0 := by
  obtain ⟨m,loaded,_⟩ := smallLoads
  have enough := smallEnough
  have apart : ∀ f ∈ ({0xB8} : Set Nat), f ∉ (Pmm.pmmInit Pmm.smallImage Pmm.smallInfo fun _ => 0).freeSet ∧
      f ∉ Set.Ico smallTables.pml4 (smallTables.pml4 + 3) := by
    rintro f rfl
    exact ⟨kernelReserved (by decide) (by decide),by decide⟩
  have start : Transition.Reach (loadedMachine m 0x110000) (Discreet {0xB8}) (boot m 0x110000) := .start rfl
  have discreet {k : Kernel} {input : Input} (copies : copied k input = none) (maps : ∀ tf, IsCall input .mapPhys tf → entryFrame tf.rsi = 0xB8) :
      Discreet {0xB8} k input := ⟨fun rsi source => (by rw [copies] at source; cases source),fun tf _ call => maps tf call⟩
  have notCall {input : Input} {tf} (call : IsCall input .mapPhys tf) : input ≠ .tick ∧ input ≠ .go := by
    obtain ⟨hw,rfl,vec,number⟩ := call
    refine ⟨fun same => ?_,fun same => ?_⟩
    · cases same
      exact absurd vec (by decide)
    · cases same
  have reach : Transition.Reach (loadedMachine m 0x110000) (Discreet {0xB8})
      (Transition.run (loadedMachine m 0x110000) (boot m 0x110000) [.tick,.go,.call 16 0x400000B00000 0xB8000 0]) := start.run
    ⟨⟨rfl,.inl (by decide)⟩,discreet rfl fun tf call => absurd rfl (notCall call).1,
      rfl,discreet rfl fun tf call => absurd rfl (notCall call).2,
      ⟨rfl,.inr ⟨Option.some_ne_none _,rfl,.inr rfl⟩⟩,discreet rfl fun tf call => (by
        obtain ⟨hw,same,_⟩ := call
        cases same
        decide),trivial⟩
  refine ⟨m,loaded,(userConfined (by decide) (by decide) (by omega) apart loaded reach).2 0x20000 ?_ (by decide) (by decide)⟩
  exact kernelReserved (by decide) (by decide)

end
end Mukern
