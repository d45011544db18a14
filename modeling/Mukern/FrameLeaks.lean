import Mukern.MemorySteps
import Mukern.LoadBudget

/-! Which frames a run loses. A frame that `pmm_alloc_frame` has handed out is lost when
no entry of the active tables leads to it any more: no call of the kernel frees one. -/
namespace Mukern
open Kernel RadixTree Layout

/- The byte at `pa` belongs to a page table. -/
def InTable (m : Memory) (pa : Nat) : Prop := ∃ p, m.layout.table m.words p = some (pa / 4096)

/- The step neither makes `SYS_MAP` fail after it has taken a frame, nor maps a page over
the last reference to its frame, nor writes into a page table. -/
structure Careful (frames : Finset Nat) (k : Kernel) (input : Input) : Prop where
  map : ∀ i tf, Acting k i → IsCall input .map tf → Keeps frames k.memory (pageAlignDown tf.rdi)
  mapPhys : ∀ tf, Acting k 0 → IsCall input .mapPhys tf → Spares frames k.memory tf.rdi
  copy : ∀ rsi span, copied k input = some (rsi,true) → k.memory.kernelSpan rsi 32 = some span → ∀ pa ∈ span, ¬ InTable k.memory pa
  store : ∀ va b pa, input = .store va b → k.memory.userAccess va true = some pa → ¬ InTable k.memory pa

/- The machine from the end of `kmain` on, with the memory that the loader has left. -/
def loadedMachine (m : Memory) (stackBase : Word) : Transition.System Kernel Input :=
  { machine with start := (· = boot m stackBase) }

section
variable {frames frames' : Finset Nat} {m : Memory} {k : Kernel} {input : Input} {va : Word} {stackBase : Word}

theorem loadedReach {ok : Kernel → Input → Prop} (reach : Transition.Reach (loadedMachine m stackBase) ok k) : Reachable k := by
  induction reach with
  | start h => exact .start ⟨m,stackBase,h⟩
  | step _ enabled _ ih => exact ih.step enabled trivial

theorem Accounted.mono (accounted : Accounted frames m) (fewer : frames' ⊆ frames) : Accounted frames' m :=
  fun f member taken => accounted f (fewer member) taken

theorem Spares.mono (spares : Spares frames m va) (fewer : frames' ⊆ frames) : Spares frames' m va :=
  fun old n maps member => spares old n maps (fewer member)

/- Bytes stored outside the tables. -/
theorem storeKept {writes : List (Nat × BitVec 8)} (apart : ∀ pa ∈ writes.map Prod.fst, ¬ InTable m pa) :
    TablesKept m { m with words := m.words.store writes } := by
  refine ⟨rfl,rfl,fun p n i there => storeWord fun pa member same => ?_⟩
  have cell : m.layout.cell n i = n * 512 + i.val := rfl
  have inside : i.val < 512 := i.isLt
  rw [cell] at same
  refine apart pa member ⟨p,?_⟩
  have frame : pa / 4096 = n := by omega
  rwa [frame]

theorem physAccounted {pa : Word} (tree : PageTree m) (accounted : Accounted frames m) (spares : Spares frames m va) :
    Accounted frames (m.vmmMap va pa vmUserRw).1 := by
  by_cases maps : (m.vmmMap va pa vmUserRw).2 = 0
  · exact mapAccounted tree maps (accounted.mono (Finset.erase_subset _ _)) (spares.mono (Finset.erase_subset _ _))
  · exact mapFailsAccounted tree maps accounted

theorem stepAccounted (coherent : Coherent k) (enabled : k.Enabled input) (careful : Careful frames k input)
    (tree : PageTree k.memory) (accounted : Accounted frames k.memory) :
    PageTree (k.step input).memory ∧ Accounted frames (k.step input).memory := by
  have wrote := stepWrote coherent enabled
  generalize (k.step input).memory = memory at wrote
  cases wrote with
  | nothing => exact ⟨tree,accounted⟩
  | @message rsi msg _ source written =>
    obtain ⟨span,found,rfl⟩ := Option.map_eq_some_iff.mp written
    have kept : TablesKept k.memory { k.memory with words := k.memory.words.store (span.zip (msgBytes msg)) } := by
      refine storeKept fun pa member => careful.copy rsi span source found pa ?_
      obtain ⟨⟨_,b⟩,pair,rfl⟩ := List.mem_map.mp member
      exact (List.of_mem_zip pair).1
    exact ⟨kept.tree tree,kept.accounted accounted⟩
  | @stored va b _ call written =>
    obtain ⟨pa,access,rfl⟩ := Option.map_eq_some_iff.mp written
    have kept : TablesKept k.memory { k.memory with words := k.memory.words.store [(pa,b)] } := by
      refine storeKept fun pa' member => ?_
      obtain rfl := List.mem_singleton.mp member
      exact careful.store va b pa' call access
    exact ⟨kept.tree tree,kept.accounted accounted⟩
  | @mapped i tf acting call => exact ⟨freshTree tree,freshAccounted tree accounted (careful.map i tf acting call)⟩
  | @mappedPhys tf acting call => exact ⟨mapTree tree,physAccounted tree accounted (careful.mapPhys tf acting call)⟩

theorem runAccounted (tree : PageTree m) (accounted : Accounted frames m)
    (reach : Transition.Reach (loadedMachine m stackBase) (Careful frames) k) : PageTree k.memory ∧ Accounted frames k.memory := by
  have coherence : ∀ k, Transition.Reach (loadedMachine m stackBase) (Careful frames) k → Coherent k :=
    fun k reach => reachCoherent (loadedReach reach)
  refine reach.invariantUnder (fun k => PageTree k.memory ∧ Accounted frames k.memory) coherence ?_ ?_
  · rintro _ rfl
    have same : (boot m stackBase).memory = m := rfl
    rw [same]
    exact ⟨tree,accounted⟩
  · intro k input coherent kept enabled careful
    exact stepAccounted coherent enabled careful kept.1 kept.2

/- With no frame left, `SYS_MAP` changes nothing; the only other refusal takes a frame. -/
theorem refusedKeeps (tree : PageTree m) (keeps : Keeps frames m va)
    (refused : m.pmm.allocFrame.2 = 0 ∨ (m.takeFrame.vmmMap va m.pmm.allocFrame.2 vmUserRw).2 ≠ 0) : m.mapFresh va = m := by
  rcases keeps with empty | ⟨room,_⟩
  · have none := takeNone empty
    unfold Memory.mapFresh Memory.takeFrame
    rw [none]
    rfl
  · obtain ⟨m₁,n,_,_,_,result⟩ := mapRoom (takeTree tree) room m.pmm.allocFrame.2 vmUserRw
    rw [result] at refused
    have full : m.pmm.freeSet = ∅ := by
      by_contra free
      obtain ⟨_,_,_,nonzero,_⟩ := takeFree tree free
      exact refused.elim nonzero fun fails => fails rfl
    have none := takeNone full
    unfold Memory.mapFresh Memory.takeFrame
    rw [none]
    rfl

/- On a large page `SYS_MAP` takes a frame and loses it. -/
theorem freshLoses {done : Set Nat} (loading : Loading frames m done) (free : m.pmm.freeSet ≠ ∅) :
    ¬ Accounted frames (m.mapFresh 0x200000) := by
  obtain ⟨f,member,_,nonzero,frame,set⟩ := takeFree loading.tree free
  have tree₁ := takeTree loading.tree
  have gone : f ∉ m.takeFrame.pmm.freeSet := by
    rw [set]
    exact Finset.notMem_erase f _
  intro accounted
  rw [Memory.mapFresh,if_pos nonzero] at accounted
  rcases mapHangs tree₁ 0x200000 m.pmm.allocFrame.2 vmUserRw with ⟨hangs,_⟩ | ⟨m₁,n,hangs,here,_⟩
  · have grown := hangs.grown tree₁
    rcases accounted f (loading.fewer member) fun still => gone (grown.free still) with ⟨p,there⟩ | ⟨p,n,i,maps⟩
    · rcases hangs.fresh tree₁ there with before | fresh
      · exact loading.tree.live p f before member
      · exact gone fresh
    · exact loading.leaves f p n i (takeMaps.mp ((hangs.maps tree₁).mp maps)) member
  · -- the walk reaches no page table
    obtain ⟨entries,trace,short⟩ := loading.identity
    obtain ⟨above,size,read⟩ := leafTrace here
    rw [(hangs.grown tree₁).trace] at read
    have same : m.takeFrame.trace 0x200000 = some entries := trace
    rw [same] at read
    split at read
    · cases read
    · cases read
      rw [List.length_append,size] at short
      exact absurd short (Nat.lt_irrefl 4)

end
section
variable {image : KernelImage} {tables : LoaderTables image} {info : BootInfo} {words : Words} {before : Nat → BitVec 8} {m : Memory}
  {images : List (List (BitVec 8))} {stackBase : Word} {k : Kernel} {input : Input}

theorem mapSteps {i : Slot} {tf : Trapframe} (acting : Acting k i) (call : IsCall input .map tf) :
    k.step input = (k.log (.syscall i tf)).sysMap i tf := by
  obtain ⟨hw,rfl,vec,number⟩ := call
  simp [step,isrHandler,vec,syscallVector,vecTimer,acting.2,doSyscall,number]

/- `SYS_MAP` answers -1 without a frame, or when `vmm_map` fails. -/
theorem mapRefused {i : Slot} {tf : Trapframe} (answer : (k.sysMap i tf).history.head? = some (.sysRet i (cword (-1)))) :
    k.memory.pmm.allocFrame.2 = 0 ∨ (k.memory.takeFrame.vmmMap (pageAlignDown tf.rdi) k.memory.pmm.allocFrame.2 vmUserRw).2 ≠ 0 := by
  by_contra served
  obtain ⟨taken,maps⟩ := not_or.mp served
  have maps : (k.memory.takeFrame.vmmMap (pageAlignDown tf.rdi) k.memory.pmm.allocFrame.2 vmUserRw).2 = 0 := not_not.mp maps
  have zero : (k.sysMap i tf).history.head? = some (.sysRet i 0) := by
    unfold sysMap
    dsimp only
    rw [if_pos taken]
    exact congrArg (fun r : Int => some (Event.sysRet i (if r = 0 then 0 else cword (-1)))) maps
  rw [zero] at answer
  exact absurd (Event.sysRet.inj (Option.some.inj answer)).2 (by decide)

/- Every frame that was handed out is still a page table or mapped, and a `SYS_MAP` that
answers -1 has changed no page and no count. -/
theorem framesKept (bounded : Pmm.Bounded info) (placed : 0 < tables.pml4)
    (loaded : (bootMemory tables info words before).rootfsLoadAll images = some m)
    (reach : Transition.Reach (loadedMachine m stackBase) (Careful (Pmm.pmmInit image info before).freeSet) k) :
    Accounted (Pmm.pmmInit image info before).freeSet k.memory ∧
      ∀ input i tf, Acting k i → IsCall input .map tf → Careful (Pmm.pmmInit image info before).freeSet k input →
        (k.step input).history.head? = some (.sysRet i (cword (-1))) → (k.step input).memory = k.memory := by
  obtain ⟨done,loading⟩ := rootfsLoading bounded placed loaded
  obtain ⟨tree,accounted⟩ := runAccounted loading.tree loading.accounted reach
  refine ⟨accounted,fun input i tf acting call careful answer => ?_⟩
  rw [mapSteps acting call] at answer ⊢
  exact mapMemory.trans (refusedKeeps tree (careful.map i tf acting call) (mapRefused answer))

/- A machine of 8 MiB, with a small binary for every program. -/
def smallImages : List (List (BitVec 8)) := List.replicate 12 [0]

theorem smallLoads : ∃ m, smallMemory.rootfsLoadAll smallImages = some m ∧ m.pmm.freeSet ≠ ∅ := by
  have short : ∀ image ∈ smallImages, image.length ≤ 65536 := by
    intro image member
    rw [List.eq_of_mem_replicate member]
    decide
  have enough := smallEnough
  have loads : ∃ m, smallMemory.rootfsLoadAll smallImages = some m ∧
      (Pmm.pmmInit Pmm.smallImage Pmm.smallInfo fun _ => 0).freeSet.card ≤ m.pmm.freeSet.card + 249 :=
    rootfsLoads (by decide) (by decide) short (by omega)
  obtain ⟨m,loaded,left⟩ := loads
  refine ⟨m,loaded,fun empty => ?_⟩
  rw [empty,Finset.card_empty] at left
  omega

theorem framesKeptSmall : ∃ m, smallMemory.rootfsLoadAll smallImages = some m ∧
    Accounted (Pmm.pmmInit Pmm.smallImage Pmm.smallInfo fun _ => 0).freeSet (boot m 0x110000).memory := by
  obtain ⟨m,loaded,_⟩ := smallLoads
  have start : (loadedMachine m 0x110000).start (boot m 0x110000) := rfl
  exact ⟨m,loaded,(framesKept (by decide) (by decide) loaded (.start start)).1⟩

/- A program asks for a page inside the identity map. -/
theorem frameLost : ¬ ∀ m, smallMemory.rootfsLoadAll smallImages = some m → ∀ k,
    Transition.Reach (loadedMachine m 0x110000) (fun _ _ => True) k →
      Accounted (Pmm.pmmInit Pmm.smallImage Pmm.smallInfo fun _ => 0).freeSet k.memory := by
  intro kept
  obtain ⟨m,loaded,free⟩ := smallLoads
  obtain ⟨done,loading⟩ := rootfsLoading (by decide) (by decide) loaded
  have start : (loadedMachine m 0x110000).start (boot m 0x110000) := rfl
  have first : Transition.Reach (loadedMachine m 0x110000) (fun _ _ => True) (boot m 0x110000) := .start start
  let ready := Transition.run (loadedMachine m 0x110000) (boot m 0x110000) [.tick,.go]
  have scheduled : Transition.Reach (loadedMachine m 0x110000) (fun _ _ => True) ready :=
    first.run ⟨⟨rfl,.inl (by decide)⟩,trivial,rfl,trivial,trivial⟩
  have enabled : (loadedMachine m 0x110000).enabled ready (.call 5 0x200000 0 0) := ⟨rfl,.inr ⟨Option.some_ne_none _,rfl,.inr rfl⟩⟩
  have reach := scheduled.step enabled trivial
  have acting : Acting ready 0 := ⟨rfl,rfl⟩
  have call : IsCall (.call 5 0x200000 0 0) .map ⟨syscallVector,Input.userCs,5,0x200000,0,0⟩ := ⟨_,rfl,rfl,rfl⟩
  have memory : (ready.step (.call 5 0x200000 0 0)).memory = m.mapFresh 0x200000 := by
    rw [mapSteps acting call,mapMemory]
    rfl
  have accounted := kept m loaded _ reach
  change Accounted _ (ready.step (.call 5 0x200000 0 0)).memory at accounted
  rw [memory] at accounted
  exact freshLoses loading free accounted

end
end Mukern
