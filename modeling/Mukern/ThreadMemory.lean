import Mathlib.Order.CompletePartialOrder
import Mukern.FrameLeaks
import Mukern.Presence

/-! Which memory a thread owns. The loader gives every program its image and its stack once,
and `proc_spawn` starts threads on them without another look: the memory belongs to the
program, not to the thread. -/
namespace Mukern
open Kernel RadixTree Layout

def progBase (p : Fin 12) : Word := progBases.get p

def stackTopOf (p : Fin 12) : Word := progBase p + 0x80000

def imageRegion (p : Fin 12) : Set Nat := Set.Ico (progBase p).toNat ((progBase p).toNat + 0x10000)

def stackRegion (p : Fin 12) : Set Nat := Set.Ico ((stackTopOf p).toNat - 0x4000) (stackTopOf p).toNat

def userRegion (p : Fin 12) : Set Nat := imageRegion p ∪ stackRegion p

/- The program of the present occupant of slot `i`. -/
def progOf (h : List Event) (i : Slot) : Option (Fin 12) :=
  match birth h i with
  | some (.create _ _ p) => some p
  | _ => none

/- Whoever lives was started on a program, and a fresh stack enters that program. -/
structure Started (k : Kernel) : Prop where
  live : ∀ i, ¬ k.Gone i → ∃ p, progOf k.history i = some p
  fresh : ∀ i p, (k.threads i).saved = .trampoline p → progOf k.history i = some p

/- The byte at `pa` is one that program `p` sees in its image or on its stack. -/
def InRegion (m : Memory) (p : Fin 12) (pa : Nat) : Prop := ∃ va, va.toNat ∈ userRegion p ∧ m.kernelAccess va = some pa

/- The step writes nothing into the memory of program `p`, nor into a page table, and maps
no page of it again. -/
structure Leaves (p : Fin 12) (k : Kernel) (input : Input) : Prop where
  map : ∀ i tf, Acting k i → IsCall input .map tf → ∀ va, va.toNat ∈ userRegion p → pageNumber va ≠ pageNumber (pageAlignDown tf.rdi)
  mapPhys : ∀ tf, Acting k 0 → IsCall input .mapPhys tf → ∀ va, va.toNat ∈ userRegion p → pageNumber va ≠ pageNumber tf.rdi
  copy : ∀ rsi span, copied k input = some (rsi,true) → k.memory.kernelSpan rsi 32 = some span →
    ∀ pa ∈ span, ¬ InTable k.memory pa ∧ ¬ InRegion k.memory p pa
  store : ∀ va b pa, input = .store va b → k.memory.userAccess va true = some pa → ¬ InTable k.memory pa ∧ ¬ InRegion k.memory p pa

section
variable {k₀ k k' : Kernel} {input : Input} {i j : Slot} {p q : Fin 12}

theorem regionsApart (different : p ≠ q) : Disjoint (userRegion p) (userRegion q) := by
  have each : ∀ p q : Fin 12, p ≠ q → (progBase p).toNat + 0x80000 ≤ (progBase q).toNat ∨ (progBase q).toNat + 0x80000 ≤ (progBase p).toNat := by
    decide +kernel
  have top : ∀ p : Fin 12, (stackTopOf p).toNat = (progBase p).toNat + 0x80000 := by decide +kernel
  have apart := each p q different
  have mine := top p
  have other := top q
  rw [Set.disjoint_left]
  rintro a (inside | inside) (within | within) <;>
    have inside := Set.mem_Ico.mp inside <;>
    have within := Set.mem_Ico.mp within <;>
    omega

theorem progOfSame {new : List Event} (uncreated : ∀ parent prog, .create i parent prog ∉ new) : progOf (new ++ k.history) i = progOf k.history i := by
  rw [progOf,progOf,birthSame uncreated]

/- A suspended thread continues from where it left. -/
theorem freshSchedule {point : Context} (parkable : ∀ p, k.current = some p → (k.threads p).state ≠ .runnable)
    (planted : ∀ q, point ≠ .trampoline q) (fresh : ((k.schedule point).threads j).saved = .trampoline p) : (k.threads j).saved = .trampoline p := by
  have switch := scheduleSwitch point parkable
  by_cases current : k.current = some j
  · rw [switch.prev j current,parkedSaved] at fresh
    exact absurd fresh (planted p)
  · by_cases next : (k.schedule point).current = some j
    · rw [(switch.next j next).2] at fresh
      exact fresh
    · rwa [switch.other j current next] at fresh

theorem freshUpd {f : Thread → Thread} (fresh : ((k.upd i f).threads j).saved = .trampoline p) (keeps : ∀ t, (f t).saved = t.saved) :
    (k.threads j).saved = .trampoline p := by
  rw [updThreads] at fresh
  split at fresh
  · rename_i own
    rwa [keeps,← own] at fresh
  · exact fresh

theorem freshLeave {f : Thread → Thread} {point : Context} (acting : Acting k i) (keeps : ∀ t, (f t).saved = t.saved)
    (asleep : (f (k.threads i)).state ≠ .runnable) (planted : ∀ q, point ≠ .trampoline q)
    (fresh : (((k.upd i f).schedule point).threads j).saved = .trampoline p) : (k.threads j).saved = .trampoline p :=
  freshUpd (freshSchedule (parkableLeave acting asleep) planted fresh) keeps

theorem freshSend {dest m caller} (acting : Acting k i) (fresh : ((k.ipcSendLocked i dest m caller).1.threads j).saved = .trampoline p) :
    (k.threads j).saved = .trampoline p := by
  have outcome := ipcSendOutcome k i dest m caller
  generalize k.ipcSendLocked i dest m caller = result at outcome fresh
  cases outcome with
  | refused nobody => exact fresh
  | met d named ready =>
    rw [logThreads,deliver,logThreads] at fresh
    exact freshUpd (k := k.log (.sendCall i dest m)) fresh fun _ => wakeSaved _
  | staged d named present busy =>
    exact freshLeave (k := k.log (.sendCall i dest m)) (f := ({ · with ipcBuf := m, ipcState := .sending, ipcPeer := dest, state := .blocked }))
      acting (fun _ => rfl) (by simp) (fun _ => by simp) fresh

theorem freshRecv {src junk caller} (acting : Acting k i) (fresh : ((k.ipcRecvLocked i src junk caller).1.threads j).saved = .trampoline p) :
    (k.threads j).saved = .trampoline p := by
  have outcome := ipcRecvOutcome k i src junk caller
  generalize k.ipcRecvLocked i src junk caller = result at outcome fresh
  cases outcome with
  | irq pending =>
    rw [logThreads] at fresh
    exact freshUpd (k := k.log (.recvCall i src)) fresh fun _ => rfl
  | taken snd quiet waiting =>
    rw [logThreads,pickUp,logThreads] at fresh
    exact freshUpd (k := k.log (.recvCall i src)) fresh fun _ => wakeSaved _
  | awaits quiet nobody =>
    exact freshLeave (k := k.log (.recvCall i src)) (f := ({ · with ipcState := .receiving, ipcPeer := src, state := .blocked }))
      acting (fun _ => rfl) (by simp) (fun _ => by simp) fresh

theorem freshDie {point : Context} (acting : Acting k i) (planted : ∀ q, point ≠ .trampoline q)
    (fresh : ((k.die i point).threads j).saved = .trampoline p) : (k.threads j).saved = .trampoline p :=
  freshLeave (k := k.log (.dead i)) (f := ({ · with state := .dead })) acting (fun _ => rfl) (by simp) planted fresh

theorem freshGrant {target ep} (fresh : ((k.capGrantEndpoint target ep).1.threads j).saved = .trampoline p) : (k.threads j).saved = .trampoline p := by
  unfold capGrantEndpoint at fresh
  cases target with
  | none => exact fresh
  | some t =>
    dsimp only at fresh
    split at fresh
    · rw [logThreads] at fresh
      exact freshUpd fresh fun _ => rfl
    · exact freshUpd fresh fun _ => rfl

theorem freshGrantIo {target base len} (fresh : ((k.capGrantIo target base len).1.threads j).saved = .trampoline p) :
    (k.threads j).saved = .trampoline p := by
  unfold capGrantIo at fresh
  cases target with
  | none => exact fresh
  | some t =>
    dsimp only at fresh
    split at fresh
    · rw [logThreads] at fresh
      exact freshUpd fresh fun _ => rfl
    · exact freshUpd fresh fun _ => rfl

theorem freshOnCpu (fresh : ((k.onCpu i).threads j).saved = .trampoline p) : (k.threads j).saved = .trampoline p := by
  have split : ((k.onCpu i).threads j).saved = if j = i then .running else (k.threads j).saved := by
    unfold onCpu
    rw [updThreads]
    split <;> rfl
  rw [split] at fresh
  split at fresh
  · cases fresh
  · exact fresh

theorem freshResumeRecv {junk} (fresh : (((k.onCpu i).ipcRecvResume i junk).1.threads j).saved = .trampoline p) : (k.threads j).saved = .trampoline p := by
  unfold ipcRecvResume at fresh
  dsimp only at fresh
  split at fresh
  · rw [logThreads] at fresh
    exact freshOnCpu (freshUpd fresh fun _ => rfl)
  · rw [logThreads] at fresh
    exact freshOnCpu (freshUpd fresh fun _ => rfl)

theorem freshIrq {line} (fresh : ((k.irqNotify line).threads j).saved = .trampoline p) : (k.threads j).saved = .trampoline p := by
  unfold irqNotify at fresh
  split at fresh
  · exact fresh
  · split at fresh
    · rw [logThreads] at fresh
      refine freshUpd fresh fun t => ?_
      dsimp only
      split
      · exact wakeSaved _
      · rfl
    · exact fresh

/- Only `thread_create` plants a fresh stack. -/
theorem movePlanted (coherent : Coherent k) (move : Move k₀ input k k') (fresh : (k'.threads j).saved = .trampoline p) :
    (k.threads j).saved = .trampoline p ∨ ∃ parent, k'.history = .create j parent p :: k.history := by
  cases move with
  | openCall acting allowed =>
    rw [openCall,logThreads] at fresh
    exact .inl (freshUpd fresh fun _ => rfl)
  | closeCall source acting =>
    refine .inl (freshUpd fresh fun t => ?_)
    unfold Mukern.closeCall
    split <;> rfl
  | send acting called => exact .inl (freshSend acting fresh)
  | recv src junk rsi acting => exact .inl (freshRecv acting fresh)
  | create prog acting call named =>
    unfold threadCreate at fresh ⊢
    split at fresh
    · rename_i n found
      rw [logThreads,updThreads] at fresh
      split at fresh
      · rename_i own
        cases fresh
        exact .inr ⟨_,by rw [own]; rfl⟩
      · exact .inl fresh
    · exact .inl fresh
  | grantChild child acting created => exact .inl (freshGrant fresh)
  | grantCap acting call held => exact .inl (freshGrant fresh)
  | grantIo acting call => exact .inl (freshGrantIo fresh)
  | exit acting call => exact .inl (freshDie (k := k₀.log _) acting (fun _ => by simp) fresh)
  | faultSend forwards => exact .inl (freshSend forwards.acting fresh)
  | faultRecv junk acting sent => exact .inl (freshRecv acting fresh)
  | kill acting verdict nonzero => exact .inl (freshDie acting (fun _ => by simp) fresh)
  | tick user =>
    have parkable : ∀ p, k₀.current = some p → (k₀.threads p).state ≠ .runnable := by
      intro p current
      simp [coherent.currentRunning.mpr current]
    exact .inl (freshSchedule (k := { k₀ with ticks := k₀.ticks + 1 }) parkable (fun _ => by simp) fresh)
  | irq user call vec => exact .inl (freshIrq fresh)
  | resumePlain mode current saved => exact .inl (freshOnCpu fresh)
  | resumeSend mode current saved =>
    rw [ipcSendResume,logThreads] at fresh
    exact .inl (freshOnCpu (freshUpd fresh fun _ => rfl))
  | resumeRecv junk mode current saved => exact .inl (freshResumeRecv fresh)
  | _ => exact .inl fresh

theorem moveStarted (coherent : Coherent k) (started : Started k) (move : Move k₀ input k k') : Started k' := by
  have creates := moveCreates coherent move
  have appears := fun i => moveAppears (j := i) coherent move
  cases creates with
  | none new older uncreated =>
    have same : ∀ i, progOf k'.history i = progOf k.history i := by
      intro i
      rw [older]
      refine progOfSame fun parent prog member => ?_
      simpa [Event.creates] using uncreated i _ member
    refine ⟨fun i live => ?_,fun i p fresh => ?_⟩
    · rw [same]
      refine started.live i fun gone => live ?_
      exact moveGone coherent move older uncreated gone
    · rw [same]
      rcases movePlanted coherent move fresh with before | ⟨parent,created⟩
      · exact started.fresh i p before
      · have new' : new = [.create i parent p] := List.append_cancel_right (older.symm.trans created)
        simpa [Event.creates,new'] using uncreated i
  | thread n caller tf prog found acting call named before after =>
    have own : progOf k'.history n = some prog := by
      rw [after]
      simp [progOf,birth,Event.creates]
    have other : ∀ i, i ≠ n → progOf k'.history i = progOf k.history i := by
      intro i different
      rw [after]
      have uncreated : ∀ parent p, .create i parent p ∉ [Event.create n (some caller) prog] := fun parent p member =>
        different (Event.create.inj (List.mem_singleton.mp member)).1
      exact progOfSame uncreated
    have kept : ∀ i, i ≠ n → k'.threads i = k.threads i := by
      intro i different
      rw [after,logThreads,updThreads,if_neg different]
    refine ⟨fun i live => ?_,fun i p fresh => ?_⟩
    · by_cases same : i = n
      · exact ⟨prog,same ▸ own⟩
      · rw [other i same]
        refine started.live i fun gone => live ?_
        rwa [Gone,kept i same]
    · by_cases same : i = n
      · subst same
        rw [after,logThreads,updThreads,if_pos rfl] at fresh
        cases fresh
        exact own
      · rw [other i same]
        rw [kept i same] at fresh
        exact started.fresh i p fresh

theorem reachStarted {ok : Kernel → Input → Prop} (reach : Transition.Reach machine ok k) : Started k := by
  refine reachUnder Started (fun memory stackBase => ?_) (fun _ _ _ _ _ _ _ _ coherent started move => moveStarted coherent started move) reach
  refine ⟨fun i live => ?_,fun i p fresh => ?_⟩
  · by_cases first : i = 0
    · exact ⟨0,by rw [first]; rfl⟩
    · refine absurd (.inl ?_) live
      have own : ((boot memory stackBase).threads i).state = if i = 0 then .runnable else .unused := by
        have each : ∀ i, ((boot memory stackBase).threads i).state = if i = 0 then .runnable else .unused := by
          intro i
          change (if i = 0 then _ else _ : Thread).state = _
          split <;> rfl
        exact each i
      rw [own,if_neg first]
  · have own : ((boot memory stackBase).threads i).saved = if i = 0 then .trampoline 0 else .vacant := by
      change (if i = 0 then _ else _ : Thread).saved = _
      split <;> rfl
    rw [own] at fresh
    split at fresh
    · rename_i first
      cases fresh
      rw [first]
      rfl
    · cases fresh

end
section
variable {k : Kernel} {input : Input} {p : Fin 12} {m : Memory} {va : Word} {f : Nat} {content : Word → BitVec 8}

/- The memory of the program is mapped and still as given. -/
structure Intact (m : Memory) (p : Fin 12) (content : Word → BitVec 8) : Prop where
  tree : PageTree m
  data : ∀ va, va.toNat ∈ userRegion p → DataPage m va
  holds : ∀ va, va.toNat ∈ userRegion p → m.load va = some (content va)

theorem regionLow (inside : va.toNat ∈ userRegion p) : va.toNat < 2 ^ 47 := by
  have each : ∀ p : Fin 12, (progBase p).toNat + 0x80000 < 2 ^ 47 ∧ (stackTopOf p).toNat = (progBase p).toNat + 0x80000 := by decide +kernel
  obtain ⟨low,top⟩ := each p
  rcases inside with image | stack
  · have within := Set.mem_Ico.mp image
    omega
  · have within := Set.mem_Ico.mp stack
    omega

theorem Intact.keep {m' : Memory} (intact : Intact m p content) (tree : PageTree m')
    (stays : ∀ va f, va.toNat ∈ userRegion p → Backed m va f → Stays m m' va f) : Intact m' p content := by
  refine ⟨tree,fun va inside => ?_,fun va inside => ?_⟩
  · obtain ⟨f,backed⟩ := dataBacked (intact.data va inside)
    exact (stays va f inside backed).backed.data
  · obtain ⟨f,backed⟩ := dataBacked (intact.data va inside)
    exact ((stays va f inside backed).load backed (regionLow inside)).trans (intact.holds va inside)

/- Bytes stored beside the tables and the program. -/
theorem Intact.store {writes : List (Nat × BitVec 8)} (intact : Intact m p content)
    (apart : ∀ pa ∈ writes.map Prod.fst, ¬ InTable m pa ∧ ¬ InRegion m p pa) : Intact { m with words := m.words.store writes } p content := by
  have kept : TablesKept m { m with words := m.words.store writes } := storeKept fun pa member => (apart pa member).1
  refine ⟨kept.tree intact.tree,fun va inside => kept.dataPage (intact.data va inside),fun va inside => ?_⟩
  obtain ⟨f,backed⟩ := dataBacked (intact.data va inside)
  have low := regionLow inside
  have untouched : f * 4096 + va.toNat % 4096 ∉ writes.map Prod.fst :=
    fun member => (apart _ member).2 ⟨va,inside,backed.access low⟩
  rw [(kept.backed.mpr backed).load low,Words.storeOther untouched,← backed.load low]
  exact intact.holds va inside

theorem stepIntact (coherent : Coherent k) (enabled : k.Enabled input) (leaves : Leaves p k input) (intact : Intact k.memory p content) :
    Intact (k.step input).memory p content := by
  have wrote := stepWrote coherent enabled
  generalize (k.step input).memory = memory at wrote
  cases wrote with
  | nothing => exact intact
  | @message rsi msg _ source written =>
    obtain ⟨span,found,rfl⟩ := Option.map_eq_some_iff.mp written
    refine intact.store fun pa member => leaves.copy rsi span source found pa ?_
    obtain ⟨⟨_,b⟩,pair,rfl⟩ := List.mem_map.mp member
    exact (List.of_mem_zip pair).1
  | @stored va b _ call written =>
    obtain ⟨pa,access,rfl⟩ := Option.map_eq_some_iff.mp written
    have single : Intact { k.memory with words := k.memory.words.store [(pa,b)] } p content := by
      refine intact.store fun pa' member => ?_
      obtain rfl := List.mem_singleton.mp member
      exact leaves.store va b pa' call access
    exact single
  | @mapped i tf acting call =>
    exact intact.keep (freshTree intact.tree) fun va f inside backed => freshStays intact.tree (leaves.map i tf acting call va inside) backed
  | @mappedPhys tf acting call =>
    exact intact.keep (mapTree intact.tree) fun va f inside backed => mapStays intact.tree (leaves.mapPhys tf acting call va inside) _ _ backed

theorem regionPages {image : List (BitVec 8)} (inside : va.toNat ∈ userRegion p) : pageNumber va ∈ progPages ⟨image,progBase p,stackTopOf p⟩ := by
  have each : ∀ p : Fin 12, (progBase p).toNat % 4096 = 0 ∧ (stackTopOf p).toNat = (progBase p).toNat + 0x80000 ∧
      (stackTopOf p - 0x4000).toNat = (progBase p).toNat + 0x7C000 := by decide +kernel
  obtain ⟨aligned,top,bottom⟩ := each p
  have low := regionLow inside
  rw [pageNumber]
  rcases inside with image | stack
  · have within := Set.mem_Ico.mp image
    exact .inl (Set.mem_Ico.mpr ⟨by dsimp only; omega,by dsimp only; omega⟩)
  · have within := Set.mem_Ico.mp stack
    exact .inr (Set.mem_Ico.mpr ⟨by dsimp only; omega,by dsimp only; omega⟩)

theorem progListed {images : List (List (BitVec 8))} {image : List (BitVec 8)} (found : images[p.val]? = some image) :
    ⟨image,progBase p,stackTopOf p⟩ ∈ progs images := by
  have base : progBases[p.val]? = some (progBase p) := List.getElem?_eq_getElem p.isLt
  refine List.mem_of_getElem? (i := p.val) ?_
  rw [progs,List.getElem?_zipWith,found,base]
  rfl

end
section
variable {image : KernelImage} {tables : LoaderTables image} {info : BootInfo} {words : Words} {before : Nat → BitVec 8} {m : Memory}
  {images : List (List (BitVec 8))} {stackBase : Word}

theorem spawnKeeps {k : Kernel} {input : Input} {i : Slot} {tf : Trapframe} (acting : Acting k i) (call : IsCall input .spawn tf) :
    (k.step input).memory = k.memory := by
  obtain ⟨hw,rfl,vec,number⟩ := call
  have runs : k.step (.trap tf hw) = (k.log (.syscall i tf)).sysSpawn i tf := by
    simp [step,isrHandler,vec,syscallVector,vecTimer,acting.2,doSyscall,number]
  rw [runs]
  exact spawnMemory

/- Threads of different programs share no memory of their programs. `SYS_SPAWN` loads
nothing: a program starts from its initial image as long as nobody has changed it. -/
theorem threadMemory (bounded : Pmm.Bounded info) (placed : 0 < tables.pml4) (_short : ∀ image ∈ images, image.length ≤ 65536)
    (enough : 960 ≤ (Pmm.pmmInit image info before).freeSet.card) (loaded : (bootMemory tables info words before).rootfsLoadAll images = some m) :
    (∀ k, Transition.Reach (loadedMachine m stackBase) (fun _ _ => True) k →
      (∀ i p, (k.threads i).saved = .trampoline p → progOf k.history i = some p) ∧
      (∀ i j, ¬ k.Gone i → ¬ k.Gone j → ∃ p q, progOf k.history i = some p ∧ progOf k.history j = some q ∧
        (p ≠ q → Disjoint (userRegion p) (userRegion q))) ∧
      ∀ input i tf, Acting k i → IsCall input .spawn tf → (k.step input).memory = k.memory) ∧
    ∀ k p binary, images[p.val]? = some binary → Transition.Reach (loadedMachine m stackBase) (Leaves p) k →
      ∀ va, va.toNat ∈ userRegion p → k.memory.load va = some (Prog.initial ⟨binary,progBase p,stackTopOf p⟩ va) := by
  constructor
  · intro k reach
    have started := reachStarted (loadedReach reach)
    refine ⟨started.fresh,fun i j here there => ?_,fun input i tf acting call => spawnKeeps acting call⟩
    obtain ⟨p,mine⟩ := started.live i here
    obtain ⟨q,other⟩ := started.live j there
    exact ⟨p,q,mine,other,regionsApart⟩
  · intro k p binary found reach
    obtain ⟨done,loading⟩ := rootfsLoading bounded placed loaded
    have filled := rootfsFilled bounded placed (by omega) loaded _ (progListed found)
    have start : Intact m p (Prog.initial ⟨binary,progBase p,stackTopOf p⟩) :=
      ⟨loading.tree,fun va inside => (filled va (regionLow inside) (regionPages inside)).1,
        fun va inside => (filled va (regionLow inside) (regionPages inside)).2⟩
    have coherence : ∀ k, Transition.Reach (loadedMachine m stackBase) (Leaves p) k → Coherent k := fun k reach => reachCoherent (loadedReach reach)
    have intact : Intact k.memory p (Prog.initial ⟨binary,progBase p,stackTopOf p⟩) := by
      refine reach.invariantUnder (fun k => Intact k.memory p _) coherence ?_ fun k input coherent intact enabled leaves =>
        stepIntact coherent enabled leaves intact
      rintro _ rfl
      exact start
    exact intact.holds

theorem threadMemorySmall : ∃ m, smallMemory.rootfsLoadAll smallImages = some m ∧
    m.load (progBase 2) = some (Prog.initial ⟨[0],progBase 2,stackTopOf 2⟩ (progBase 2)) := by
  have short : ∀ image ∈ smallImages, image.length ≤ 65536 := by
    intro image member
    rw [List.eq_of_mem_replicate member]
    decide
  have enough := smallEnough
  obtain ⟨m,loaded,_⟩ := smallLoads
  have start : (loadedMachine m 0x110000).start (boot m 0x110000) := rfl
  have inside : (progBase 2).toNat ∈ userRegion 2 := .inl (Set.mem_Ico.mpr ⟨Nat.le_refl _,Nat.lt_add_of_pos_right (by decide)⟩)
  exact ⟨m,loaded,(threadMemory (by decide) (by decide) short (by omega) loaded).2 _ 2 [0] rfl (.start start) (progBase 2) inside⟩

/- The same program, spawned twice: both threads run on one stack. -/
def Script.twins : List Input := [.tick,.go,.call 4 2 0 0,.call 4 2 0 0]

theorem stackShared : ¬ ∀ k, Reachable k → ∀ i j p q, i ≠ j → ¬ k.Gone i → ¬ k.Gone j →
    progOf k.history i = some p → progOf k.history j = some q → Disjoint (stackRegion p) (stackRegion q) := by
  intro apart
  have reach : Reachable (Transition.run machine Script.start Script.twins) := Script.reach (by decide +kernel)
  have both : ¬ (Transition.run machine Script.start Script.twins).Gone 1 ∧ ¬ (Transition.run machine Script.start Script.twins).Gone 2 ∧
      progOf (Transition.run machine Script.start Script.twins).history 1 = some 2 ∧
      progOf (Transition.run machine Script.start Script.twins).history 2 = some 2 := by decide +kernel
  obtain ⟨first,second,prog,same⟩ := both
  have disjoint := apart _ reach 1 2 2 2 (by decide) first second prog same
  have top : (stackTopOf 2).toNat - 0x4000 ∈ stackRegion 2 := Set.mem_Ico.mpr ⟨Nat.le_refl _,by decide +kernel⟩
  exact Set.disjoint_left.mp disjoint top top

end
end Mukern
