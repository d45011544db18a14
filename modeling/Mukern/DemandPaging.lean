import Mukern.RequestSteps

/-! Demand paging: what the threads of the booted system load from the window of the heap
and store there, over whole runs. -/
namespace Mukern
open Kernel Rendezvous


/- A step of the booted system, or an access of the current thread to the window. The bytes
that a `store` of its program writes are stores of the thread before it. -/
inductive HeapAct where
  | act (act : Act)
  | load (va : Word) (junk : IpcMsg)
  | store (va : Word) (b : BitVec 8) (junk : IpcMsg)

/- What the byte at `va` reads as after the access. -/
def HeapAct.stored (va : Word) (old : Option (BitVec 8)) : HeapAct → Option (BitVec 8)
  | .store va' b _ => if va' = va then some b else old
  | .act _ | .load _ _ => old

namespace Booted

def faulting (s : Booted) (va : Word) (junk : IpcMsg) : Booted :=
  { s with kernel := s.kernel.pageFault ⟨vecPf,Input.userCs,0,0,0,0⟩ ⟨va,0,junk⟩ }

def HeapEnabled (s : Booted) : HeapAct → Prop
  | .act act => s.Enabled act
  | .load va _ | .store va _ _ => s.kernel.mode = .user ∧ s.kernel.current ≠ none ∧ InHeap va

def heapStep (named : Word → Word) (s : Booted) : HeapAct → Booted
  | .act act => s.step named act
  | .load va junk => if (s.kernel.memory.userAccess va false).isSome then s else s.faulting va junk
  | .store va b junk =>
    match s.kernel.memory.userStore va b with
    | some memory => { s with kernel := { s.kernel with memory := memory } }
    | none => s.faulting va junk

/- The step takes a page fault at `va`. -/
inductive Faults (s : Booted) : HeapAct → Word → Prop where
  | run {ptr junk va i next} (current : s.kernel.current = some i) (calls : s.code i = .store va next)
      (unmapped : s.kernel.memory.userAccess va true = none) : Faults s (.act (.run ptr junk)) va
  | load {va junk} (unmapped : s.kernel.memory.userAccess va false = none) : Faults s (.load va junk) va
  | store {va b junk} (unmapped : s.kernel.memory.userAccess va true = none) : Faults s (.store va b junk) va

/- A request for the page is on its way to `vm_server`, or `vm_server` has it and has not
mapped the page yet. -/
def Requested (s : Booted) (page : Nat) : Prop := ∃ x, Sought s.kernel s.code page x

/- No page of the window is asked for twice. -/
def Unrequested (s : Booted) (act : HeapAct) : Prop := ∀ va, s.Faults act va → InHeap va → ¬ s.Requested (pageNumber va)

end Booted

/- The booted system on the memory that the loader has left. -/
def heapSystem (named : Word → Word) (m : Memory) (stackBase : Word) : Transition.System Booted HeapAct where
  start s := s = Booted.start m stackBase
  enabled := Booted.HeapEnabled
  next := Booted.heapStep named

/- Whatever follows, a mapped page of the window keeps its frame, and every byte of it reads
as the last store has left it. -/
def HeapKept (S : Transition.System Booted HeapAct) (ok : Booted → HeapAct → Prop) (s : Booted) : Prop :=
  ∀ acts, Transition.Admits S ok s acts → ∀ va pa, InHeap va → s.kernel.memory.userAccess va false = some pa →
    (∀ write, (Transition.run S s acts).kernel.memory.userAccess va write = some pa) ∧
      (Transition.run S s acts).kernel.memory.userLoad va = acts.foldl (HeapAct.stored va) (s.kernel.memory.userLoad va)

section
variable {named : Word → Word} {s : Booted} {act : HeapAct} {i : Slot} {junk : IpcMsg} {va : Word}

theorem orderlyAct (named : Word → Word) {act : Act} (h : s.Orderly) (coherent : Coherent s.kernel) (enabled : s.Enabled act) (meets : s.Unrequested (.act act)) :
    (s.step named act).Orderly ∧ HeapStays s.kernel.memory (s.step named act).kernel.memory := by
  cases act with
  | tick =>
    have each : ∀ j, Onward (face (s.kernel.threads j)) (face (s.kernel.timerTick.threads j)) (s.code j) (s.code j) := by
      intro j
      rw [faceTick coherent enabled]
      exact .refl
    exact ⟨h.follow (tickMemory coherent) each,.same (tickMemory coherent)⟩
  | irq line =>
    have memory : (s.kernel.irqNotify line).memory = s.kernel.memory := by
      unfold irqNotify
      split
      · rfl
      · split <;> rfl
    have each : ∀ j, Onward (face (s.kernel.threads j)) (face ((s.kernel.irqNotify line).threads j)) (s.code j) (s.code j) := by
      intro j
      obtain same | ⟨d,_,faces⟩ : (∀ j, face ((s.kernel.irqNotify line).threads j) = face (s.kernel.threads j)) ∨ _ := faceIrq
      · rw [same j]
        exact .refl
      · rw [faces j]
        split
        · rename_i own
          exact own ▸ .same rfl rfl
        · exact .refl
    exact ⟨h.follow memory each,.same memory⟩
  | resume junk => exact orderlyResume h coherent enabled
  | run ptr junk =>
    obtain ⟨user,i,current,_⟩ := enabled
    have current : s.kernel.current = some i := current
    unfold Booted.step
    rw [current]
    exact orderlyCall h coherent ⟨user,current⟩ fun va next calls unmapped inside x pending =>
      meets va (.run current calls unmapped) inside ⟨x,pending⟩
  | pick a b =>
    obtain ⟨user,i,current,_⟩ := enabled
    have current : s.kernel.current = some i := current
    unfold Booted.step
    rw [current]
    dsimp only
    split
    · rename_i next calls
      have tame : (Code.pick next).Tame := calls ▸ h.tame i
      have leads : (s.code i).Leads (next a b) := calls ▸ tame.leads (by rintro ⟨⟩) fun plan planned => planned a b
      exact ⟨h.quiet rfl (faceActing coherent ⟨user,current⟩).1 leads fun j => ⟨rfl,rfl⟩,.same rfl⟩
    · exact ⟨h,.same rfl⟩

theorem orderlyFaulting (junk : IpcMsg) {write : Bool} (h : s.Orderly) (coherent : Coherent s.kernel) (acting : Acting s.kernel i)
    (unmapped : s.kernel.memory.userAccess va write = none) (unrequested : ¬ s.Requested (pageNumber va)) :
    (s.faulting va junk).Orderly ∧ Coherent (s.faulting va junk).kernel ∧ HeapStays s.kernel.memory (s.faulting va junk).kernel.memory :=
  ⟨orderlyFault h coherent acting unmapped fun _ x pending => unrequested ⟨x,pending⟩,
    movesCoherent coherent (movesPageFault acting.1 rfl),.same (pageFaultMemory acting.1)⟩

/- The window, from one state to the next. -/
structure HeapNext (named : Word → Word) (s : Booted) (act : HeapAct) : Prop where
  orderly : (s.heapStep named act).Orderly
  coherent : Coherent (s.heapStep named act).kernel
  kept : ∀ va, InHeap va → s.kernel.memory.trace va ≠ none →
    (s.heapStep named act).kernel.memory.userAccess va = s.kernel.memory.userAccess va ∧
      (s.heapStep named act).kernel.memory.userLoad va = act.stored va (s.kernel.memory.userLoad va)

theorem heapNext (named : Word → Word) (h : s.Orderly) (coherent : Coherent s.kernel) (enabled : s.HeapEnabled act) (meets : s.Unrequested act) : HeapNext named s act := by
  cases act with
  | act act =>
    obtain ⟨orderly,stays⟩ := orderlyAct named h coherent enabled meets
    exact ⟨orderly,movesCoherent coherent (bootedMoves enabled),stays⟩
  | load va junk =>
    obtain ⟨user,running,inside⟩ := enabled
    obtain ⟨i,current⟩ := Option.ne_none_iff_exists'.mp running
    cases access : s.kernel.memory.userAccess va false with
    | some pa =>
      have same : s.heapStep named (.load va junk) = s := if_pos (by rw [access]; rfl)
      refine ⟨?_,?_,fun _ _ _ => ?_⟩ <;> rw [same]
      · exact h
      · exact coherent
      · exact ⟨rfl,rfl⟩
    | none =>
      have same : s.heapStep named (.load va junk) = s.faulting va junk := if_neg (by rw [access]; decide)
      obtain ⟨orderly,kept,stays⟩ := orderlyFaulting junk h coherent ⟨user,current⟩ access (meets va (.load access) inside)
      refine ⟨?_,?_,?_⟩ <;> rw [same]
      · exact orderly
      · exact kept
      · exact stays
  | store va b junk =>
    obtain ⟨user,running,inside⟩ := enabled
    obtain ⟨i,current⟩ := Option.ne_none_iff_exists'.mp running
    cases written : s.kernel.memory.userStore va b with
    | some memory =>
      have next : s.heapStep named (.store va b junk) = { s with kernel := { s.kernel with memory := memory } } := by
        unfold Booted.heapStep
        dsimp only
        rw [written]
      obtain ⟨pages,stored⟩ := h.pages.stored inside written
      refine ⟨?_,?_,fun va' inside' _ => ?_⟩ <;> rw [next]
      · refine h.onto (fun j => .refl) (fun va' x inside' here => ?_) pages
        have absent := unmappedAccess (h.unmapped va' x inside' (here.before fun j => .refl)) false
        exact pages.unmapped inside' ((congrFun (stored va' inside').1 false).trans absent)
      · have moves : Moves s.kernel .tick s.kernel { s.kernel with memory := memory } := .single (.memory memory)
        exact movesCoherent coherent moves
      · obtain ⟨access,load⟩ := stored va' inside'
        refine ⟨access,load.trans ?_⟩
        rw [HeapAct.stored]
        exact if_congr eq_comm rfl rfl
    | none =>
      have access : s.kernel.memory.userAccess va true = none := Option.map_eq_none_iff.mp written
      have next : s.heapStep named (.store va b junk) = s.faulting va junk := by
        unfold Booted.heapStep
        dsimp only
        rw [written]
      obtain ⟨orderly,kept,stays⟩ := orderlyFaulting junk h coherent ⟨user,current⟩ access (meets va (.store access) inside)
      refine ⟨?_,?_,fun va' inside' mapped => ?_⟩ <;> rw [next]
      · exact orderly
      · exact kept
      · have other : va ≠ va' := by
          rintro rfl
          exact mapped (h.pages.unmapped inside access)
        rw [HeapAct.stored,if_neg other]
        exact stays va' inside' mapped

end

section
variable {image : KernelImage} {tables : LoaderTables image} {info : BootInfo} {words : Words} {before : Nat → BitVec 8}
  {images : List (List (BitVec 8))} {m : Memory} {named : Word → Word} {stackBase : Word} {s : Booted}

theorem startOrderly (pages : HeapPages m) : (Booted.start m stackBase).Orderly := by
  have own : ∀ i, face ((boot m stackBase).threads i) = if i = 0 then Face.born else face threadZero := fun i => bootFaces m stackBase
  have idle : ∀ i, (face ((boot m stackBase).threads i)).wire = .idle := by
    intro i
    rw [own i]
    split <;> rfl
  have none : ∀ page x, ¬ Sought (boot m stackBase) (fun _ => Code.main progInit) page x := by
    intro page x
    cases x with
    | wire i =>
      rintro ⟨m',carried,_⟩
      rw [idle i] at carried
      cases carried
    | code i => exact (Code.mainPlans progInit).free
  exact ⟨fun i hears => absurd hears (Face.deaf (.inl (idle i))),fun i => .inl (Code.mainPlans progInit),
    fun page x _ here => absurd here (none page x),fun va x _ here => absurd here (none _ x),pages⟩

theorem heapReach (pages : HeapPages m) (reach : Transition.Reach (heapSystem named m stackBase) Booted.Unrequested s) :
    s.Orderly ∧ Coherent s.kernel := by
  refine reach.invariant (fun s => s.Orderly ∧ Coherent s.kernel) ?_ ?_
  · rintro _ rfl
    exact ⟨startOrderly pages,bootCoherent m stackBase⟩
  · rintro s act ⟨orderly,coherent⟩ enabled meets
    have next := heapNext named orderly coherent enabled meets
    exact ⟨next.orderly,next.coherent⟩

theorem heapRun {acts : List HeapAct} (h : s.Orderly) (coherent : Coherent s.kernel)
    (admits : Transition.Admits (heapSystem named m stackBase) Booted.Unrequested s acts) {va : Word} (inside : InHeap va)
    (mapped : s.kernel.memory.trace va ≠ none) :
    (Transition.run (heapSystem named m stackBase) s acts).kernel.memory.userAccess va = s.kernel.memory.userAccess va ∧
      (Transition.run (heapSystem named m stackBase) s acts).kernel.memory.userLoad va =
        acts.foldl (HeapAct.stored va) (s.kernel.memory.userLoad va) := by
  induction acts generalizing s with
  | nil => exact ⟨rfl,rfl⟩
  | cons act acts ih =>
    have next := heapNext named h coherent admits.1 admits.2.1
    obtain ⟨access,load⟩ := next.kept va inside mapped
    have still : (s.heapStep named act).kernel.memory.trace va ≠ none := by
      intro absent
      obtain unmapped | ⟨f,backed,usable⟩ := h.pages.page va inside
      · exact mapped unmapped
      · have before := usable.access backed (heapPlace inside).1 false
        cases ((congrFun access false).trans before).symm.trans (unmappedAccess absent false)
    obtain ⟨access',load'⟩ := ih next.orderly next.coherent admits.2.2 still
    rw [List.foldl_cons,← load]
    exact ⟨access'.trans access,load'⟩

/- Demand paging keeps the data of the window, as long as no thread faults on a page whose
request is under way. -/
theorem heapKept (bounded : Pmm.Bounded info) (placed : 0 < tables.pml4)
    (loaded : (bootMemory tables info words before).rootfsLoadAll images = some m)
    (reach : Transition.Reach (heapSystem named m stackBase) Booted.Unrequested s) : HeapKept (heapSystem named m stackBase) Booted.Unrequested s := by
  obtain ⟨orderly,coherent⟩ := heapReach (loadedHeap bounded placed loaded).1 reach
  intro acts admits va pa inside access
  obtain unmapped | ⟨f,backed,usable⟩ := orderly.pages.page va inside
  · cases (unmappedAccess unmapped false).symm.trans access
  obtain ⟨same,load⟩ := heapRun orderly coherent admits inside backed.mapped
  refine ⟨fun write => ?_,load⟩
  have there := usable.access backed (heapPlace inside).1
  rw [same,there write,← access,there false]

end

/-! Two threads that fault on one page. -/

def helloNamed : Word → Word := fun _ => BitVec.ofNat 64 progHello.val

namespace Booted

/- The threads alone; what they stand on is looked at nowhere. -/
def threadsOnly : Booted := start ⟨fun _ => 0,⟨fun _ => 0,0,0,0⟩,0⟩ 0x110000

def plays (n : Nat) (s : Booted) : Booted := drive helloNamed 0 0 (fun s act => s.plain act) n s

/- The page that the current thread maps next. -/
def mapping (s : Booted) : Option Word :=
  s.kernel.current.bind fun i => match s.code i with
    | .map va _ => some va
    | _ => none

/- `SYS_MAP` has succeeded. -/
def mapped (s : Booted) : Booted :=
  match s.kernel.current with
  | none => s
  | some i => match s.code i with
    | .map va next => { s with kernel := (s.kernel.log (.syscall i ((Code.map va next).regs 0))).sysRet i 0 }.goOn i next
    | _ => s

/- pm and fs touch the first page of the window, one right after the other. -/
def bothFault : Booted := (((threadsOnly.plays 73).faulting Code.heapLo Input.noise).plays 1).faulting Code.heapLo Input.noise

/- pm goes on, its page being mapped. -/
def pmResumed : Booted := (bothFault.plays 17).mapped.plays 7

def User (s : Booted) : Prop := s.kernel.mode = .user ∧ s.kernel.current ≠ none
instance (s : Booted) : Decidable s.User := inferInstanceAs (Decidable (_ ∧ _))

theorem faultsCome : (threadsOnly.plays 73).User ∧ (((threadsOnly.plays 73).faulting Code.heapLo Input.noise).plays 1).User ∧
    ((bothFault.plays 17).User ∧ (bothFault.plays 17).mapping = some Code.heapLo) ∧
    (pmResumed.plays 21).User ∧ (pmResumed.plays 21).mapping = some Code.heapLo := by decide +kernel

end Booted

theorem heapKeptSmall : ∃ m, smallMemory.rootfsLoadAll smallImages = some m ∧
    HeapKept (heapSystem helloNamed m 0x110000) Booted.Unrequested (Booted.start m 0x110000) := by
  obtain ⟨m,loaded,_⟩ := smallLoads
  exact ⟨m,loaded,heapKept (by decide) (by decide) loaded (.start rfl)⟩

section
variable {m : Memory} {s : Booted} {va : Word}

/- The steps of the threads alone are steps on any memory. -/
theorem playsOn (base m : Memory) (stackBase : Word) (n : Nat) (s : Booted) :
    ∃ acts, Transition.Admits (heapSystem helloNamed base stackBase) (fun _ _ => True) (s.on m) acts ∧
      Transition.run (heapSystem helloNamed base stackBase) (s.on m) acts = (s.plays n).on m := by
  induction n generalizing s with
  | zero => exact ⟨[],trivial,rfl⟩
  | succ n ih =>
    unfold Booted.plays Booted.drive
    dsimp only
    split
    · rename_i steps
      obtain ⟨acts,admits,ends⟩ := ih (s.step helloNamed (s.undisturbed 0 0))
      have next : (heapSystem helloNamed base stackBase).next (s.on m) (.act (s.undisturbed 0 0)) = (s.step helloNamed (s.undisturbed 0 0)).on m :=
        stepOn steps.2
      have enabled : (heapSystem helloNamed base stackBase).enabled (s.on m) (.act (s.undisturbed 0 0)) := by
        have same : s.Enabled (s.undisturbed 0 0) := steps.1
        generalize s.undisturbed 0 0 = act at same
        cases act <;> exact same
      refine ⟨.act (s.undisturbed 0 0) :: acts,⟨enabled,trivial,?_⟩,?_⟩
      · rw [next]
        exact admits
      · rw [Transition.run,next]
        exact ends
    · exact ⟨[],trivial,rfl⟩

theorem faultingOn {junk : IpcMsg} (unmapped : m.userAccess va false = none) : (s.on m).heapStep helloNamed (.load va junk) = (s.faulting va junk).on m := by
  have faults : (s.kernel.on m).pageFault ⟨vecPf,Input.userCs,0,0,0,0⟩ ⟨va,0,junk⟩ =
      (s.kernel.pageFault ⟨vecPf,Input.userCs,0,0,0,0⟩ ⟨va,0,junk⟩).on m := pageFaultOn
  refine (if_neg (by show ¬ (m.userAccess va false).isSome = true; rw [unmapped]; decide)).trans ?_
  change { s with kernel := (s.kernel.on m).pageFault ⟨vecPf,Input.userCs,0,0,0,0⟩ ⟨va,0,junk⟩ } = _
  rw [faults]
  rfl

theorem mappedOn (user : s.User) (maps : s.mapping = some va) (fresh : m.MapsFresh (pageAlignDown va)) :
    (heapSystem helloNamed m 0).enabled (s.on m) (.act (.run 0 Input.noise)) ∧
      (s.on m).heapStep helloNamed (.act (.run 0 Input.noise)) = s.mapped.on (m.mapFresh (pageAlignDown va)) := by
  obtain ⟨i,current⟩ := Option.ne_none_iff_exists'.mp user.2
  obtain ⟨next,calls⟩ : ∃ next, s.code i = .map va next := by
    unfold Booted.mapping at maps
    rw [current] at maps
    cases calls : s.code i with
    | map va' next =>
      dsimp only [Option.bind] at maps
      rw [calls] at maps
      cases maps
      exact ⟨next,rfl⟩
    | _ =>
      dsimp only [Option.bind] at maps
      rw [calls] at maps
      cases maps
  refine ⟨⟨user.1,i,current,by show (s.code i).isPick = false; rw [calls]; rfl⟩,?_⟩
  have served : ((s.kernel.on m).log (.syscall i ((Code.map va next).regs 0))).sysMap i ((Code.map va next).regs 0) =
      ((s.kernel.log (.syscall i ((Code.map va next).regs 0))).sysRet i 0).on (m.mapFresh (pageAlignDown va)) := by
    have frame : ((s.kernel.on m).log (.syscall i ((Code.map va next).regs 0))).memory.pmm.allocFrame.2 ≠ 0 := fresh.frame
    have answer : (if (m.takeFrame.vmmMap (pageAlignDown va) m.pmm.allocFrame.2 vmUserRw).2 = 0 then 0 else cword (-1)) = (0 : Word) := if_pos fresh.maps
    unfold sysMap
    dsimp only
    rw [if_pos frame,fresh.result]
    change ({ (s.kernel.on m).log (.syscall i ((Code.map va next).regs 0)) with
      memory := (m.takeFrame.vmmMap (pageAlignDown va) m.pmm.allocFrame.2 vmUserRw).1 } : Kernel).sysRet i
        (if (m.takeFrame.vmmMap (pageAlignDown va) m.pmm.allocFrame.2 vmUserRw).2 = 0 then 0 else cword (-1)) = _
    rw [answer]
    rfl
  have there : (s.on m).kernel.current = some i := current
  have code : (s.on m).code i = .map va next := calls
  unfold Booted.heapStep Booted.step
  dsimp only
  rw [there]
  unfold Booted.call Booted.mapped
  dsimp only
  rw [code,current]
  dsimp only
  rw [calls]
  change Booted.goOn { s with kernel := ((s.kernel.on m).log (.syscall i ((Code.map va next).regs 0))).sysMap i ((Code.map va next).regs 0) } i next = _
  rw [served]
  rfl

theorem startOn (m : Memory) : Booted.start m 0x110000 = Booted.threadsOnly.on m := by
  let bare : Kernel := schedInit ⟨fun _ => 0,⟨fun _ => 0,0,0,0⟩,0⟩ 0x110000
  have spawned : (bare.on m).procSpawn none progInit.val = ((bare.procSpawn none progInit.val).1.on m,(bare.procSpawn none progInit.val).2) := procSpawnOn
  have started : (boot m 0x110000) = (boot ⟨fun _ => 0,⟨fun _ => 0,0,0,0⟩,0⟩ 0x110000).on m := congrArg Prod.fst spawned
  exact congrArg (fun k => (⟨k,fun _ => progInit,fun _ => Code.main progInit⟩ : Booted)) started

/- The threads go on until the current one maps the page. -/
theorem playsMaps (base : Memory) (n : Nat) (user : (s.plays n).User) (maps : (s.plays n).mapping = some va) (fresh : m.MapsFresh (pageAlignDown va)) :
    ∃ acts, Transition.Admits (heapSystem helloNamed base 0x110000) (fun _ _ => True) (s.on m) acts ∧
      Transition.run (heapSystem helloNamed base 0x110000) (s.on m) acts = (s.plays n).mapped.on (m.mapFresh (pageAlignDown va)) := by
  obtain ⟨acts,admits,ends⟩ := playsOn base m 0x110000 n s
  obtain ⟨enabled,next⟩ := mappedOn user maps fresh
  have last : Transition.Admits (heapSystem helloNamed base 0x110000) (fun _ _ => True)
      (Transition.run (heapSystem helloNamed base 0x110000) (s.on m) acts) [.act (.run 0 Input.noise)] := by
    rw [ends]
    exact ⟨enabled,trivial,trivial⟩
  obtain ⟨both,through⟩ := admits.append last
  refine ⟨_,both,through.trans ?_⟩
  rw [ends]
  exact next

/- The current thread touches the first page of the window after `n` steps. -/
theorem playsFaults (base : Memory) (n : Nat) (user : (s.plays n).User) (unmapped : m.userAccess Code.heapLo false = none) :
    ∃ acts, Transition.Admits (heapSystem helloNamed base 0x110000) (fun _ _ => True) (s.on m) acts ∧
      Transition.run (heapSystem helloNamed base 0x110000) (s.on m) acts = ((s.plays n).faulting Code.heapLo Input.noise).on m := by
  obtain ⟨acts,admits,ends⟩ := playsOn base m 0x110000 n s
  have last : Transition.Admits (heapSystem helloNamed base 0x110000) (fun _ _ => True)
      (Transition.run (heapSystem helloNamed base 0x110000) (s.on m) acts) [.load Code.heapLo Input.noise] := by
    rw [ends]
    exact ⟨⟨user.1,user.2,by decide,by decide⟩,trivial,trivial⟩
  obtain ⟨both,through⟩ := admits.append last
  refine ⟨_,both,through.trans ?_⟩
  rw [ends]
  exact faultingOn unmapped

/- pm maps the page although fs waits for it already, and then maps it for fs: what pm has
stored there is gone. -/
theorem heapReplaced : ¬ ∀ m, smallMemory.rootfsLoadAll smallImages = some m → ∀ s,
    Transition.Reach (heapSystem helloNamed m 0x110000) (fun _ _ => True) s → HeapKept (heapSystem helloNamed m 0x110000) (fun _ _ => True) s := by
  intro kept
  have enough := smallEnough
  have short : ∀ image ∈ smallImages, image.length ≤ 65536 := by
    intro image member
    rw [List.eq_of_mem_replicate member]
    decide
  obtain ⟨m,loaded,left⟩ : ∃ m, smallMemory.rootfsLoadAll smallImages = some m ∧
      (Pmm.pmmInit Pmm.smallImage Pmm.smallInfo fun _ => 0).freeSet.card ≤ m.pmm.freeSet.card + 249 :=
    rootfsLoads (by decide) (by decide) short (by omega)
  have many : 712 ≤ m.pmm.freeSet.card := by omega
  obtain ⟨pages,frontier⟩ : HeapPages m ∧ ∀ va, InHeap va → ∃ k n, Frontier m va k n := loadedHeap (by decide) (by decide) loaded
  have inside : InHeap Code.heapLo := ⟨by decide,by decide⟩
  have aligned : pageAlignDown Code.heapLo = Code.heapLo := by decide
  obtain ⟨k,n,empty⟩ := frontier Code.heapLo inside
  -- the first mapping, and the second one over it
  have room := takeRoom pages.tree empty (by omega)
  obtain ⟨fresh,⟨t,table⟩,few⟩ := mapsFresh pages.tree (by rintro none; rw [none] at many; cases many) room
  have pages₁ : HeapPages (m.mapFresh Code.heapLo) := aligned ▸ pages.fresh inside empty.trace
  obtain ⟨f,_,backed⟩ := fresh.backed pages.tree
  have again : Room (m.mapFresh Code.heapLo).takeFrame Code.heapLo := .inl ⟨t,table⟩
  obtain ⟨fresh₁,_⟩ := mapsFresh pages₁.tree (by intro none; rw [none] at few; have := Finset.card_empty (α := Nat); omega) again
  obtain ⟨f',member,backed'⟩ := fresh₁.backed pages₁.tree
  obtain ⟨user₁,user₂,⟨user₃,maps₃⟩,user₄,maps₄⟩ := Booted.faultsCome
  have unmapped := unmappedAccess empty.trace false
  -- both threads fault before the pager has mapped anything
  have reach : Transition.Reach (heapSystem helloNamed m 0x110000) (fun _ _ => True) (Booted.pmResumed.on (m.mapFresh Code.heapLo)) := by
    have follow {s s' : Booted} (reach : Transition.Reach (heapSystem helloNamed m 0x110000) (fun _ _ => True) s)
        (leads : ∃ acts, Transition.Admits (heapSystem helloNamed m 0x110000) (fun _ _ => True) s acts ∧
          Transition.run (heapSystem helloNamed m 0x110000) s acts = s') : Transition.Reach (heapSystem helloNamed m 0x110000) (fun _ _ => True) s' := by
      obtain ⟨acts,admits,rfl⟩ := leads
      exact reach.run admits
    have started := follow (.start (startOn m).symm) (playsFaults m 73 user₁ unmapped)
    have waiting := follow started (playsFaults m 1 user₂ unmapped)
    have mapped := follow waiting (playsMaps m 17 user₃ maps₃ (aligned.symm ▸ fresh))
    rw [aligned] at mapped
    exact follow mapped (playsOn m _ 0x110000 7 _)
  obtain ⟨acts,admits,ends⟩ := playsMaps m 21 user₄ maps₄ (aligned.symm ▸ fresh₁)
  rw [aligned] at admits ends
  generalize Booted.pmResumed = s at reach admits ends
  generalize m.mapFresh Code.heapLo = m₁ at *
  have low := (heapPlace inside).1
  obtain absent | ⟨g,own,usable⟩ := pages₁.page _ inside
  · exact backed.mapped absent
  obtain ⟨access,_⟩ := kept m loaded _ reach acts admits Code.heapLo _ inside (usable.access own low false)
  have after := access false
  rw [ends] at after
  change (m₁.mapFresh Code.heapLo).userAccess Code.heapLo false = _ at after
  have other := userKernel (by rw [after]; rfl) (backed'.access low)
  have same := Option.some.inj (after.symm.trans other)
  have frames : g = f' := by omega
  exact own.notFree (frames ▸ member)

end
end Mukern
