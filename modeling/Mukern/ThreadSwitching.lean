import Mukern.SwitchX86
import Mukern.SwitchRiscv
import Mukern.Scheduler
import Mukern.Library.Transition

/-! `thread_create` and the switch of `schedule()` with the kernel stacks and the registers
of both architectures: what a thread finds when it is switched to. -/
namespace Mukern
open LittleEndian Coroutines Transition

inductive Arch where
  | x86_64
  | riscv64
  deriving DecidableEq, Repr

def Arch.isa : Arch → Isa
  | .x86_64 => X86.x86_64
  | .riscv64 => Riscv.riscv64

theorem Arch.lawful (arch : Arch) : arch.isa.Lawful := by
  cases arch with
  | x86_64 => exact X86.lawful
  | riscv64 => exact Riscv.lawful

/- The addresses that the linker gives to the objects of the kernel: `stacks`, the boot
stack on which the idle thread runs, the `rsp` of each thread and of `idle`, and
`thread_trampoline`. Different objects do not overlap. -/
structure StackLayout (isa : Isa) where
  stackBase : Word
  bootLow : Word
  bootTop : Word
  rsp : Option Slot → Word
  threadTrampoline : Word
  code : isa.Code threadTrampoline
  aligned : stackBase.toNat % 16 = 0
  stacksFit : stackBase.toNat + 16 * 16384 < 2 ^ 64
  frameFits : isa.frameBytes ≤ 16384
  bootRoom : bootLow.toNat + isa.frameBytes ≤ bootTop.toNat
  bootApart : bootTop.toNat ≤ stackBase.toNat ∨ stackBase.toNat + 16 * 16384 ≤ bootLow.toNat
  rspApart : ∀ t u, t ≠ u → (rsp t).toNat + 8 ≤ (rsp u).toNat ∨ (rsp u).toNat + 8 ≤ (rsp t).toNat
  rspOffStacks : ∀ t, (rsp t).toNat + 8 ≤ stackBase.toNat ∨ stackBase.toNat + 16 * 16384 ≤ (rsp t).toNat
  rspOffBoot : ∀ t, (rsp t).toNat + 8 ≤ bootLow.toNat ∨ bootTop.toNat ≤ (rsp t).toNat

namespace StackLayout
variable {isa : Isa} (image : StackLayout isa)

/- `(uint64_t)&stacks[i][KSTACK_SIZE]`. -/
def stackTop (i : Slot) : Word := image.stackBase + kstackSize * BitVec.ofNat 64 (i.val + 1)

theorem stackTopIs (i : Slot) : (image.stackTop i).toNat = image.stackBase.toNat + 16384 * (i.val + 1) := by
  have fits := image.stacksFit
  have low := i.isLt
  have size : kstackSize.toNat = 16384 := rfl
  have offset : (kstackSize * BitVec.ofNat 64 (i.val + 1)).toNat = 16384 * (i.val + 1) := by
    rw [BitVec.toNat_mul,size,BitVec.toNat_ofNat]
    omega
  rw [stackTop,BitVec.toNat_add_of_lt (by omega),offset]

def stackLow : Option Slot → Nat
  | none => image.bootLow.toNat
  | some i => image.stackBase.toNat + 16384 * i.val

def topOf : Option Slot → Word
  | none => image.bootTop
  | some i => image.stackTop i

/- The array `stacks` holds the stack of each thread. -/
theorem stackInside (i : Slot) : image.stackBase.toNat ≤ image.stackLow (some i) ∧
    (image.topOf (some i)).toNat = image.stackLow (some i) + 16384 ∧
    (image.topOf (some i)).toNat ≤ image.stackBase.toNat + 16 * 16384 := by
  have low := i.isLt
  have top : (image.topOf (some i)).toNat = image.stackBase.toNat + 16384 * (i.val + 1) := image.stackTopIs i
  have bottom : image.stackLow (some i) = image.stackBase.toNat + 16384 * i.val := rfl
  omega

def arena : Arena isa (Option Slot) where
  lo := image.stackLow
  top := image.topOf
  cell := image.rsp
  entry := image.threadTrampoline
  entryCode := image.code
  room t := by
    cases t with
    | none => exact image.bootRoom
    | some i =>
      obtain ⟨_,top,_⟩ := image.stackInside i
      have fits := image.frameFits
      omega
  stacksApart t u other := by
    have boot := image.bootApart
    cases t with
    | none =>
      cases u with
      | none => exact absurd rfl other
      | some i =>
        obtain ⟨low,top,high⟩ := image.stackInside i
        simp only [stackLow,topOf] at low top high ⊢
        omega
    | some i =>
      obtain ⟨low,top,high⟩ := image.stackInside i
      cases u with
      | none =>
        simp only [stackLow,topOf] at low top high ⊢
        omega
      | some j =>
        obtain ⟨low',top',high'⟩ := image.stackInside j
        have different : i.val ≠ j.val := fun same => other (congrArg some (Fin.ext same))
        simp only [stackLow,topOf] at low top high low' top' high' ⊢
        omega
  cellsApart := image.rspApart
  cellOutside t u := by
    have stacks' := image.rspOffStacks t
    cases u with
    | none => exact image.rspOffBoot t
    | some i =>
      obtain ⟨low,_,high⟩ := image.stackInside i
      omega

end StackLayout

/- The machine and the field `state` of each thread. -/
structure ThreadMachine (isa : Isa) where
  running : Running isa (Option Slot)
  state : Slot → ThreadState

/- What the kernel does. `work` stands for all that the current thread computes; it leaves
these registers and this memory. -/
inductive ThreadAction (isa : Isa) where
  | work (cpu : isa.Cpu) (memory : Bytes)
  | create (fn arg : Word)
  | block
  | wake (i : Slot)
  | exit
  | switch (next : Option Slot) (ret : Word)

/- The slot that `thread_create` takes. -/
def freeThreadSlot (state : Slot → ThreadState) : Option Slot :=
  (List.finRange 16).find? fun i => state i = .unused || state i = .dead

namespace ThreadMachine
variable {isa : Isa}

/- A thread that marked itself dead only halts until it is switched away. -/
def Alive (s : ThreadMachine isa) : Prop := ∀ p, s.running.current = some p → s.state p ≠ .dead

def setCurrent (s : ThreadMachine isa) (state : ThreadState) : ThreadMachine isa :=
  match s.running.current with
  | none => s
  | some p => { s with state := Function.update s.state p state }

/- `prev` of `schedule()` becomes runnable again if it still runs. -/
def leave (s : ThreadMachine isa) : Slot → ThreadState :=
  match s.running.current with
  | none => s.state
  | some p => if s.state p = .running then Function.update s.state p .runnable else s.state

def enter (state : Slot → ThreadState) : Option Slot → Slot → ThreadState
  | none => state
  | some n => Function.update state n .running

def act (image : StackLayout isa) (s : ThreadMachine isa) : ThreadAction isa → ThreadMachine isa
  | .work cpu memory => { s with running := s.running.work cpu memory }
  | .create fn arg =>
    match freeThreadSlot s.state with
    | none => s
    | some i => ⟨image.arena.plant s.running (some i) fn arg,Function.update s.state i .runnable⟩
  | .block => s.setCurrent .blocked
  | .wake i => if s.state i = .blocked then { s with state := Function.update s.state i .runnable } else s
  | .exit => s.setCurrent .dead
  | .switch next ret => ⟨image.arena.switch s.running next ret,enter s.leave next⟩

/- Each thread modifies only its own kernel stack. `context_switch` is called for a thread
that is runnable or for the idle thread, with room for its frame on the stack of the caller. -/
def Enabled (image : StackLayout isa) (s : ThreadMachine isa) : ThreadAction isa → Prop
  | .work _ memory => image.arena.Respects s.running memory
  | .wake _ => True
  | .create fn _ => s.Alive ∧ isa.Code fn
  | .block | .exit => s.Alive
  | .switch next ret => next ≠ s.running.current ∧ (∀ n, next = some n → s.state n = .runnable) ∧ isa.Code ret ∧ image.arena.Room s.running

end ThreadMachine

/- The start is `sched_init`, with whatever the registers and the memory hold. -/
def threadSystem {isa : Isa} (image : StackLayout isa) : System (ThreadMachine isa) (ThreadAction isa) where
  start s := s.running.current = none ∧ ∀ i, s.state i = .unused
  enabled := ThreadMachine.Enabled image
  next := ThreadMachine.act image

/- A thread that was switched away comes back to its call, with the stack pointer and the
registers that it had. -/
def ResumesExactly {isa : Isa} (image : StackLayout isa) (s : ThreadMachine isa) : Prop :=
  ∀ next ret inputs again, s.Alive → (threadSystem image).enabled s (.switch next ret) →
    Admits (threadSystem image) (fun _ _ => True) (s.act image (.switch next ret)) inputs →
    (∀ ret', .switch s.running.current ret' ∉ inputs) →
    (threadSystem image).enabled (run (threadSystem image) (s.act image (.switch next ret)) inputs) (.switch s.running.current again) →
    let s' := (run (threadSystem image) (s.act image (.switch next ret)) inputs).act image (.switch s.running.current again)
    isa.pc s'.running.cpu = ret ∧ isa.sp s'.running.cpu = isa.sp s.running.cpu ∧ isa.saved s'.running.cpu = isa.saved s.running.cpu

/- A new thread starts in the trampoline at the top of its own stack, and the trampoline
calls the function of `thread_create` with its argument. -/
def StartsFresh {isa : Isa} (image : StackLayout isa) (s : ThreadMachine isa) : Prop :=
  ∀ fn arg i inputs again, (threadSystem image).enabled s (.create fn arg) → freeThreadSlot s.state = some i →
    Admits (threadSystem image) (fun _ _ => True) (s.act image (.create fn arg)) inputs →
    (∀ ret, .switch (some i) ret ∉ inputs) →
    (threadSystem image).enabled (run (threadSystem image) (s.act image (.create fn arg)) inputs) (.switch (some i) again) →
    let s' := (run (threadSystem image) (s.act image (.create fn arg)) inputs).act image (.switch (some i) again)
    isa.pc s'.running.cpu = image.threadTrampoline ∧ isa.sp s'.running.cpu = image.stackTop i ∧ (image.stackTop i).toNat % 16 = 0 ∧
      isa.saved s'.running.cpu = isa.fresh fn arg ∧
      ∀ back, isa.pc (isa.launch back (s'.running.cpu,s'.running.memory)).1 = fn ∧
        isa.parameter (isa.launch back (s'.running.cpu,s'.running.memory)).1 = arg

section
variable {isa : Isa} {image : StackLayout isa} {s : ThreadMachine isa} {t : Option Slot} {w : Waiting} {action : ThreadAction isa}

theorem freeThreadSlotIs {state : Slot → ThreadState} {i : Slot} (free : freeThreadSlot state = some i) : state i = .unused ∨ state i = .dead := by
  simpa using List.find?_some free

/- The slot is one that `thread_create` leaves alone. -/
def Occupied (state : Slot → ThreadState) (t : Option Slot) : Prop := ∀ i, t = some i → state i ≠ .unused ∧ state i ≠ .dead

/- `t` waits for its turn: its frame is in place and its slot is taken. -/
structure Suspended (image : StackLayout isa) (s : ThreadMachine isa) (t : Option Slot) (w : Waiting) : Prop where
  parked : image.arena.Parked s.running t w
  occupied : Occupied s.state t

theorem updateOccupied {state : Slot → ThreadState} {p : Slot} {value : ThreadState} (occupied : Occupied state t) (other : some p ≠ t) :
    Occupied (Function.update state p value) t := by
  intro i is
  have different : i ≠ p := fun same => other (same ▸ is.symm)
  rw [Function.update_of_ne different]
  exact occupied i is

theorem updateOwn {state : Slot → ThreadState} {p : Slot} {value : ThreadState} (taken : value ≠ .unused ∧ value ≠ .dead) :
    Occupied (Function.update state p value) (some p) := by
  intro i is
  obtain rfl : p = i := Option.some.inj is
  rwa [Function.update_self]

theorem updateTaken {state : Slot → ThreadState} {p : Slot} {value : ThreadState} (occupied : Occupied state t) (taken : value ≠ .unused ∧ value ≠ .dead) :
    Occupied (Function.update state p value) t := by
  by_cases own : some p = t
  · exact own ▸ updateOwn taken
  · exact updateOccupied occupied own

theorem leaveOccupied (occupied : Occupied s.state t) : Occupied s.leave t := by
  unfold ThreadMachine.leave
  split
  · exact occupied
  · split
    · exact updateTaken occupied ⟨by decide,by decide⟩
    · exact occupied

theorem enterOccupied {state : Slot → ThreadState} (occupied : Occupied state t) (next : Option Slot) : Occupied (ThreadMachine.enter state next) t := by
  cases next with
  | none => exact occupied
  | some n => exact updateTaken occupied ⟨by decide,by decide⟩

theorem setCurrentSuspended (suspended : Suspended image s t w) (state : ThreadState) : Suspended image (s.setCurrent state) t w := by
  unfold ThreadMachine.setCurrent
  split
  · exact suspended
  · rename_i p current
    exact ⟨suspended.parked,updateOccupied suspended.occupied fun own => suspended.parked.away (current.trans own)⟩

/- Whatever the others do, a thread that waits goes on waiting. -/
theorem stepSuspended (lawful : isa.Lawful) (suspended : Suspended image s t w) (enabled : s.Enabled image action) (stays : ∀ ret, action ≠ .switch t ret) :
    Suspended image (s.act image action) t w := by
  obtain ⟨parked,occupied⟩ := suspended
  cases action with
  | work cpu memory => exact ⟨Arena.workKeeps lawful parked cpu enabled,occupied⟩
  | create fn arg =>
    rcases free : freeThreadSlot s.state with _ | i
    · simp only [ThreadMachine.act,free]
      exact ⟨parked,occupied⟩
    · have other : some i ≠ t := by
        intro same
        obtain ⟨used,alive⟩ := occupied i same.symm
        exact (freeThreadSlotIs free).elim used alive
      simp only [ThreadMachine.act,free]
      exact ⟨Arena.plantKeeps lawful parked other fn arg,updateOccupied occupied other⟩
  | block => exact setCurrentSuspended ⟨parked,occupied⟩ .blocked
  | wake i =>
    simp only [ThreadMachine.act]
    split
    · exact ⟨parked,updateTaken occupied ⟨by decide,by decide⟩⟩
    · exact ⟨parked,occupied⟩
  | exit => exact setCurrentSuspended ⟨parked,occupied⟩ .dead
  | switch next ret =>
    obtain ⟨_,_,_,room⟩ := enabled
    have other : next ≠ t := fun same => stays ret (same ▸ rfl)
    exact ⟨Arena.switchKeeps lawful parked room other ret,enterOccupied (leaveOccupied occupied) next⟩

theorem runSuspended (lawful : isa.Lawful) {inputs : List (ThreadAction isa)} (suspended : Suspended image s t w)
    (admits : Admits (threadSystem image) (fun _ _ => True) s inputs) (stays : ∀ ret, .switch t ret ∉ inputs) :
    Suspended image (run (threadSystem image) s inputs) t w := by
  induction inputs generalizing s with
  | nil => exact suspended
  | cons action inputs ih =>
    have first : ∀ ret, action ≠ .switch t ret := fun ret same => stays ret (same ▸ List.mem_cons_self)
    have stepped : Suspended image ((threadSystem image).next s action) t w := stepSuspended lawful suspended admits.1 first
    exact ih stepped admits.2.2 fun ret later => stays ret (List.mem_cons_of_mem action later)

/- The thread that runs has a slot. -/
def HasSlot (s : ThreadMachine isa) : Prop := ∀ p, s.running.current = some p → s.state p ≠ .unused

theorem updateUsed {state : Slot → ThreadState} {p i : Slot} {value : ThreadState} (used : state p ≠ .unused) (taken : value ≠ .unused) :
    Function.update state i value p ≠ .unused := by
  by_cases own : p = i
  · rwa [own,Function.update_self]
  · rwa [Function.update_of_ne own]

theorem setCurrentSlot (hasSlot : HasSlot s) {state : ThreadState} (taken : state ≠ .unused) : HasSlot (s.setCurrent state) := by
  unfold ThreadMachine.setCurrent
  split
  · exact hasSlot
  · rename_i p current
    intro q is
    obtain rfl : p = q := Option.some.inj (current.symm.trans is)
    simpa using taken

theorem stepSlot (hasSlot : HasSlot s) (enabled : s.Enabled image action) : HasSlot (s.act image action) := by
  cases action with
  | work cpu memory => exact hasSlot
  | create fn arg =>
    rcases free : freeThreadSlot s.state with _ | i
    · simp only [ThreadMachine.act,free]
      exact hasSlot
    · simp only [ThreadMachine.act,free]
      exact fun p current => updateUsed (hasSlot p current) (by decide)
  | block => exact setCurrentSlot hasSlot (by decide)
  | wake i =>
    simp only [ThreadMachine.act]
    split
    · exact fun p current => updateUsed (hasSlot p current) (by decide)
    · exact hasSlot
  | exit => exact setCurrentSlot hasSlot (by decide)
  | switch next ret =>
    intro p current
    obtain rfl : next = some p := current
    have taken : ThreadMachine.enter s.leave (some p) p = .running := Function.update_self ..
    exact fun unused => by cases taken.symm.trans unused

theorem hasSlot (reach : Reach (threadSystem image) (fun _ _ => True) s) : HasSlot s :=
  reach.invariant HasSlot (fun _ start p current => by cases start.1.symm.trans current) fun _ _ before enabled _ => stepSlot before enabled

/- A thread that leaves the processor alive waits for the return of its call. -/
theorem switchSuspends (lawful : isa.Lawful) (hasSlot : HasSlot s) (alive : s.Alive) {next : Option Slot} {ret : Word} (enabled : s.Enabled image (.switch next ret)) :
    Suspended image (s.act image (.switch next ret)) s.running.current ⟨ret,isa.sp s.running.cpu,isa.saved s.running.cpu⟩ := by
  obtain ⟨other,_,code,room⟩ := enabled
  have occupied : Occupied s.state s.running.current := fun p current => ⟨hasSlot p current,alive p current⟩
  exact ⟨Arena.switchParks lawful room other code,enterOccupied (leaveOccupied occupied) next⟩

/- A new thread waits at the trampoline. -/
theorem createSuspends (lawful : isa.Lawful) (hasSlot : HasSlot s) (fn arg : Word) {i : Slot} (enabled : s.Enabled image (.create fn arg))
    (free : freeThreadSlot s.state = some i) : Suspended image (s.act image (.create fn arg)) (some i) ⟨image.threadTrampoline,image.stackTop i,isa.fresh fn arg⟩ := by
  have away : s.running.current ≠ some i := fun current => (freeThreadSlotIs free).elim (hasSlot i current) (enabled.1 i current)
  simp only [ThreadMachine.act,free]
  exact ⟨Arena.plantParks lawful away fn arg,updateOwn ⟨by decide,by decide⟩⟩

theorem suspendedResumes (lawful : isa.Lawful) (suspended : Suspended image s t w) {again : Word} (enabled : s.Enabled image (.switch t again)) :
    isa.pc (s.act image (.switch t again)).running.cpu = w.pc ∧ isa.sp (s.act image (.switch t again)).running.cpu = w.sp ∧
      isa.saved (s.act image (.switch t again)).running.cpu = w.saved :=
  Arena.switchResumes lawful suspended.parked enabled.2.2.2 again

theorem resumes (lawful : isa.Lawful) (reach : Reach (threadSystem image) (fun _ _ => True) s) : ResumesExactly image s := by
  intro next ret inputs again alive away admits stays back
  have parked := switchSuspends lawful (hasSlot reach) alive away
  exact suspendedResumes lawful (runSuspended lawful parked admits stays) back

theorem starts (lawful : isa.Lawful) (reach : Reach (threadSystem image) (fun _ _ => True) s) : StartsFresh image s := by
  intro fn arg i inputs again creates free admits stays first
  have created : s.Enabled image (.create fn arg) := creates
  have planted := createSuspends lawful (hasSlot reach) fn arg created free
  obtain ⟨pc,sp,saved⟩ := suspendedResumes lawful (runSuspended lawful planted admits stays) first
  refine ⟨pc,sp,?_,saved,fun back => ?_⟩
  · have aligned := image.aligned
    rw [image.stackTopIs]
    omega
  · exact lawful.launches rfl saved creates.2

/- The machine and the kernel's model without stacks agree on the scheduling. -/
structure SameScheduling (s : ThreadMachine isa) (k : Kernel) : Prop where
  current : s.running.current = k.current
  state : s.state = fun i => (k.threads i).state

theorem createSchedules {k : Kernel} (alike : SameScheduling s k) (fn arg : Word) (parent : Option Slot) (prog : Fin 12) :
    SameScheduling (s.act image (.create fn arg)) (k.threadCreate parent prog).1 := by
  have same : freeThreadSlot s.state = k.freeThread := congrArg freeThreadSlot alike.state
  simp only [ThreadMachine.act,Kernel.threadCreate,same]
  rcases k.freeThread with _ | i
  · exact alike
  · refine ⟨alike.current,funext fun j => ?_⟩
    have state : Function.update s.state i .runnable j = if j = i then ThreadState.runnable else s.state j := Function.update_apply ..
    refine Eq.trans state ?_
    simp only [Kernel.logThreads,Kernel.updThreads]
    split
    · rfl
    · exact congrFun alike.state j

/- Where `schedule()` of the model changes the thread, it is such a switch. -/
theorem scheduleSwitches {k : Kernel} (alike : SameScheduling s k) (point : Context) {ret : Word} (code : isa.Code ret) (room : image.arena.Room s.running)
    (parkable : ∀ p, k.current = some p → (k.threads p).state ≠ .runnable) (moved : (k.schedule point).current ≠ k.current) :
    s.Enabled image (.switch (k.schedule point).current ret) ∧ SameScheduling (s.act image (.switch (k.schedule point).current ret)) (k.schedule point) := by
  have switch := Kernel.scheduleSwitch point parkable
  have runnable : ∀ n, (k.schedule point).current = some n → s.state n = .runnable := by
    intro n next
    rw [alike.state]
    exact (switch.next n next).1
  have left : ∀ j, (k.schedule point).current ≠ some j → s.leave j = ((k.schedule point).threads j).state := by
    intro j notNext
    unfold ThreadMachine.leave
    rw [alike.current]
    rcases current : k.current with _ | p
    · rw [switch.other j (by rw [current]; exact nofun) notNext,alike.state]
    · simp only
      by_cases own : j = p
      · rw [own,switch.prev p current,Kernel.parkedState,← congrFun alike.state p]
        split
        · exact Function.update_self ..
        · rfl
      · rw [switch.other j (by rw [current]; exact fun same => own (Option.some.inj same).symm) notNext,← congrFun alike.state j]
        split
        · exact Function.update_of_ne own ..
        · rfl
  refine ⟨⟨alike.current ▸ moved,runnable,code,room⟩,rfl,funext fun j => ?_⟩
  simp only [ThreadMachine.act]
  rcases next : (k.schedule point).current with _ | n
  · exact left j (by rw [next]; exact nofun)
  · by_cases own : j = n
    · rw [own,ThreadMachine.enter,Function.update_self,(switch.next n next).2]
    · rw [ThreadMachine.enter,Function.update_of_ne own]
      exact left j (by rw [next]; exact fun same => own (Option.some.inj same).symm)

/- Every thread that is switched to finds what it left, or what `thread_create` planted. -/
theorem contextsKept (arch : Arch) (image : StackLayout arch.isa) {s : ThreadMachine arch.isa} (reach : Reach (threadSystem image) (fun _ _ => True) s) :
    ResumesExactly image s ∧ StartsFresh image s :=
  ⟨resumes arch.lawful reach,starts arch.lawful reach⟩

/- An image with the boot stack below `stacks` and the thread table above it. -/
def rspAt (t : Option Slot) : Nat := 0x300000 + 1024 * (match t with | none => 0 | some i => i.val + 1)

theorem rspBelow (t : Option Slot) : 0x300000 ≤ rspAt t ∧ rspAt t ≤ 0x304000 := by
  unfold rspAt
  cases t with
  | none => decide
  | some i =>
    have low := i.isLt
    simp only
    omega

theorem rspValue (t : Option Slot) : (BitVec.ofNat 64 (rspAt t)).toNat = rspAt t := by
  obtain ⟨_,high⟩ := rspBelow t
  rw [BitVec.toNat_ofNat,Nat.mod_eq_of_lt (by omega)]

theorem rspDistinct {t u : Option Slot} (other : t ≠ u) : rspAt t + 8 ≤ rspAt u ∨ rspAt u + 8 ≤ rspAt t := by
  unfold rspAt
  cases t with
  | none =>
    cases u with
    | none => exact absurd rfl other
    | some j =>
      simp only
      omega
  | some i =>
    cases u with
    | none =>
      simp only
      omega
    | some j =>
      have different : i.val ≠ j.val := fun same => other (congrArg some (Fin.ext same))
      simp only
      omega

def tightImage : StackLayout (Arch.isa .x86_64) where
  stackBase := 0x200000
  bootLow := 0x100000
  bootTop := 0x104000
  rsp t := BitVec.ofNat 64 (rspAt t)
  threadTrampoline := 0x101000
  code := trivial
  aligned := by decide
  stacksFit := by decide
  frameFits := by decide
  bootRoom := by decide
  bootApart := by decide
  rspApart t u other := by
    rw [rspValue,rspValue]
    exact rspDistinct other
  rspOffStacks t := by
    have high := (rspBelow t).1
    have base : (0x200000 : Word).toNat = 0x200000 := rfl
    rw [rspValue]
    omega
  rspOffBoot t := by
    have high := (rspBelow t).1
    have top : (0x104000 : Word).toNat = 0x104000 := rfl
    rw [rspValue]
    omega

/- The idle thread in the middle of the boot stack. -/
def idling : ThreadMachine (Arch.isa .x86_64) := ⟨⟨(⟨fun _ => 0x103000,0,false⟩ : X86.Cpu),fun _ => 0,none⟩,fun _ => .unused⟩

/- The idle thread creates a thread, switches to it and is switched back to. -/
theorem contextsKeptIdle :
    let created := idling.act tightImage (.create 0x110000 7)
    let first := created.act tightImage (.switch (some 0) 0x102000)
    let back := first.act tightImage (.switch none 0x102000)
    (Arch.isa .x86_64).pc first.running.cpu = 0x101000 ∧ (Arch.isa .x86_64).sp first.running.cpu = 0x204000 ∧
      (Arch.isa .x86_64).pc back.running.cpu = 0x102000 ∧ (Arch.isa .x86_64).sp back.running.cpu = 0x103000 := by
  intro created first back
  have start : Reach (threadSystem tightImage) (fun _ _ => True) idling := .start ⟨rfl,fun _ => rfl⟩
  have creates : (threadSystem tightImage).enabled idling (.create 0x110000 7) := ⟨(fun _ current => nomatch current),trivial⟩
  have reach : Reach (threadSystem tightImage) (fun _ _ => True) created := start.step creates trivial
  have room : tightImage.arena.Room created.running := ⟨by decide,by decide⟩
  have switches : (threadSystem tightImage).enabled created (.switch (some 0) 0x102000) :=
    ⟨nofun,fun n next => by obtain rfl : 0 = n := Option.some.inj next; rfl,trivial,room⟩
  obtain ⟨pc,sp,_⟩ := (contextsKept .x86_64 tightImage start).2 0x110000 7 0 [] 0x102000 creates rfl trivial (fun _ => List.not_mem_nil) switches
  have top : (Arch.isa .x86_64).sp first.running.cpu = 0x204000 := sp
  have room' : tightImage.arena.Room first.running := by
    unfold Arena.Room
    rw [top]
    exact ⟨by decide,by decide⟩
  have returns : (threadSystem tightImage).enabled first (.switch none 0x102000) := ⟨nofun,nofun,trivial,room'⟩
  obtain ⟨pc',sp',_⟩ := (contextsKept .x86_64 tightImage reach).1 (some 0) 0x102000 [] 0x102000 (fun _ current => nomatch current) switches
    trivial (fun _ => List.not_mem_nil) returns
  exact ⟨pc,top,pc',sp'⟩

end
end Mukern
