import Mukern.Capability

/-! `kernel/sched.c` and `proc_spawn`: the thread table, the round-robin choice
and the switch. -/
namespace Mukern

def kstackSize : Word := 16384

def threadZero : Thread :=
  { saved := .vacant, state := .unused, kstackTop := 0, ipcState := .none, ipcPeer := 0,
    ipcCallTo := -1, ipcFrom := 0, irqPending := 0, ipcBuf := ⟨0,0,0,0⟩,
    ctable := fun _ => ⟨.null,0,0,0,0⟩ }

namespace Kernel

/- `(uint64_t)&stacks[i][KSTACK_SIZE]`. -/
def stackTop (k : Kernel) (i : Slot) : Word := k.stackBase + kstackSize * BitVec.ofNat 64 (i.val + 1)

def threadWake (t : Thread) : Thread := if t.state = .blocked then { t with state := .runnable } else t

section
variable (t : Thread)

@[simp] theorem wakeSaved : (threadWake t).saved = t.saved := by unfold threadWake; split <;> rfl
@[simp] theorem wakeIpcState : (threadWake t).ipcState = t.ipcState := by unfold threadWake; split <;> rfl
@[simp] theorem wakeIpcPeer : (threadWake t).ipcPeer = t.ipcPeer := by unfold threadWake; split <;> rfl
@[simp] theorem wakeIpcCallTo : (threadWake t).ipcCallTo = t.ipcCallTo := by unfold threadWake; split <;> rfl
@[simp] theorem wakeIpcFrom : (threadWake t).ipcFrom = t.ipcFrom := by unfold threadWake; split <;> rfl
@[simp] theorem wakeIrqPending : (threadWake t).irqPending = t.irqPending := by unfold threadWake; split <;> rfl
@[simp] theorem wakeIpcBuf : (threadWake t).ipcBuf = t.ipcBuf := by unfold threadWake; split <;> rfl
@[simp] theorem wakeCtable : (threadWake t).ctable = t.ctable := by unfold threadWake; split <;> rfl
@[simp] theorem wakeState : (threadWake t).state = if t.state = .blocked then .runnable else t.state := by
  unfold threadWake; split <;> rfl

end

/- The first slot that `thread_create` may take: never used, exited or killed. -/
def freeThread (k : Kernel) : Option Slot :=
  (List.finRange 16).find? fun i => (k.threads i).state = .unused || (k.threads i).state = .dead

/- The fields that `thread_create` writes; `ipc_from` and `ipc_buf` stay. -/
def plant (t : Thread) (top : Word) (prog : Fin 12) : Thread :=
  { t with
    saved := .trampoline prog
    kstackTop := top
    state := .runnable
    ipcState := .none
    ipcPeer := ipcAny
    ipcCallTo := -1
    irqPending := 0
    ctable := capClear }

def threadCreate (k : Kernel) (parent : Option Slot) (prog : Fin 12) : Kernel × Int :=
  match k.freeThread with
  | some i => ((k.upd i (plant · (k.stackTop i) prog)).log (.create i parent prog), tid i)
  | none => (k, -1)

def procSpawn (k : Kernel) (parent : Option Slot) (prog : Int) : Kernel × Int :=
  if h : 0 ≤ prog ∧ prog < 12 then k.threadCreate parent ⟨prog.toNat, progInRange h⟩ else (k, -1)

/- `threads[(from + n) % SCHED_MAX_THREADS]`. -/
def scanSlot (start n : Nat) : Slot := ⟨(start + n) % 16, Nat.mod_lt _ (by decide)⟩

def scanStart (k : Kernel) : Nat :=
  match k.current with
  | none => 0
  | some p => p.val + 1

def pickNext (k : Kernel) : Option Slot :=
  ((List.range 16).map (scanSlot k.scanStart)).find? fun i => (k.threads i).state = .runnable

/- The kernel stack of `current` now waits at `point`. The idle thread has only
one such point, the timer tick in its loop. -/
def suspend (k : Kernel) (point : Context) : Kernel :=
  match k.current with
  | none => k
  | some p => k.upd p ({ · with saved := point })

def kstackTopOf (k : Kernel) : Option Slot → Word
  | none => 0
  | some i => (k.threads i).kstackTop

/- `if (prev->state == T_RUNNING) prev->state = T_RUNNABLE`. -/
def offCpu (t : Thread) : Thread := if t.state = .running then { t with state := .runnable } else t

def leaveCpu (k : Kernel) : Kernel :=
  match k.current with
  | none => k
  | some p => k.upd p offCpu

def enterCpu (k : Kernel) : Option Slot → Kernel
  | none => k
  | some n => k.upd n ({ · with state := .running })

/- The end of `schedule()`: both states, `rsp0`, `current`, the switch. -/
def switchTo (k : Kernel) (next : Option Slot) : Kernel :=
  let k := k.leaveCpu.enterCpu next
  { k with rsp0 := k.kstackTopOf next, current := next, mode := .resume }

/- Where the source returns without a switch, the context saved last is the one
that continues. -/
def reschedule (k : Kernel) : Kernel :=
  match k.pickNext with
  | some n => if k.current = some n then { k with mode := .resume } else k.switchTo (some n)
  | none => if k.current = none then { k with mode := .resume } else k.switchTo none

/- `schedule()` called at `point`. -/
def schedule (k : Kernel) (point : Context) : Kernel := (k.suspend point).reschedule

theorem suspendIdle {k : Kernel} (current : k.current = none) (point) : k.suspend point = k := by
  simp only [suspend,current]

theorem suspendThread {k : Kernel} {p} (current : k.current = some p) (point) :
    k.suspend point = k.upd p ({ · with saved := point }) := by
  simp only [suspend,current]

theorem pickNextRunnable {k : Kernel} {n} (h : k.pickNext = some n) :
    (k.threads n).state = .runnable := by
  simpa using List.find?_some h

theorem freeThreadDead {k : Kernel} {i} (h : k.freeThread = some i) :
    (k.threads i).state = .unused ∨ (k.threads i).state = .dead := by
  simpa using List.find?_some h

/- The record of the thread that `schedule()` switches away from. -/
def parked (point : Context) (t : Thread) : Thread := offCpu { t with saved := point }

section
variable (point : Context) (t : Thread)

@[simp] theorem parkedIpcState : (parked point t).ipcState = t.ipcState := by unfold parked offCpu; split <;> rfl
@[simp] theorem parkedIpcPeer : (parked point t).ipcPeer = t.ipcPeer := by unfold parked offCpu; split <;> rfl
@[simp] theorem parkedIpcCallTo : (parked point t).ipcCallTo = t.ipcCallTo := by unfold parked offCpu; split <;> rfl
@[simp] theorem parkedIpcFrom : (parked point t).ipcFrom = t.ipcFrom := by unfold parked offCpu; split <;> rfl
@[simp] theorem parkedIrqPending : (parked point t).irqPending = t.irqPending := by unfold parked offCpu; split <;> rfl
@[simp] theorem parkedIpcBuf : (parked point t).ipcBuf = t.ipcBuf := by unfold parked offCpu; split <;> rfl
@[simp] theorem parkedCtable : (parked point t).ctable = t.ctable := by unfold parked offCpu; split <;> rfl
@[simp] theorem parkedSaved : (parked point t).saved = point := by unfold parked offCpu; split <;> rfl
@[simp] theorem parkedState :
    (parked point t).state = if t.state = .running then .runnable else t.state := by
  unfold parked offCpu; split <;> rfl

end

/- All that `schedule()` does, whichever thread it chooses. -/
structure Switch (k : Kernel) (point : Context) (k' : Kernel) : Prop where
  prev : ∀ p, k.current = some p → k'.threads p = parked point (k.threads p)
  next : ∀ n, k'.current = some n →
    (k.threads n).state = .runnable ∧ k'.threads n = { k.threads n with state := .running }
  other : ∀ j, k.current ≠ some j → k'.current ≠ some j → k'.threads j = k.threads j
  away : ∀ p, k.current = some p → k'.current ≠ some p
  mode : k'.mode = .resume
  rsp0 : k.rsp0 = k.kstackTopOf k.current → k'.rsp0 = k'.kstackTopOf k'.current
  history : k'.history = k.history
  memory : k'.memory = k.memory
  pagerTid : k'.pagerTid = k.pagerTid
  irqTid : k'.irqTid = k.irqTid

theorem switchFromThread {k : Kernel} (point : Context) {p : Slot} (next : Option Slot)
    (current : k.current = some p)
    (choice : ∀ n, next = some n → n ≠ p ∧ (k.threads n).state = .runnable) :
    Switch k point ((k.suspend point).switchTo next) := by
  rw [suspendThread current]
  cases next with
  | none =>
    constructor <;> simp +contextual [switchTo,leaveCpu,enterCpu,current,parked,kstackTopOf]
    intro j other same
    exact absurd same.symm other
  | some n =>
    obtain ⟨different,runnable⟩ := choice n rfl
    constructor <;> simp [switchTo,leaveCpu,enterCpu,current,parked,kstackTopOf,different,runnable,Ne.symm different]
    intro j notPrev notNext
    simp [Ne.symm notPrev,Ne.symm notNext]

theorem switchFromIdle {k : Kernel} (point : Context) {n : Slot} (current : k.current = none)
    (runnable : (k.threads n).state = .runnable) : Switch k point (k.switchTo (some n)) := by
  constructor <;> simp [switchTo,leaveCpu,enterCpu,current,kstackTopOf,runnable]
  intro j notNext
  simp [Ne.symm notNext]

/- The thread that calls `schedule()` is never found by the scan, so a thread
always leaves the CPU here; only the idle thread may return at once. -/
theorem scheduleSwitch {k : Kernel} (point : Context)
    (parkable : ∀ p, k.current = some p → (k.threads p).state ≠ .runnable) :
    Switch k point (k.schedule point) := by
  unfold schedule
  cases current : k.current with
  | none =>
    rw [suspendIdle current]
    unfold reschedule
    cases chosen : k.pickNext with
    | none => constructor <;> simp [current,kstackTopOf]
    | some n => simpa [current] using switchFromIdle point current (pickNextRunnable chosen)
  | some p =>
    have same : (k.suspend point).current = some p := by rw [suspendThread current]; exact current
    unfold reschedule
    cases chosen : (k.suspend point).pickNext with
    | none => simpa [same] using switchFromThread point none current (by simp)
    | some n =>
      have runnable : (k.threads n).state = .runnable := by
        have h := pickNextRunnable chosen
        rw [suspendThread current] at h
        by_cases at' : n = p <;> simpa [at'] using h
      have different : n ≠ p := fun h => parkable p current (h ▸ runnable)
      have choice : ∀ m, some n = some m → m ≠ p ∧ (k.threads m).state = .runnable := by
        intro m h
        cases h
        exact ⟨different,runnable⟩
      simpa [same,Ne.symm different] using switchFromThread point (some n) current choice

/- Only the saved context and the states runnable and running change. -/
theorem switchThread {k k' : Kernel} {point : Context} (switch : Switch k point k') (j : Slot) :
    ∃ saved state, k'.threads j = { k.threads j with saved := saved, state := state } ∧
      (state = (k.threads j).state ∨
        (state = .runnable ∨ state = .running) ∧
          ((k.threads j).state = .runnable ∨ (k.threads j).state = .running)) := by
  by_cases prev : k.current = some j
  · refine ⟨point,(parked point (k.threads j)).state,?_,?_⟩
    · rw [switch.prev j prev]
      unfold parked offCpu
      split <;> simp [*]
    · by_cases running : (k.threads j).state = .running <;> simp [running]
  · by_cases next : k'.current = some j
    · obtain ⟨runnable,same⟩ := switch.next j next
      exact ⟨_,_,same,.inr ⟨.inr rfl,.inl runnable⟩⟩
    · exact ⟨(k.threads j).saved,(k.threads j).state,switch.other j prev next,.inl rfl⟩

/- What a thread owns besides its scheduling state stays with it over a switch. -/
theorem scheduleKeeps {α : Type} (g : Thread → α)
    (blind : ∀ t saved state, g { t with saved := saved, state := state } = g t) (k : Kernel)
    (point : Context) (j : Slot) : g ((k.schedule point).threads j) = g (k.threads j) := by
  have off : ∀ t, g (offCpu t) = g t := by
    intro t
    unfold offCpu
    split
    · exact blind t t.saved .runnable
    · rfl
  have suspended : ∀ j, g ((k.suspend point).threads j) = g (k.threads j) := by
    intro j
    unfold suspend
    split
    · rfl
    · rw [updThreads]
      split
      · rename_i same
        rw [same]
        exact blind _ point _
      · rfl
  have left : ∀ k : Kernel, ∀ j, g (k.leaveCpu.threads j) = g (k.threads j) := by
    intro k j
    unfold leaveCpu
    split
    · rfl
    · rw [updThreads]
      split
      · rename_i same
        rw [same,off]
      · rfl
  have entered : ∀ k : Kernel, ∀ next j, g ((k.enterCpu next).threads j) = g (k.threads j) := by
    intro k next j
    cases next with
    | none => rfl
    | some n =>
      rw [enterCpu,updThreads]
      split
      · rename_i same
        rw [same]
        exact blind _ (k.threads n).saved .running
      · rfl
  have switched : ∀ k : Kernel, ∀ next j, g ((k.switchTo next).threads j) = g (k.threads j) :=
    fun k next j => (entered k.leaveCpu next j).trans (left k j)
  rw [schedule,← suspended j]
  unfold reschedule
  split <;> split <;> first | rfl | exact switched _ _ j

/- A switch writes the thread table, the current thread, the mode and `rsp0`, and no more. -/
theorem scheduleFrame {α : Type} (g : Kernel → α)
    (blind : ∀ (k : Kernel) threads current mode rsp0,
      g { k with threads := threads, current := current, mode := mode, rsp0 := rsp0 } = g k)
    (k : Kernel) (point : Context) : g (k.schedule point) = g k := by
  have suspended : g (k.suspend point) = g k := by
    unfold suspend
    split
    · rfl
    · exact blind k _ k.current k.mode k.rsp0
  have switched : ∀ (k : Kernel) next, g (k.switchTo next) = g k := by
    intro k next
    have left : g k.leaveCpu = g k := by
      unfold leaveCpu
      split
      · rfl
      · exact blind k _ k.current k.mode k.rsp0
    refine Eq.trans ?_ left
    cases next with
    | none => exact blind k.leaveCpu k.leaveCpu.threads none .resume _
    | some n => exact blind k.leaveCpu _ (some n) .resume _
  rw [← suspended]
  unfold schedule reschedule
  split <;> split <;>
    first | exact blind (k.suspend point) (k.suspend point).threads (k.suspend point).current .resume (k.suspend point).rsp0 | exact switched _ _

theorem scheduleHistory (k : Kernel) (point : Context) : (k.schedule point).history = k.history :=
  scheduleFrame Kernel.history (fun _ _ _ _ _ => rfl) k point

end Kernel
end Mukern
