import Mukern.Run
import Mukern.Library.RoundRobin

/-! How long a runnable thread waits for the CPU: `schedule()` is a scan in cyclic
order, and the thread comes nearer with every call that passes it over. The idle
thread has the CPU when the scan finds nobody. -/
namespace Mukern
namespace Kernel
open RoundRobin

/- How many slots the next scan looks at before it comes to `t`. -/
def scanDistance (k : Kernel) (t : Slot) : Nat := distance k.scanStart t

/- Calls of `schedule()` one after the other. Before each of them the other threads
may have changed in any way; `t` is runnable at each until it is chosen. -/
structure ScheduleCalls (entry : Nat → Kernel) (point : Nat → Context) (t : Slot) : Prop where
  between : ∀ i, (entry (i + 1)).current = ((entry i).schedule (point i)).current
  runnable : ∀ i, (∀ j < i, ((entry j).schedule (point j)).current ≠ some t) → ((entry i).threads t).state = .runnable

section
variable {k k' : Kernel} {point : Context} {t n : Slot}

theorem pickNextScan : k.pickNext = scan k.scanStart fun i => decide ((k.threads i).state = .runnable) := rfl

theorem suspendScan : (k.suspend point).pickNext = k.pickNext := by
  cases current : k.current with
  | none => rw [suspendIdle current]
  | some p =>
    have same : ∀ i, ((k.suspend point).threads i).state = (k.threads i).state := by
      intro i
      rw [suspendThread current,updThreads]
      split
      · rename_i own
        rw [own]
      · rfl
    have start : (k.suspend point).scanStart = k.scanStart := by
      rw [suspendThread current]
      rfl
    rw [pickNextScan,pickNextScan,start]
    simp only [same]

/- The thread that the scan finds has the CPU when `schedule()` ends. -/
theorem scheduleCurrent (found : k.pickNext = some n) : (k.schedule point).current = some n := by
  have chosen : (k.suspend point).pickNext = some n := suspendScan.trans found
  rw [schedule,reschedule,chosen]
  dsimp only
  split
  · assumption
  · rfl

theorem distanceCurrent (current : k'.current = some n) : k'.scanDistance t = distance (n.val + 1) t := by
  rw [scanDistance,scanStart,current]

theorem distanceSame (same : k'.current = k.current) : k'.scanDistance t = k.scanDistance t := by
  rw [scanDistance,scanDistance,scanStart,scanStart,same]

/- One call: `t` is chosen, or another thread is and `t` comes nearer. -/
theorem scheduleCloser (point : Context) (runnable : (k.threads t).state = .runnable) :
    ∃ n, (k.schedule point).current = some n ∧ (n = t ∨ (k.schedule point).scanDistance t < k.scanDistance t) := by
  have meets : decide ((k.threads t).state = .runnable) = true := decide_eq_true runnable
  have finds : ∃ n, scan k.scanStart (fun i => decide ((k.threads i).state = .runnable)) = some n ∧ _ := scanFinds meets
  obtain ⟨n,found,_⟩ := finds
  have current : (k.schedule point).current = some n := scheduleCurrent (pickNextScan.trans found)
  refine ⟨n,current,(scanCloser found meets).imp_right fun closer => ?_⟩
  rwa [distanceCurrent current]

end

section
variable {entry : Nat → Kernel} {point : Nat → Context} {t : Slot}

/- As long as `t` is passed over, every call has used up some of its distance. -/
theorem callsCloser (calls : ScheduleCalls entry point t) {i : Nat}
    (passed : ∀ j < i, ((entry j).schedule (point j)).current ≠ some t) : (entry i).scanDistance t + i < 16 := by
  induction i with
  | zero => exact distanceLt
  | succ i ih =>
    have earlier : ∀ j < i, ((entry j).schedule (point j)).current ≠ some t := fun j low => passed j (by omega)
    have before := ih earlier
    obtain ⟨n,current,chosen | closer⟩ := scheduleCloser (point i) (calls.runnable i earlier)
    · exact absurd (chosen ▸ current) (passed i (Nat.lt_succ_self i))
    · rw [distanceSame (calls.between i)]
      omega

/- A thread that stays runnable is chosen by one of 16 calls; until then each call
chooses a thread, not idle, and brings it strictly nearer. -/
theorem schedulingDelay (calls : ScheduleCalls entry point t) :
    (∃ i < 16, ((entry i).schedule (point i)).current = some t) ∧
      ∀ i, (∀ j < i, ((entry j).schedule (point j)).current ≠ some t) →
        ((entry i).schedule (point i)).current ≠ none ∧
          (((entry i).schedule (point i)).current ≠ some t → (entry (i + 1)).scanDistance t < (entry i).scanDistance t) := by
  constructor
  · by_contra never
    have passed : ∀ j < 16, ((entry j).schedule (point j)).current ≠ some t := fun j low chosen => never ⟨j,low,chosen⟩
    have spent := callsCloser calls passed
    omega
  · intro i earlier
    obtain ⟨n,current,chosen | closer⟩ := scheduleCloser (point i) (calls.runnable i earlier)
    · refine ⟨by simp [current],fun other => ?_⟩
      exact absurd (chosen ▸ current) other
    · refine ⟨by simp [current],fun _ => ?_⟩
      rwa [distanceSame (calls.between i)]

end
end Kernel

/- Init and a second thread are runnable, idle has the CPU; timer ticks only. -/
def Script.turns : Nat → Kernel
  | 0 => (Script.start.threadCreate none 1).1
  | n + 1 => (Script.turns n).schedule .tick

/- The second thread waits for one turn of init. -/
theorem Kernel.schedulingDelayTurns : ∃ i < 16, ((Script.turns i).schedule .tick).current = some 1 := by
  have calls : ScheduleCalls Script.turns (fun _ => .tick) 1 := by
    refine ⟨fun _ => rfl,fun i passed => ?_⟩
    match i with
    | 0 => decide
    | 1 => decide
    | i + 2 =>
      have chosen : ((Script.turns 1).schedule .tick).current = some 1 := by decide
      exact absurd chosen (passed 1 (by omega))
  exact (schedulingDelay calls).1

namespace Kernel
open RoundRobin

/- If the call leaves the CPU to the idle thread, no slot was runnable and the thread
that ran until then had stopped running. -/
def IdleLast (k : Kernel) (point : Context) : Prop :=
  (k.schedule point).current = none →
    (∀ i, (k.threads i).state ≠ .runnable) ∧ ∀ p, k.current = some p → (k.threads p).state ≠ .running

/- The thread on the CPU could go on, and no other is ready. -/
def RunsAlone (k : Kernel) : Prop :=
  (∃ p, k.current = some p ∧ (k.threads p).state = .running) ∧ ∀ i, (k.threads i).state ≠ .runnable

section
variable {k : Kernel}

theorem pickNextNone : k.pickNext = none ↔ ∀ i, (k.threads i).state ≠ .runnable := by
  constructor
  · intro missing i runnable
    have meets : decide ((k.threads i).state = .runnable) = true := decide_eq_true runnable
    have finds : ∃ n, scan k.scanStart (fun i => decide ((k.threads i).state = .runnable)) = some n ∧ _ := scanFinds meets
    obtain ⟨n,found,_⟩ := finds
    rw [← pickNextScan,missing] at found
    cases found
  · intro nobody
    cases found : k.pickNext with
    | none => rfl
    | some n => exact absurd (pickNextRunnable found) (nobody n)

/- The scan alone decides: it does not look at the thread that calls. -/
theorem scheduleIdle (point : Context) : (k.schedule point).current = none ↔ ∀ i, (k.threads i).state ≠ .runnable := by
  rw [← pickNextNone]
  cases found : k.pickNext with
  | some n => simp [scheduleCurrent found]
  | none =>
    have missing : (k.suspend point).pickNext = none := suspendScan.trans found
    rw [schedule,reschedule,missing]
    dsimp only
    split
    · rename_i idle
      simpa using idle
    · simp [switchTo]

/- Whoever calls `schedule()`: idle takes the CPU from a thread that could go on exactly
when that thread runs alone. -/
theorem idleOnlyWhenAlone (k : Kernel) (point : Context) : k.IdleLast point ↔ ¬ k.RunsAlone := by
  rw [IdleLast,scheduleIdle]
  constructor
  · rintro last ⟨⟨p,current,running⟩,nobody⟩
    exact (last nobody).2 p current running
  · intro shared nobody
    exact ⟨nobody,fun p current running => shared ⟨⟨p,current,running⟩,nobody⟩⟩

/- Init is the only thread, and a tick finds it running. -/
theorem idlePreempts : ∃ k, Reachable k ∧ k.mode = .user ∧ ¬ k.IdleLast .tick := by
  refine ⟨Transition.run machine Script.start [.tick,.go],Script.reach (by decide +kernel),by decide +kernel,fun last => ?_⟩
  have idle : ((Transition.run machine Script.start [.tick,.go]).schedule .tick).current = none := by decide +kernel
  have stopped := (last idle).2 0 (by decide +kernel)
  exact stopped (by decide +kernel)

end
end Kernel
end Mukern
