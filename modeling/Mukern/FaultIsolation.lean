import Mukern.Presence

/-! Which events of Ring 3 code halt the machine. The kernel panics on every
exception but the page fault, on a page fault that it cannot forward, and when it
faults itself on the buffer pointer of a send or a receive. -/
namespace Mukern
open Kernel

section
variable {k₀ k k' : Kernel} {input : Input} {i j : Slot}

theorem scheduleMode {point} : (k.schedule point).mode = .resume := by
  unfold schedule reschedule
  split <;> split <;> rfl

theorem sendCurrent {dest m caller} (user : (k.ipcSendLocked i dest m caller).1.mode = .user) :
    (k.ipcSendLocked i dest m caller).1.current = k.current := by
  have outcome := ipcSendOutcome k i dest m caller
  generalize k.ipcSendLocked i dest m caller = result at outcome user
  cases outcome with
  | refused nobody => rfl
  | met d named ready => rfl
  | staged d named present busy => exact absurd (scheduleMode.symm.trans user) (by simp)

theorem recvCurrent {src junk caller} (user : (k.ipcRecvLocked i src junk caller).1.mode = .user) :
    (k.ipcRecvLocked i src junk caller).1.current = k.current := by
  have outcome := ipcRecvOutcome k i src junk caller
  generalize k.ipcRecvLocked i src junk caller = result at outcome user
  cases outcome with
  | irq pending => rfl
  | taken snd quiet waiting => rfl
  | awaits quiet nobody => exact absurd (scheduleMode.symm.trans user) (by simp)

/- Within a step the CPU stays with one thread until the switch. -/
theorem moveCurrent (move : Move k₀ input k k') (user : k'.mode = .user) : k'.current = k.current := by
  cases move with
  | send acting called => exact sendCurrent user
  | recv src junk rsi acting => exact recvCurrent user
  | faultSend forwards => exact sendCurrent user
  | faultRecv junk acting sent => exact recvCurrent user
  | exit acting call => exact absurd (scheduleMode.symm.trans user) (by simp)
  | kill acting verdict nonzero => exact absurd (scheduleMode.symm.trans user) (by simp)
  | tick live => exact absurd (scheduleMode.symm.trans user) (by simp)
  | create prog acting call named =>
    unfold threadCreate
    split <;> rfl
  | grantChild child acting created =>
    unfold capGrantEndpoint
    dsimp only
    split <;> rfl
  | grantCap acting call held =>
    unfold capGrantEndpoint
    split
    · rfl
    · dsimp only
      split <;> rfl
  | grantIo acting call =>
    unfold capGrantIo
    split
    · rfl
    · dsimp only
      split <;> rfl
  | irq live call vec =>
    unfold irqNotify
    split
    · rfl
    · split <;> rfl
  | resumeRecv junk mode current saved =>
    unfold ipcRecvResume
    dsimp only
    split <;> rfl
  | _ => rfl

/- As long as a step has not switched, its thread is the one that was current. -/
theorem movesCurrent (moves : Moves k₀ input k₀ k) (user : k.mode = .user) : k.current = k₀.current := by
  induction moves with
  | refl => rfl
  | tail before move ih =>
    have same := moveCurrent move user
    obtain live | first | ⟨mode,_⟩ := moveLive move
    · exact same.trans (ih live)
    · rw [same,first]
    · exact same.trans (ih (mode ▸ user))

end
end Mukern
