import Mukern.Lifetime

/-! The routing tables of `trap.c`: the pager and the driver of each interrupt line.
`SYS_SET_PAGER` and `SYS_IRQ_REGISTER` write them, and nothing else does. -/
namespace Mukern
open Kernel

inductive Role where
  | pager
  | irq (line : Fin 16)
  deriving DecidableEq, Repr

def Kernel.roleTid (k : Kernel) : Role → Int
  | .pager => k.pagerTid
  | .irq line => k.irqTid line

/- Thread `i` has taken the role. -/
def Event.takes (i : Slot) (r : Role) : Event → Bool
  | .setPager j => j = i && r = .pager
  | .irqRegister j line => j = i && r = .irq line
  | _ => false

/- The thread that executes `SYS_SET_PAGER` or `SYS_IRQ_REGISTER`, and the role it takes.
Lines are checked to be in the range of the thread ids. -/
def Kernel.taking (k : Kernel) : Input → Option (Slot × Role)
  | .trap tf _ =>
    match k.current with
    | none => none
    | some i =>
      if tf.vec = syscallVector then
        match Syscall.ofRax tf.rax with
        | .setPager => some (i,.pager)
        | .irqRegister => (threadById (cint tf.rdi)).map fun line => (i,.irq line)
        | _ => none
      else none
  | .resume _ | .store _ _ => none

def routes (k : Kernel) : Int × (Fin 16 → Int) := (k.pagerTid,k.irqTid)

/- What a move does to the tables: nothing, or it gives one role to the acting thread. -/
inductive Reroutes (k₀ : Kernel) (input : Input) (k k' : Kernel) : Prop where
  | none (same : routes k' = routes k)
  | takes {i r tf e} (acting : Acting k₀ i) (taking : k₀.taking input = some (i,r)) (before : k = k₀.log (.syscall i tf))
      (older : k'.history = e :: k.history) (event : e.takes i r) (holder : k'.roleTid r = tid i)
      (others : ∀ r', r' ≠ r → k'.roleTid r' = k.roleTid r')

section
variable {k₀ k k' : Kernel} {input : Input} {i : Slot}

theorem routesSchedule {point : Context} : routes (k.schedule point) = routes k :=
  scheduleFrame routes (fun _ _ _ _ _ => rfl) k point

theorem routesRole (same : routes k' = routes k) (r : Role) : k'.roleTid r = k.roleTid r := by
  cases r with
  | pager => exact congrArg Prod.fst same
  | irq line => exact congrFun (congrArg Prod.snd same) line

theorem routesSend {dest m caller} : routes (k.ipcSendLocked i dest m caller).1 = routes k := by
  have outcome := ipcSendOutcome k i dest m caller
  generalize k.ipcSendLocked i dest m caller = result at outcome
  cases outcome with
  | refused nobody | met d named ready => rfl
  | staged d named present busy => exact routesSchedule

theorem routesRecv {src junk caller} : routes (k.ipcRecvLocked i src junk caller).1 = routes k := by
  have outcome := ipcRecvOutcome k i src junk caller
  generalize k.ipcRecvLocked i src junk caller = result at outcome
  cases outcome with
  | irq pending | taken snd quiet waiting => rfl
  | awaits quiet nobody => exact routesSchedule

theorem routesGrant {t ep} : routes (k.capGrantEndpoint t ep).1 = routes k := by
  unfold capGrantEndpoint
  split
  · rfl
  · dsimp only
    split <;> rfl

theorem routesGrantIo {t base len} : routes (k.capGrantIo t base len).1 = routes k := by
  unfold capGrantIo
  split
  · rfl
  · dsimp only
    split <;> rfl

theorem routesIrq {line} : routes (k.irqNotify line) = routes k := by
  unfold irqNotify
  split
  · rfl
  · split <;> rfl

theorem moveRoutes (move : Move k₀ input k k') : Reroutes k₀ input k k' := by
  cases move with
  | @setPager i tf acting call =>
    obtain ⟨hw,rfl,vec,number⟩ := call
    have taking : k₀.taking (.trap tf hw) = some (i,.pager) := by simp [taking,acting.2,vec,number]
    refine .takes acting taking rfl rfl (by simp [Event.takes]) rfl fun r other => ?_
    cases r with
    | pager => exact absurd rfl other
    | irq line => rfl
  | @irqRegister i tf line mask acting call named =>
    obtain ⟨hw,rfl,vec,number⟩ := call
    have taking : k₀.taking (.trap tf hw) = some (i,.irq line) := by simp [taking,acting.2,vec,number,named]
    refine .takes acting taking rfl rfl (by simp [Event.takes]) (if_pos rfl) fun r other => ?_
    cases r with
    | pager => rfl
    | irq line' => exact if_neg fun same => other (congrArg Role.irq same)
  | send acting called => exact .none routesSend
  | recv src junk rsi acting => exact .none routesRecv
  | create prog acting call named =>
    refine .none ?_
    unfold threadCreate
    split <;> rfl
  | grantChild child acting created => exact .none routesGrant
  | grantCap acting call held => exact .none routesGrant
  | grantIo acting call => exact .none routesGrantIo
  | exit acting call => exact .none routesSchedule
  | faultSend forwards => exact .none routesSend
  | faultRecv junk acting sent => exact .none routesRecv
  | kill acting verdict nonzero => exact .none routesSchedule
  | tick user => exact .none routesSchedule
  | irq user call vec => exact .none routesIrq
  | resumeRecv junk mode current saved =>
    refine .none ?_
    unfold ipcRecvResume
    dsimp only
    split <;> rfl
  | _ => exact .none rfl

/- A role changes hands only to the thread that takes it. -/
theorem moveRole (move : Move k₀ input k k') (r : Role) : k'.roleTid r = k.roleTid r ∨
    ∃ i tf e, Acting k₀ i ∧ k₀.taking input = some (i,r) ∧ k = k₀.log (.syscall i tf) ∧ k'.history = e :: k.history ∧ e.takes i r ∧
      k'.roleTid r = tid i := by
  cases moveRoutes move with
  | none same => exact .inl (routesRole same r)
  | @takes i r' tf e acting taking before older event holder others =>
    by_cases own : r = r'
    · subst own
      exact .inr ⟨i,tf,e,acting,taking,before,older,event,holder⟩
    · exact .inl (others r own)

end
end Mukern
