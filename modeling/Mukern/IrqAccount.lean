import Mukern.Transfer
import Mukern.Lifetime

/-! Where the interrupts go that `isr_handler` posts to a thread: each is still pending,
or a receive has returned `IPC_IRQ_SENDER` for it. -/
namespace Mukern
open Kernel

def Event.posts (d : Slot) : Event → Bool
  | .irqPost _ t => t = d
  | _ => false

/- `ipc_recv_locked` returns an interrupt to `d`. -/
def Event.signals (d : Slot) : Event → Bool
  | .recvRet t r _ => t = d && r = ipcIrqSender
  | _ => false

/- From `k` to `k'` slot `d` keeps its occupant, and what is posted to it is added to
the pending count or returned. -/
def Balances (d : Slot) (k k' : Kernel) : Prop :=
  ∃ es, k'.history = es ++ k.history ∧ (∀ e ∈ es, e.creates d = false) ∧
    es.countP (Event.posts d) + (k.threads d).irqPending = (k'.threads d).irqPending + es.countP (Event.signals d)

/- All that was posted to the occupants of the slots since they were created. -/
def Balanced (k : Kernel) : Prop :=
  ∀ d, (sinceBirth k.history d).countP (Event.posts d) =
    (k.threads d).irqPending + (sinceBirth k.history d).countP (Event.signals d)

section
variable {k₀ k k' k'' : Kernel} {input : Input} {i d : Slot} {e : Event}

theorem Balances.refl (k : Kernel) : Balances d k k := ⟨[],rfl,by simp,by simp⟩

theorem Balances.trans (first : Balances d k k') (second : Balances d k' k'') : Balances d k k'' := by
  obtain ⟨es,older,kept,counts⟩ := first
  obtain ⟨es',older',kept',counts'⟩ := second
  refine ⟨es' ++ es,by rw [older',older,List.append_assoc],fun e member => ?_,?_⟩
  · rcases List.mem_append.mp member with new | old
    · exact kept' e new
    · exact kept e old
  · simp only [List.countP_append]
    omega

theorem balancesSame (history : k'.history = k.history) (pending : (k'.threads d).irqPending = (k.threads d).irqPending) : Balances d k k' :=
  ⟨[],history,by simp,by simp [pending]⟩

/- Events that say nothing of interrupts or of new threads. -/
theorem Balances.log (kept : Balances d k k') (quiet : e.creates d = false ∧ e.posts d = false ∧ e.signals d = false) :
    Balances d k (k'.log e) :=
  kept.trans ⟨[e],rfl,by simp [quiet.1],by simp [quiet.2]⟩

theorem Balances.upd (kept : Balances d k k') (f : Thread → Thread) (same : ∀ t, (f t).irqPending = t.irqPending) :
    Balances d k (k'.upd i f) := by
  refine kept.trans (balancesSame rfl ?_)
  rw [updThreads]
  split
  · rename_i own
    rw [same,own]
  · rfl

theorem balancesSchedule {point : Context} : Balances d k (k.schedule point) :=
  balancesSame (scheduleHistory k point) (scheduleKeeps Thread.irqPending (fun _ _ _ => rfl) k point d)

theorem balancesSend {dest m caller} : Balances d k (k.ipcSendLocked i dest m caller).1 := by
  have called : Balances d k (k.log (.sendCall i dest m)) := (Balances.refl k).log ⟨rfl,rfl,rfl⟩
  have outcome := ipcSendOutcome k i dest m caller
  generalize k.ipcSendLocked i dest m caller = result at outcome
  cases outcome with
  | refused nobody => exact called.log ⟨rfl,rfl,rfl⟩
  | met r named ready =>
    refine .log (.log (called.upd _ fun t => ?_) ⟨rfl,rfl,rfl⟩) ⟨rfl,rfl,rfl⟩
    exact wakeIrqPending _
  | staged r named present busy =>
    have staged : Balances d k ((k.log (.sendCall i dest m)).stage i dest m) := called.upd _ fun _ => rfl
    exact staged.trans balancesSchedule

/- A pending interrupt is returned. -/
theorem balancesSignal {f : Thread → Thread} {m} (pending : 0 < (k.threads i).irqPending)
    (taken : (f (k.threads i)).irqPending = (k.threads i).irqPending - 1) :
    Balances d k ((k.upd i f).log (.recvRet i ipcIrqSender m)) := by
  refine ⟨[.recvRet i ipcIrqSender m],rfl,by simp [Event.creates],?_⟩
  rw [logThreads,updThreads]
  split
  · rename_i own
    subst own
    simp only [taken,List.countP_singleton,Event.posts,Event.signals]
    simp
    omega
  · rename_i other
    simp [Event.posts,Event.signals,Ne.symm other]

theorem tidNotIrq {s : Slot} : tid s ≠ ipcIrqSender := by
  have := tidNonneg s
  simp only [ipcIrqSender]
  omega

theorem balancesRecv {src junk caller} : Balances d k (k.ipcRecvLocked i src junk caller).1 := by
  have called : Balances d k (k.log (.recvCall i src)) := (Balances.refl k).log ⟨rfl,rfl,rfl⟩
  have outcome := ipcRecvOutcome k i src junk caller
  generalize k.ipcRecvLocked i src junk caller = result at outcome
  cases outcome with
  | irq pending => exact called.trans (balancesSignal (Nat.pos_of_ne_zero pending) rfl)
  | taken snd quiet waiting =>
    refine .log (.log (called.upd _ fun t => ?_) ⟨rfl,rfl,rfl⟩) ⟨rfl,rfl,?_⟩
    · exact wakeIrqPending _
    · simp [Event.signals,tidNotIrq]
  | awaits quiet nobody =>
    have waits : Balances d k ((k.log (.recvCall i src)).await i src) := called.upd _ fun _ => rfl
    exact waits.trans balancesSchedule

theorem balancesOnCpu : Balances d k (k.onCpu i) := by
  have saved : Balances d k (k.upd i ({ · with saved := .running })) := (Balances.refl k).upd _ fun _ => rfl
  exact saved

theorem balancesResumeRecv {caller junk} (carries : Carries k) (coherent : Coherent k) (mode : k.mode = .resume) (current : k.current = some i)
    (saved : (k.threads i).saved = .recv caller) : Balances d k ((k.onCpu i).ipcRecvResume i junk).1 := by
  have onCpu := balancesOnCpu (d := d) (k := k) (i := i)
  have resumable := (coherent.placed i).resumable current mode
  simp only [Resumable,saved] at resumable
  refine onCpu.trans ?_
  unfold ipcRecvResume
  dsimp only
  split
  · rename_i receiving
    have woken : (k.threads i).ipcState = .receiving := by simpa [Kernel.onCpu] using receiving
    have pending : 0 < (k.threads i).irqPending := by simpa [woken] using resumable
    refine balancesSignal ?_ rfl
    simpa [Kernel.onCpu] using pending
  · rename_i delivered
    have given : (k.threads i).ipcState ≠ .receiving := by simpa [Kernel.onCpu] using delivered
    have received : wire (k.threads i) = .received (k.threads i).ipcFrom (k.threads i).ipcBuf := by simp [wire,saved,given]
    obtain ⟨s,named⟩ := receivedFrom carries received
    have sender : ((k.onCpu i).threads i).ipcFrom = tid s := by simpa [Kernel.onCpu] using named
    refine .log (.upd (.refl _) _ fun _ => rfl) ⟨rfl,rfl,?_⟩
    simp [Event.signals,sender,tidNotIrq]

theorem balancesIrq {line} : Balances d k (k.irqNotify line) := by
  unfold irqNotify
  split
  · exact .refl k
  · rename_i t _
    split
    · refine ⟨[.irqPost line t],rfl,by simp [Event.creates],?_⟩
      rw [logThreads,updThreads]
      split
      · rename_i own
        subst own
        dsimp only
        split <;> simp [Event.posts,Event.signals] <;> omega
      · rename_i other
        simp [Event.posts,Event.signals,Ne.symm other]
    · exact .refl k

theorem balancesGrant {t ep} : Balances d k (k.capGrantEndpoint t ep).1 := by
  unfold capGrantEndpoint
  split
  · exact .refl k
  · rename_i t
    have granted : Balances d k (k.upd t ({ · with ctable := ((k.threads t).ctable.grantEndpoint ep).1 })) :=
      (Balances.refl k).upd _ fun _ => rfl
    dsimp only
    split
    · exact granted.log ⟨rfl,rfl,rfl⟩
    · exact granted

theorem balancesGrantIo {t base len} : Balances d k (k.capGrantIo t base len).1 := by
  unfold capGrantIo
  split
  · exact .refl k
  · rename_i t
    have granted : Balances d k (k.upd t ({ · with ctable := ((k.threads t).ctable.grantIo base len).1 })) :=
      (Balances.refl k).upd _ fun _ => rfl
    dsimp only
    split
    · exact granted.log ⟨rfl,rfl,rfl⟩
    · exact granted

theorem balancesDie {point} : Balances d k (k.die i point) := by
  have dies : Balances d k ((k.upd i ({ · with state := .dead })).log (.dead i)) :=
    .log (.upd (.refl k) _ fun _ => rfl) ⟨rfl,rfl,rfl⟩
  exact dies.trans balancesSchedule

theorem balancedMove (balanced : Balanced k) (kept : ∀ d, Balances d k k') : Balanced k' := by
  intro d
  obtain ⟨es,older,uncreated,counts⟩ := kept d
  have before := balanced d
  rw [older,sinceBirthGrow uncreated]
  simp only [List.countP_append]
  omega

/- A new thread starts with nothing pending, whatever was posted to the slot before. -/
theorem balancedCreate {parent prog} (balanced : Balanced k) : Balanced (k.threadCreate parent prog).1 := by
  unfold threadCreate
  split
  · rename_i n _
    intro d
    rw [logHistory,updHistory,logThreads,updThreads]
    by_cases own : d = n
    · subst own
      simp [sinceBirth,Event.creates,plant]
    · have older : sinceBirth (.create n parent prog :: k.history) d = .create n parent prog :: sinceBirth k.history d :=
        sinceBirthOther own
      rw [older,if_neg own]
      simpa [Event.posts,Event.signals] using balanced d
  · exact balanced

theorem moveBalanced (carries : Carries k) (coherent : Coherent k) (balanced : Balanced k) (move : Move k₀ input k k') : Balanced k' := by
  cases move with
  | create prog acting call named => exact balancedCreate balanced
  | openCall acting allowed => exact balancedMove balanced fun d => .log (.upd (.refl k) _ fun _ => rfl) ⟨rfl,rfl,rfl⟩
  | closeCall source acting =>
    refine balancedMove balanced fun d => (Balances.refl k).upd _ fun t => ?_
    unfold closeCall
    split <;> rfl
  | send acting called => exact balancedMove balanced fun d => balancesSend
  | recv src junk rsi acting => exact balancedMove balanced fun d => balancesRecv
  | grantChild child acting created => exact balancedMove balanced fun d => balancesGrant
  | grantCap acting call held => exact balancedMove balanced fun d => balancesGrant
  | grantIo acting call => exact balancedMove balanced fun d => balancesGrantIo
  | exit acting call => exact balancedMove balanced fun d => balancesDie
  | faultSend forwards => exact balancedMove balanced fun d => balancesSend
  | faultRecv junk acting sent => exact balancedMove balanced fun d => balancesRecv
  | kill acting verdict nonzero => exact balancedMove balanced fun d => balancesDie
  | tick user => exact balancedMove balanced fun d => balancesSchedule
  | irq user call vec => exact balancedMove balanced fun d => balancesIrq
  | resumePlain mode current saved => exact balancedMove balanced fun d => balancesOnCpu
  | resumeSend mode current saved =>
    exact balancedMove balanced fun d => .log (.upd balancesOnCpu _ fun _ => rfl) ⟨rfl,rfl,rfl⟩
  | resumeRecv junk mode current saved =>
    exact balancedMove balanced fun d => balancesResumeRecv carries coherent mode current saved
  | enter acting | leave acting | port acting call held | copy acting source | fault forwards | faultEnd acting answered =>
    exact balancedMove balanced fun d => (Balances.refl _).log ⟨rfl,rfl,rfl⟩
  | @setPager i tf acting call =>
    have same : Balanced { k₀.log (.syscall i tf) with pagerTid := tid i } := balanced
    exact balancedMove same fun d => (Balances.refl _).log ⟨rfl,rfl,rfl⟩
  | @irqRegister i tf line mask acting call named =>
    have same : Balanced { k₀.log (.syscall i tf) with irqTid := fun n => if n = line then tid i else k₀.irqTid n, irqMask := mask } := balanced
    exact balancedMove same fun d => (Balances.refl _).log ⟨rfl,rfl,rfl⟩
  | memory memory | resumeIdle mode current | panic live => exact balanced

theorem bootBalanced (memory : Memory) (stackBase : Word) : Balanced (boot memory stackBase) := by
  have first : Balanced (schedInit memory stackBase) := by
    intro d
    rfl
  have planted : Balanced ((schedInit memory stackBase).threadCreate none 0).1 := balancedCreate first
  exact planted

/- Init drives line 1; of three interrupts it has received one. -/
def Script.keystrokes : List Input :=
  [.tick,.go,.call 15 1 0 0,.irq 1,.irq 1,.call 3 (-1) Script.userPage 0,.irq 1]

end
end Mukern
