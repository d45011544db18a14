import Mukern.OpenCalls
import Mukern.DeadPeers
import Mukern.Roles

/-! How often the open call of `d` lets `s` send. -/
namespace Mukern
open Kernel

/- What a suspended thread waits for, or has been given. -/
def mail (t : Thread) : Context × IpcState × Int × Int := (t.saved,t.ipcState,t.ipcPeer,t.ipcFrom)

/- What a step of another thread does to the mail of `j`. -/
inductive MailStep (k : Kernel) (input : Input) (j : Slot) (k' : Kernel) : Prop where
  | stays (same : mail (k'.threads j) = mail (k.threads j))
  | planted (gone : k.Gone j)
  | given (receiving : (k.threads j).ipcState = .receiving)
  | taken {c} (receiving : InReceive k input c) (sending : (k.threads j).ipcState = .sending) (waits : (k.threads j).ipcPeer = tid c)
      (closes : k'.mode = .halted ∨ (k'.threads c).ipcCallTo ≠ tid j)
  | pulled (sending : (k.threads j).ipcState = .sending) (pager : tid j = k.pagerTid)

section
variable {k k' : Kernel} {input : Input} {i j c : Slot}

theorem stateSchedule {point : Context} (away : k.current ≠ some j) :
    ∃ state, (k.schedule point).threads j = { k.threads j with state := state } := by
  have suspended : (k.suspend point).threads j = k.threads j ∧ (k.suspend point).current = k.current := by
    cases current : k.current with
    | none => simp [suspendIdle current,current]
    | some p =>
      have other : j ≠ p := fun same => away (same ▸ current)
      simp [suspendThread current,current,other]
  have entered : ∀ next, ∃ state, ((k.suspend point).switchTo next).threads j = { k.threads j with state := state } := by
    intro next
    have left : (k.suspend point).leaveCpu.threads j = k.threads j := by
      unfold leaveCpu
      rw [suspended.2]
      split
      · exact suspended.1
      · rename_i p current
        have other : j ≠ p := fun same => away (same ▸ current)
        rw [updThreads,if_neg other]
        exact suspended.1
    cases next with
    | none => exact ⟨_,left⟩
    | some n =>
      have place : ((k.suspend point).switchTo (some n)).threads j = ((k.suspend point).leaveCpu.enterCpu (some n)).threads j := rfl
      rw [place,enterCpu,updThreads]
      split
      · rename_i own
        subst own
        exact ⟨.running,by rw [left]⟩
      · exact ⟨_,left⟩
  unfold schedule reschedule
  split <;> split <;> first | exact ⟨_,suspended.1⟩ | exact entered _

/- The same, after a change to the thread that leaves the CPU. -/
theorem mailLeave {point : Context} {k' : Kernel} (same : k'.threads j = k.threads j) (away : k'.current ≠ some j) :
    mail ((k'.schedule point).threads j) = mail (k.threads j) := by
  obtain ⟨state,left⟩ : ∃ state, (k'.schedule point).threads j = { k'.threads j with state := state } := stateSchedule away
  rw [left,same]
  rfl

theorem mailDie {point} (acting : Acting k i) (other : j ≠ i) : mail ((k.die i point).threads j) = mail (k.threads j) := by
  have away : ((k.upd i ({ · with state := .dead })).log (.dead i)).current ≠ some j := acting.away other
  exact mailLeave (by simp [other]) away

theorem mailSend {dest m caller} (acting : Acting k i) (other : j ≠ i) :
    mail ((k.ipcSendLocked i dest m caller).1.threads j) = mail (k.threads j) ∨ (k.threads j).ipcState = .receiving := by
  have outcome := ipcSendOutcome k i dest m caller
  generalize k.ipcSendLocked i dest m caller = result at outcome
  cases outcome with
  | refused nobody => exact .inl rfl
  | met d named ready =>
    by_cases own : j = d
    · subst own
      simp only [receiverReady,Bool.and_eq_true,decide_eq_true_eq] at ready
      exact .inr ready.1.2
    · left
      simp [deliver,own]
  | staged d named present busy =>
    have away : ((k.log (.sendCall i dest m)).stage i dest m).current ≠ some j := acting.away other
    exact .inl (mailLeave (by simp [stage,other]) away)

theorem mailRecv {src junk caller} (acting : Acting k i) (other : j ≠ i) :
    mail ((k.ipcRecvLocked i src junk caller).1.threads j) = mail (k.threads j) ∨
      k.waitingSender i j src ∧ ∃ m, (k.ipcRecvLocked i src junk caller).2 = some (tid j,m) := by
  have outcome := ipcRecvOutcome k i src junk caller
  generalize k.ipcRecvLocked i src junk caller = result at outcome
  cases outcome with
  | irq pending =>
    left
    simp [other]
  | taken snd quiet waiting =>
    by_cases own : j = snd
    · subst own
      exact .inr ⟨waiting,_,rfl⟩
    · left
      simp [pickUp,own]
  | awaits quiet nobody =>
    have away : ((k.log (.recvCall i src)).await i src).current ≠ some j := acting.away other
    exact .inl (mailLeave (by simp [await,other]) away)

theorem mailVerdict {reply} (acting : Acting k i) (other : j ≠ i) : mail ((k.faultVerdict i reply).threads j) = mail (k.threads j) := by
  unfold faultVerdict
  dsimp only
  split
  · exact mailDie (k := k.log (.faultEnd i reply)) acting other
  · rfl

/- The page-fault path takes a message from the pager only. -/
theorem mailFaultRecv {junk} (acting : Acting k i) (other : j ≠ i) (pager : 0 ≤ k.pagerTid) :
    mail ((k.faultRecv i junk).threads j) = mail (k.threads j) ∨
      (k.threads j).ipcState = .sending ∧ tid j = k.pagerTid := by
  have received : mail ((k.ipcRecvLocked i k.pagerTid junk .fault).1.threads j) = mail (k.threads j) ∨
      k.waitingSender i j k.pagerTid ∧ ∃ m, (k.ipcRecvLocked i k.pagerTid junk .fault).2 = some (tid j,m) := mailRecv acting other
  rcases received with same | ⟨waits,_⟩
  · left
    unfold faultRecv
    split
    · rename_i k' source reply result
      rw [result] at same
      exact (mailVerdict (actingRecv acting result) other).trans same
    · rename_i k' result
      rwa [result] at same
  · have named := (waitingNamed pager waits).2.symm
    simp only [waitingSender,Bool.and_eq_true,decide_eq_true_eq] at waits
    exact .inr ⟨waits.1.1.2,named⟩

theorem mailForward {hw} (acting : Acting k i) (other : j ≠ i) (pager : 0 ≤ k.pagerTid) (busy : (k.threads j).ipcState ≠ .receiving) :
    mail ((k.faultForward i hw).threads j) = mail (k.threads j) ∨
      (k.threads j).ipcState = .sending ∧ tid j = k.pagerTid := by
  have acting' : Acting (k.log (.fault i hw.cr2 k.pagerTid)) i := acting
  have sent : mail (((k.log (.fault i hw.cr2 k.pagerTid)).ipcSendLocked i k.pagerTid (faultMsg i hw.cr2) .fault).1.threads j) =
      mail (k.threads j) ∨ (k.threads j).ipcState = .receiving := mailSend acting' other
  have same := sent.resolve_right busy
  have kept : ((k.log (.fault i hw.cr2 k.pagerTid)).ipcSendLocked i k.pagerTid (faultMsg i hw.cr2) .fault).1.pagerTid = k.pagerTid :=
    sendPager
  unfold faultForward
  dsimp only [logPagerTid]
  split
  · rename_i k' r result
    rw [result] at same kept
    rcases mailFaultRecv (actingSend acting' result) other (kept.symm ▸ pager) with received | ⟨sending,named⟩
    · exact .inl (received.trans same)
    · have state : (k'.threads j).ipcState = (k.threads j).ipcState := congrArg (fun t => t.2.1) same
      exact .inr ⟨state.symm.trans sending,named.trans kept⟩
  · rename_i k' result
    rw [result] at same
    exact .inl same

theorem mailFinish {rsi source m} (other : j ≠ i) : mail ((k.sysRecvFinish i rsi source m).threads j) = mail (k.threads j) := by
  unfold sysRecvFinish
  dsimp only
  split
  · rfl
  · simp only [sysRet,logThreads,updThreads,if_neg other]

/- A `SYS_RECV` that returns a message from `j` leaves no call to `j` open. -/
theorem finishCloses {rsi m} : (k.sysRecvFinish i rsi (tid j) m).mode = .halted ∨
    ((k.sysRecvFinish i rsi (tid j) m).threads i).ipcCallTo ≠ tid j := by
  unfold sysRecvFinish
  dsimp only
  split
  · exact .inl rfl
  · right
    simp only [sysRet,logThreads,updThreads,if_true]
    split
    · have := tidNonneg j
      dsimp only
      omega
    · rename_i other
      exact fun called => other called.symm

theorem recvMailStep {tf hw} (acting : Acting k i) (other : j ≠ i) (call : IsCall input .recv tf) :
    MailStep k input j ((k.log (.syscall i tf)).sysRecv i tf hw) := by
  have acting' : Acting (k.log (.syscall i tf)) i := acting
  have received : mail (((k.log (.syscall i tf)).ipcRecvLocked i (cint tf.rdi) hw.junk (.syscall tf.rsi)).1.threads j) = mail (k.threads j) ∨
      (k.log (.syscall i tf)).waitingSender i j (cint tf.rdi) ∧
        ∃ m, ((k.log (.syscall i tf)).ipcRecvLocked i (cint tf.rdi) hw.junk (.syscall tf.rsi)).2 = some (tid j,m) := mailRecv acting' other
  unfold sysRecv
  rcases received with same | ⟨waits,m,took⟩
  · refine .stays ?_
    split
    · rename_i k' source m result
      rw [result] at same
      exact (mailFinish other).trans same
    · rename_i k' result
      rwa [result] at same
  · simp only [waitingSender,Bool.and_eq_true,decide_eq_true_eq] at waits
    split
    · rename_i k' source m' result
      rw [result] at took
      cases took
      exact .taken (.inl ⟨acting,tf,call⟩) waits.1.1.2 waits.1.2 finishCloses
    · rename_i k' result
      rw [result] at took
      cases took

theorem spawnMail {tf} (present : ¬ k.Gone j) : mail ((k.sysSpawn i tf).threads j) = mail (k.threads j) := by
  have created : mail ((k.procSpawn (some i) (cint tf.rdi)).1.threads j) = mail (k.threads j) := by
    unfold procSpawn
    split
    · unfold threadCreate
      split
      · rename_i n found
        have other : j ≠ n := by
          rintro rfl
          exact present (freeThreadDead found)
        simp [other]
      · rfl
    · rfl
  have granted : ∀ (k' : Kernel) t ep, mail ((k'.capGrantEndpoint t ep).1.threads j) = mail (k'.threads j) := by
    intro k' t ep
    unfold capGrantEndpoint
    split
    · rfl
    · dsimp only
      split <;> simp only [logThreads,updThreads] <;> split <;> simp_all [mail]
  unfold sysSpawn
  dsimp only
  split
  · exact (granted _ _ _).trans created
  · exact created

theorem sendMailStep {tf} (acting : Acting k i) (other : j ≠ i) : MailStep k input j ((k.log (.syscall i tf)).sysSend i tf) := by
  have acting' : Acting (((k.log (.syscall i tf)).openCall i (cint tf.rdi)).log (.copy i tf.rsi false)) i := acting
  have opened : mail ((((k.log (.syscall i tf)).openCall i (cint tf.rdi)).log (.copy i tf.rsi false)).threads j) = mail (k.threads j) := by
    simp [openCall,other]
  unfold sysSend
  dsimp only
  split
  · split
    · exact .stays opened
    · rename_i m _
      have sent : mail (((((k.log (.syscall i tf)).openCall i (cint tf.rdi)).log (.copy i tf.rsi false)).ipcSendLocked i (cint tf.rdi) m
            .syscall).1.threads j) = _ ∨
          ((((k.log (.syscall i tf)).openCall i (cint tf.rdi)).log (.copy i tf.rsi false)).threads j).ipcState = .receiving :=
        mailSend acting' other
      rcases sent with same | receiving
      · have kept := same.trans opened
        split
        · rename_i k' r result
          rw [result] at kept
          exact .stays kept
        · rename_i k' result
          rw [result] at kept
          exact .stays kept
      · rw [openCall,logThreads,logThreads,updThreads,if_neg other] at receiving
        exact .given receiving
  · exact .stays rfl

theorem syscallMailStep {tf hw} (acting : Acting k i) (other : j ≠ i) (call : input = .trap tf hw) (vec : tf.vec = syscallVector) :
    MailStep k input j (k.doSyscall i tf hw) := by
  by_cases sends : Syscall.ofRax tf.rax = .send
  · have entered : k.doSyscall i tf hw = (k.log (.syscall i tf)).sysSend i tf := by simp only [doSyscall,sends]
    rw [entered]
    exact sendMailStep acting other
  by_cases receives : Syscall.ofRax tf.rax = .recv
  · have entered : k.doSyscall i tf hw = (k.log (.syscall i tf)).sysRecv i tf hw := by simp only [doSyscall,receives]
    rw [entered]
    exact recvMailStep acting other ⟨hw,call,vec,receives⟩
  by_cases spawns : Syscall.ofRax tf.rax = .spawn
  · have entered : k.doSyscall i tf hw = (k.log (.syscall i tf)).sysSpawn i tf := by simp only [doSyscall,spawns]
    by_cases gone : k.Gone j
    · exact .planted gone
    · have present : ¬ (k.log (.syscall i tf)).Gone j := gone
      rw [entered]
      exact .stays (spawnMail present)
  by_cases exits : Syscall.ofRax tf.rax = .exit
  · have entered : k.doSyscall i tf hw = (k.log (.syscall i tf)).die i .exited := by simp only [doSyscall,exits]
    have acting' : Acting (k.log (.syscall i tf)) i := acting
    rw [entered]
    exact .stays (mailDie acting' other)
  · obtain ⟨table,plain⟩ : ∃ table, (k.doSyscall i tf hw).threads j = { k.threads j with ctable := table } :=
      syscallPlain exits sends receives spawns j
    refine .stays ?_
    rw [plain]
    rfl

theorem mailIrq {line} : mail ((k.irqNotify line).threads j) = mail (k.threads j) := by
  unfold irqNotify
  split
  · rfl
  · split
    · rw [logThreads,updThreads]
      split
      · rename_i own
        subst own
        dsimp only
        split <;> simp [mail]
      · rfl
    · rfl

theorem resumeMailStep {junk} (peers : PathPeers k) (away : k.current ≠ some j) :
    MailStep k (.resume junk) j (k.resume junk) := by
  unfold resume
  split
  · exact .stays rfl
  · rename_i i current
    have other : j ≠ i := fun same => away (same ▸ current)
    have acting : Acting (k.onCpu i) i := ⟨rfl,current⟩
    have onCpu : (k.onCpu i).threads j = k.threads j := if_neg other
    dsimp only
    cases saved : (k.threads i).saved with
    | send caller =>
      have sent : ((k.onCpu i).ipcSendResume i).threads j = k.threads j := by simp [ipcSendResume,other,onCpu]
      cases caller with
      | syscall => exact .stays (congrArg mail sent)
      | fault =>
        have pager : 0 ≤ k.pagerTid := (peers.peers i (.send .fault) (k.threads i).ipcPeer (by simp [faultPoint,saved])).1
        have acting' : Acting ((k.onCpu i).ipcSendResume i) i := acting
        rcases mailFaultRecv acting' other pager with same | ⟨sending,named⟩
        · exact .stays (same.trans (congrArg mail sent))
        · exact .pulled (sent ▸ sending) named
    | recv caller =>
      have received : (((k.onCpu i).ipcRecvResume i junk).1).threads j = k.threads j := by
        unfold ipcRecvResume
        dsimp only
        split <;> simp [other,onCpu]
      have acting' : Acting ((k.onCpu i).ipcRecvResume i junk).1 i := by
        unfold ipcRecvResume
        dsimp only
        split <;> exact acting
      cases caller with
      | fault => exact .stays ((mailVerdict acting' other).trans (congrArg mail received))
      | syscall rsi => exact .stays ((mailFinish other).trans (congrArg mail received))
    | _ => exact .stays (congrArg mail onCpu)

theorem mailStep (peers : PathPeers k) (enabled : k.Enabled input) (away : k.current ≠ some j) : MailStep k input j (k.step input) := by
  cases input with
  | resume junk => exact resumeMailStep peers away
  | store va b =>
    refine .stays ?_
    unfold step
    dsimp only
    split <;> rfl
  | trap tf hw =>
    obtain ⟨user,_⟩ := enabled
    simp only [step,isrHandler]
    split
    · have left : mail (({ k with ticks := k.ticks + 1 }.schedule .tick).threads j) = mail (k.threads j) := mailLeave rfl away
      exact .stays left
    · split
      · rename_i vec
        split
        · exact .stays rfl
        · rename_i i current
          have other : j ≠ i := fun same => away (same ▸ current)
          exact syscallMailStep ⟨user,current⟩ other rfl vec
      · split
        · unfold pageFault
          split
          · exact .stays rfl
          · rename_i i current
            have other : j ≠ i := fun same => away (same ▸ current)
            split
            · rename_i forwarded
              have pager : 0 ≤ k.pagerTid := by
                simp only [Bool.and_eq_true,decide_eq_true_eq] at forwarded
                exact forwarded.1.2
              by_cases receiving : (k.threads j).ipcState = .receiving
              · exact .given receiving
              · rcases mailForward ⟨user,current⟩ other pager receiving with same | ⟨sending,named⟩
                · exact .stays same
                · exact .pulled sending named
            · exact .stays rfl
        · split
          · exact .stays rfl
          · split
            · exact .stays mailIrq
            · exact .stays rfl

end

/- `SYS_SEND` of thread `i` to `dest`. -/
def sendsTo (k : Kernel) (i : Slot) (dest : Int) : Input → Bool
  | .trap tf _ => k.current = some i && tf.vec = syscallVector && Syscall.ofRax tf.rax = .send && cint tf.rdi = dest
  | .resume _ | .store _ _ => false

def registersPager (k : Kernel) (i : Slot) (input : Input) : Bool := k.taking input = some (i,.pager)

/- How many `SYS_SEND`s of `s` to `d` have passed the check since the last `SYS_SEND` of
`d` to `s`. -/
def passed (s d : Slot) (k : Kernel) (input : Input) (n : Nat) : Nat :=
  if sendsTo k d (tid s) input then 0 else if sendsTo k s (tid d) input && k.ipcSendAllowed s (tid d) then n + 1 else n

def counting (s d : Slot) : Transition.System (Kernel × Nat) Input where
  start p := machine.start p.1 ∧ p.2 = 0
  enabled p := machine.enabled p.1
  next p input := (machine.next p.1 input,passed s d p.1 input p.2)

/- `d` waits in a `SYS_RECV` naming `s`. -/
def asksFor (k : Kernel) (d s : Slot) : Bool :=
  match (k.threads d).saved with
  | .recv (.syscall _) => (k.threads d).ipcState = .receiving && (k.threads d).ipcPeer = tid s
  | _ => false

/- A `SYS_RECV` of `d` has been handed a message of `s` and has not returned it yet. -/
def holdsFrom (k : Kernel) (d s : Slot) : Bool :=
  match (k.threads d).saved with
  | .recv (.syscall _) => (k.threads d).ipcState = .none && (k.threads d).ipcFrom = tid s
  | _ => false

/- `s` holds no capability for `d`, and `d` waits for a message of `s` alone only to
complete a call. -/
def Strangers (s d : Slot) (k : Kernel) : Prop :=
  (k.threads s).ctable.hasEndpoint (tid d) = false ∧ (asksFor k d s → (k.threads d).ipcCallTo = tid s)

/- Besides, `s` is not the pager, and it sends nothing to `d` when `d` is dead or has yet
to return what `s` has sent. -/
structure Patient (s d : Slot) (k : Kernel) (input : Input) : Prop where
  strangers : Strangers s d k
  driver : registersPager k s input = false
  waits : sendsTo k s (tid d) input → ¬ k.Gone d ∧ holdsFrom k d s = false

instance (s d : Slot) (k : Kernel) : Decidable (Strangers s d k) := by unfold Strangers; infer_instance

instance (s d : Slot) (k : Kernel) (input : Input) : Decidable (Patient s d k input) :=
  decidable_of_iff (Strangers s d k ∧ registersPager k s input = false ∧ (sendsTo k s (tid d) input → ¬ k.Gone d ∧ holdsFrom k d s = false))
    ⟨fun ⟨a,b,c⟩ => ⟨a,b,c⟩,fun ⟨a,b,c⟩ => ⟨a,b,c⟩⟩

/- A message of `s` to `d` is on its way. -/
def Pending (k : Kernel) (s d : Slot) : Prop :=
  holdsFrom k d s ∨ (k.threads s).ipcState = .sending ∧ (k.threads s).ipcPeer = tid d

/- No thread waits for `s` in the page-fault path. -/
def Unpaged (k : Kernel) (s : Slot) : Prop :=
  k.pagerTid ≠ tid s ∧ ∀ f saved peer, faultPoint (k.threads f) = some (saved,peer) → peer ≠ tid s

structure Counted (s d : Slot) (k : Kernel) (n : Nat) : Prop where
  few : n ≤ 1
  used : n = 1 → (k.threads d).ipcCallTo = tid s → k.mode = .halted ∨ Pending k s d
  unpaged : Unpaged k s

section
variable {k k' k₀ : Kernel} {input : Input} {s d i : Slot} {n : Nat}

theorem sendsToIff (enabled : k.Enabled input) {dest : Int} :
    sendsTo k i dest input ↔ Acting k i ∧ ∃ tf, IsCall input .send tf ∧ cint tf.rdi = dest := by
  cases input with
  | trap tf hw =>
    simp only [sendsTo,Bool.and_eq_true,decide_eq_true_eq]
    constructor
    · rintro ⟨⟨⟨current,vec⟩,number⟩,named⟩
      exact ⟨⟨enabled.1,current⟩,tf,⟨hw,rfl,vec,number⟩,named⟩
    · rintro ⟨⟨_,current⟩,tf',⟨hw',same,vec,number⟩,named⟩
      cases same
      exact ⟨⟨⟨current,vec⟩,number⟩,named⟩
  | resume junk | store va b =>
    constructor
    · intro never
      cases never
    · rintro ⟨_,tf,⟨hw,same,_⟩,_⟩
      cases same

theorem moveUnpaged (coherent : Coherent k) (driver : registersPager k₀ s input = false) (unpaged : Unpaged k s)
    (move : Move k₀ input k k') : Unpaged k' s := by
  have pager : k'.pagerTid ≠ tid s := by
    rcases moveRole move .pager with same | ⟨i,_,_,_,taking,_,_,_,holder⟩
    · exact fun named => unpaged.1 (same.symm.trans named)
    · have own : i ≠ s := by
        rintro rfl
        simp [registersPager,taking] at driver
      exact fun named => own (tidInj (holder.symm.trans named))
  refine ⟨pager,fun f saved peer point => ?_⟩
  rcases movePoint coherent move point with before | ⟨rfl,_⟩
  · exact unpaged.2 f saved peer before
  · exact unpaged.1

theorem stepUnpaged (coherent : Coherent k) (enabled : k.Enabled input) (driver : registersPager k s input = false) (unpaged : Unpaged k s) :
    Unpaged (k.step input) s := by
  have all : ∀ k', Moves k input k k' → Unpaged k' s := by
    intro k' moves
    induction moves with
    | refl => exact unpaged
    | tail before move ih => exact moveUnpaged (movesCoherent coherent before) driver ih move
  exact all _ (stepMoves enabled)

theorem holdsIff : holdsFrom k d s ↔ (∃ rsi, (k.threads d).saved = .recv (.syscall rsi)) ∧ (k.threads d).ipcState = .none ∧
    (k.threads d).ipcFrom = tid s := by
  unfold holdsFrom
  constructor
  · intro holds
    split at holds
    · rename_i rsi saved
      simp only [Bool.and_eq_true,decide_eq_true_eq] at holds
      exact ⟨⟨rsi,saved⟩,holds⟩
    · cases holds
  · rintro ⟨⟨rsi,saved⟩,state,sender⟩
    simp [saved,state,sender]

theorem goneMail (coherent : Coherent k) (gone : k.Gone d) : (∀ c, (k.threads d).saved ≠ .recv c) ∧ (k.threads d).ipcState = .none := by
  rcases gone with unused | dead
  · have offline := coherent.offline (j := d) (by simp [unused])
    simp only [Offline,unused] at offline
    exact ⟨by simp [offline.1],offline.2⟩
  · have offline := coherent.offline (j := d) (by simp [dead])
    simp only [Offline,dead] at offline
    exact ⟨by rcases offline.1 with saved | saved <;> simp [saved],offline.2⟩

theorem enabledLive (enabled : k.Enabled input) : k.mode ≠ .halted := by
  cases input with
  | resume junk =>
    have mode : k.mode = .resume := enabled
    simp [mode]
  | trap tf hw => simp [enabled.1]
  | store va b => simp [enabled.1]

/- `d` returns the message that it holds, and so ends its call. -/
theorem holdingReturns {junk : IpcMsg} (current : k.current = some d) (holds : holdsFrom k d s) :
    (k.resume junk).mode = .halted ∨ ((k.resume junk).threads d).ipcCallTo ≠ tid s := by
  obtain ⟨⟨rsi,saved⟩,state,sender⟩ := holdsIff.mp holds
  have none : ((k.onCpu d).threads d).ipcState ≠ .receiving := by simp [onCpu,state]
  have source : ((k.onCpu d).threads d).ipcFrom = tid s := by simp [onCpu,sender]
  have resumed : k.resume junk =
      (((k.onCpu d).upd d ({ · with ipcState := .none })).log (.recvRet d (tid s) ((k.onCpu d).threads d).ipcBuf)).sysRecvFinish d rsi (tid s)
        ((k.onCpu d).threads d).ipcBuf := by
    simp only [resume,current,saved,ipcRecvResume,if_neg none,source]
  rw [resumed]
  exact finishCloses

/- What is on its way gets there, unless the call of `d` ends. -/
theorem pendingKept (coherent : Coherent k) (peers : PathPeers k) (enabled : k.Enabled input) (unpaged : Unpaged k s) (pending : Pending k s d) :
    (k.step input).mode = .halted ∨ ((k.step input).threads d).ipcCallTo ≠ tid s ∨ Pending (k.step input) s d := by
  rcases pending with holds | ⟨sending,peer⟩
  · obtain ⟨⟨rsi,saved⟩,state,sender⟩ := holdsIff.mp holds
    by_cases current : k.current = some d
    · have busy : k.mode ≠ .user := by
        intro user
        have onCpu := (coherent.placed d).onCpu current (by simp [user])
        rw [saved] at onCpu
        cases onCpu.1
      cases input with
      | resume junk =>
        have returns : (k.resume junk).mode = .halted ∨ ((k.resume junk).threads d).ipcCallTo ≠ tid s := holdingReturns current holds
        rcases returns with halted | closed
        · exact .inl halted
        · exact .inr (.inl closed)
      | trap tf hw => exact absurd enabled.1 busy
      | store va b => exact absurd enabled.1 busy
    · cases mailStep peers enabled current with
      | stays same =>
        simp only [mail,Prod.mk.injEq] at same
        obtain ⟨saved',state',_,sender'⟩ := same
        exact .inr (.inr (.inl (holdsIff.mpr ⟨⟨rsi,saved'.trans saved⟩,state'.trans state,sender'.trans sender⟩)))
      | planted gone => exact absurd saved ((goneMail coherent gone).1 _)
      | given receiving =>
        rw [state] at receiving
        cases receiving
      | taken _ sending _ _ | pulled sending _ =>
        rw [state] at sending
        cases sending
  · have away : k.current ≠ some s := by
      intro current
      have running := coherent.currentRunning.mpr current
      rcases coherent.awake (j := s) (by simp [running]) with none | ⟨receiving,_⟩
      · rw [none] at sending
        cases sending
      · rw [receiving] at sending
        cases sending
    cases mailStep peers enabled away with
    | stays same =>
      simp only [mail,Prod.mk.injEq] at same
      obtain ⟨_,state',peer',_⟩ := same
      exact .inr (.inr (.inr ⟨state'.trans sending,peer'.trans peer⟩))
    | planted gone =>
      rw [(goneMail coherent gone).2] at sending
      cases sending
    | given receiving =>
      rw [sending] at receiving
      cases receiving
    | taken receiving _ waits closes =>
      cases tidInj (peer.symm.trans waits)
      rcases closes with halted | closed
      · exact .inl halted
      · exact .inr (.inl closed)
    | pulled _ pager => exact absurd pager.symm unpaged.1

/- A thread that waits in the page-fault path does not wait for `s`, nor for anyone. -/
theorem pathApart (peers : PathPeers k) (unpaged : Unpaged k s) (saved : (k.threads d).saved = .recv .fault) :
    ¬ ((k.threads d).ipcPeer = ipcAny ∨ (k.threads d).ipcPeer = tid s) := by
  have point : faultPoint (k.threads d) = some (.recv .fault,(k.threads d).ipcPeer) := by simp [faultPoint,saved]
  have named := (peers.peers d _ _ point).2
  rintro (any | own)
  · rw [any] at named
    exact absurd named (by decide)
  · exact unpaged.2 d _ _ point own

theorem lockedPends {m} (coherent : Coherent k) (path : (k.threads d).saved = .recv .fault →
    ¬ ((k.threads d).ipcPeer = ipcAny ∨ (k.threads d).ipcPeer = tid s)) (present : ¬ k.Gone d) :
    Pending (k.ipcSendLocked s (tid d) m .syscall).1 s d := by
  have outcome := ipcSendOutcome k s (tid d) m .syscall
  generalize k.ipcSendLocked s (tid d) m .syscall = result at outcome
  cases outcome with
  | refused nobody => exact absurd (nobody d rfl) present
  | met d' named ready =>
    cases tidInj named
    simp only [receiverReady,Bool.and_eq_true,Bool.or_eq_true,decide_eq_true_eq] at ready
    obtain ⟨⟨blocked,receiving⟩,waits⟩ := ready
    rcases coherent.blocked blocked with ⟨sending,_⟩ | ⟨_,_,c,saved⟩
    · rw [receiving] at sending
      cases sending
    · cases c with
      | fault => exact absurd waits (path saved)
      | syscall rsi =>
        have woken : ((((k.log (.sendCall s (tid d) m)).deliver s d m).log (.sendRet s 0)).threads d) =
            { k.threads d with ipcBuf := m, ipcFrom := tid s, ipcState := .none, state := .runnable } := by
          simp [deliver,threadWake,blocked]
        exact .inl (holdsIff.mpr ⟨⟨rsi,by rw [woken]; exact saved⟩,by rw [woken],by rw [woken]⟩)
  | staged d' named present busy =>
    have staged : (fun t : Thread => (t.ipcState,t.ipcPeer)) ((((k.log (.sendCall s (tid d) m)).stage s (tid d) m).schedule (.send .syscall)).threads s) =
        (.sending,tid d) := by
      refine (scheduleKeeps (fun t : Thread => (t.ipcState,t.ipcPeer)) (fun _ _ _ => rfl) _ _ s).trans ?_
      simp [stage]
    exact .inr (Prod.mk.inj staged)

/- A send that passes the check is on its way: `d` has it, or `s` waits with it. -/
theorem passingPends {tf} (coherent : Coherent k) (peers : PathPeers k) (unpaged : Unpaged k s) (present : ¬ k.Gone d)
    (acting : Acting k s) (call : IsCall input .send tf) (named : cint tf.rdi = tid d) (other : d ≠ s) (allowed : k.ipcSendAllowed s (tid d)) :
    (k.step input).mode = .halted ∨ Pending (k.step input) s d := by
  have permitted : (k.log (.syscall s tf)).ipcSendAllowed s (tid d) = true := allowed
  have called : Coherent ((k.log (.syscall s tf)).upd s ({ · with ipcCallTo := tid d })) := (coherent.log _).quietUpd fun _ => rfl
  have coherent' : Coherent (((k.log (.syscall s tf)).openCall s (tid d)).log (.copy s tf.rsi false)) := (called.log _).log _
  have rest : (((k.log (.syscall s tf)).openCall s (tid d)).log (.copy s tf.rsi false)).threads d = k.threads d := by
    simp [openCall,other]
  have path := pathApart (d := d) peers unpaged
  rw [← rest] at path
  have present' : ¬ (((k.log (.syscall s tf)).openCall s (tid d)).log (.copy s tf.rsi false)).Gone d := by
    unfold Gone
    rwa [rest]
  rw [stepIsSend acting call]
  unfold sysSend
  simp only [named,permitted,if_true]
  split
  · exact .inl rfl
  · rename_i m _
    have pends := lockedPends (m := m) coherent' path present'
    split
    · rename_i k' r result
      rw [result] at pends
      exact .inr pends
    · rename_i k' result
      rw [result] at pends
      exact .inr pends

/- Before a `SYS_SEND` of `s` to `d` that passes, `d` has sent to `s` and no other has passed. -/
theorem passingFirst {tf} (coherent : Coherent k) (counted : Counted s d k n) (patient : Patient s d k input) (root : s ≠ 0) (other : d ≠ 0)
    (acting : Acting k s) (call : IsCall input .send tf) (named : cint tf.rdi = tid d) (allowed : k.ipcSendAllowed s (tid d)) (enabled : k.Enabled input) :
    n = 0 := by
  obtain ⟨strange,asks⟩ := patient.strangers
  have user := acting.1
  have called : (k.threads d).ipcCallTo = tid s := by
    rcases sendAllowedIff.mp allowed with root' | other' | held | ⟨d',same,called | ⟨blocked,receiving,peer⟩⟩
    · exact absurd root' root
    · exact absurd (tidZero.mp other') other
    · exact absurd held (by simp [strange])
    · cases tidInj same
      exact called
    · cases tidInj same
      rcases coherent.blocked blocked with ⟨sending,_⟩ | ⟨_,_,c,saved⟩
      · rw [receiving] at sending
        cases sending
      · cases c with
        | syscall rsi => exact asks (by simp [asksFor,saved,receiving,peer])
        | fault =>
          have point : faultPoint (k.threads d) = some (.recv .fault,(k.threads d).ipcPeer) := by simp [faultPoint,saved]
          exact absurd peer (counted.unpaged.2 d _ _ point)
  have sends : sendsTo k s (tid d) input = true := (sendsToIff enabled).mpr ⟨acting,tf,call,named⟩
  have few := counted.few
  by_contra some
  rcases counted.used (by omega) called with halted | holds | ⟨sending,_⟩
  · rw [user] at halted
    cases halted
  · exact absurd holds (by simp [(patient.waits sends).2])
  · have onCpu := ((coherent.placed s).onCpu acting.2 (by simp [user])).2
    rw [onCpu] at sending
    cases sending

theorem stepCounted (coherent : Coherent k) (peers : PathPeers k) (enabled : k.Enabled input) (root : s ≠ 0) (other : d ≠ 0)
    (patient : Patient s d k input) (counted : Counted s d k n) : Counted s d (k.step input) (passed s d k input n) := by
  have unpaged := stepUnpaged coherent enabled patient.driver counted.unpaged
  unfold passed
  split
  · exact ⟨by simp,fun one => absurd one (by simp),unpaged⟩
  · rename_i calls
    split
    · rename_i passes
      simp only [Bool.and_eq_true] at passes
      obtain ⟨sends,allowed⟩ := passes
      obtain ⟨acting,tf,call,named⟩ := (sendsToIff enabled).mp sends
      have first := passingFirst coherent counted patient root other acting call named allowed enabled
      have apart : d ≠ s := by
        rintro rfl
        exact calls sends
      subst first
      exact ⟨le_refl 1,fun _ _ => passingPends coherent peers counted.unpaged (patient.waits sends).1 acting call named apart allowed,unpaged⟩
    · refine ⟨counted.few,fun one called => ?_,unpaged⟩
      have before : (k.threads d).ipcCallTo = tid s := by
        cases callStep enabled d with
        | stays same => exact same.symm.trans called
        | opens acting call allowed opened => exact absurd ((sendsToIff enabled).mpr ⟨acting,_,call,opened.symm.trans called⟩) calls
        | closes _ _ closed | planted _ closed =>
          have := tidNonneg s
          omega
      rcases counted.used one before with halted | pending
      · exact absurd halted (enabledLive enabled)
      · rcases pendingKept coherent peers enabled counted.unpaged pending with halted | closed | pending'
        · exact .inl halted
        · exact absurd called closed
        · exact .inr pending'

/- Between two `SYS_SEND`s of `d` to `s` at most one of `s` to `d` passes the check. -/
theorem replyOnce (root : s ≠ 0) (other : d ≠ 0) {p : Kernel × Nat}
    (h : Transition.Reach (counting s d) (fun p input => Patient s d p.1 input) p) : p.2 ≤ 1 := by
  have known : ∀ p, Transition.Reach (counting s d) (fun p input => Patient s d p.1 input) p → Coherent p.1 ∧ PathPeers p.1 := by
    intro p h
    have machineReach : Transition.Reach machine (fun _ _ => True) p.1 := by
      induction h with
      | start start => exact .start start.1
      | step before enabled patient ih => exact ih.step enabled trivial
    exact ⟨reachCoherent machineReach,reachPeers machineReach⟩
  refine (Transition.Reach.invariantUnder (fun p => Counted s d p.1 p.2) known ?_ ?_ h).few
  · rintro ⟨k,n⟩ ⟨⟨memory,stackBase,booted⟩,none⟩
    subst booted
    have few : n = 0 := none
    have unregistered : (-1 : Int) ≠ tid s := by
      have := tidNonneg s
      omega
    refine ⟨by omega,fun one => absurd few (by omega),unregistered,fun f saved peer point => ?_⟩
    rw [bootPoint] at point
    cases point
  · rintro ⟨k,n⟩ input ⟨coherent,peers⟩ counted enabled patient
    exact stepCounted coherent peers enabled root other patient counted

/- Thread 1 calls thread 2, which answers and, as soon as it is woken again, calls back. -/
def Script.secondReply : List Input :=
  [.tick,.go,.call 4 1 0 0,.call 3 (-1) Script.userPage 0,.go,.call 4 2 0 0,.call 2 2 Script.userPage 0,.go,.call 3 1 Script.userPage 0,
    .tick,.go,.call 3 2 Script.userPage 0,.go,.call 2 1 Script.userPage 0,.call 2 1 Script.userPage 0]

/- Thread 2 is the pager, and thread 1 faults twice. -/
def Script.secondFault : List Input :=
  [.tick,.go,.call 4 1 0 0,.call 3 (-1) Script.userPage 0,.go,.call 4 2 0 0,.tick,.go,.call 6 0 0 0,.call 3 (-1) Script.userPage 0,.go,
    .exception 14 0x1000,.go,.call 2 1 (Script.userPage + 0x100) 0,.call 3 (-1) Script.userPage 0,.go,.exception 14 0x1000,.go,
    .call 2 1 (Script.userPage + 0x100) 0]

instance (s d : Slot) (p : Kernel × Nat) (input : Input) : Decidable ((counting s d).enabled p input) :=
  inferInstanceAs (Decidable (machine.enabled p.1 input))

theorem Script.countingStart (s d : Slot) : (counting s d).start (Script.start,0) := ⟨⟨_,_,rfl⟩,rfl⟩

theorem replyOnceCall : (Transition.run (counting 2 1) (Script.start,0) (Script.secondReply.take 14)).2 ≤ 1 :=
  replyOnce (by decide) (by decide) (Transition.Reach.run (.start (Script.countingStart 2 1)) (by decide +kernel))

/- Two answers pass when the first has not been returned yet, and when they are the
verdicts on two page faults. -/
theorem replyTwice : ∃ s d : Slot, s ≠ 0 ∧ d ≠ 0 ∧
    (∃ p, Transition.Reach (counting s d) (fun p input => Strangers s d p.1 ∧ registersPager p.1 s input = false) p ∧
      Strangers s d p.1 ∧ 1 < p.2) ∧
    ∃ p, Transition.Reach (counting s d) (fun p input => Strangers s d p.1 ∧
      (sendsTo p.1 s (tid d) input → ¬ p.1.Gone d ∧ holdsFrom p.1 d s = false)) p ∧ Strangers s d p.1 ∧ 1 < p.2 :=
  ⟨2,1,by decide,by decide,
    ⟨Transition.run (counting 2 1) (Script.start,0) Script.secondReply,
      .run (.start (Script.countingStart 2 1)) (by decide +kernel),by decide +kernel⟩,
    Transition.run (counting 2 1) (Script.start,0) Script.secondFault,
    .run (.start (Script.countingStart 2 1)) (by decide +kernel),by decide +kernel⟩

end
end Mukern
