import Mukern.Reuse

/-! The right to answer without a capability: `ipc_call_to` of the caller. What a step
of the machine does to it, and that it lasts until the call is over. -/
namespace Mukern
open Kernel

/- `SYS_RECV` of thread `c` is entered, or goes on. -/
def InReceive (k : Kernel) (input : Input) (c : Slot) : Prop :=
  (Acting k c ∧ ∃ tf, IsCall input .recv tf) ∨ Resumes k input c ∧ ∃ rsi, (k.threads c).saved = .recv (.syscall rsi)

inductive CallStep (k : Kernel) (input : Input) (c : Slot) (k' : Kernel) : Prop where
  | stays (same : (k'.threads c).ipcCallTo = (k.threads c).ipcCallTo)
  | opens {tf} (acting : Acting k c) (call : IsCall input .send tf) (allowed : k.ipcSendAllowed c (cint tf.rdi))
      (opened : (k'.threads c).ipcCallTo = cint tf.rdi)
  | closes {m} (receiving : InReceive k input c) (returned : Newer k k' (.recvRet c (k.threads c).ipcCallTo m))
      (closed : (k'.threads c).ipcCallTo = -1)
  | planted (gone : k.Gone c) (closed : (k'.threads c).ipcCallTo = -1)

section
variable {k k' : Kernel} {input : Input} {i c : Slot} {e : Event}

theorem newerLog (newer : Newer k k' e) (e' : Event) : Newer k (k'.log e') e := by
  obtain ⟨es,older,member⟩ := newer
  exact ⟨e' :: es,congrArg (e' :: ·) older,List.mem_cons_of_mem _ member⟩

theorem sendCallTo {dest m caller} : ((k.ipcSendLocked i dest m caller).1.threads c).ipcCallTo = (k.threads c).ipcCallTo :=
  congrArg Prod.snd authoritySend

theorem recvCallTo {src junk caller} : ((k.ipcRecvLocked i src junk caller).1.threads c).ipcCallTo = (k.threads c).ipcCallTo :=
  congrArg Prod.snd authorityRecv

theorem dieCallTo {point} : ((k.die i point).threads c).ipcCallTo = (k.threads c).ipcCallTo := congrArg Prod.snd authorityDie

theorem verdictCallTo {reply} : ((k.faultVerdict i reply).threads c).ipcCallTo = (k.threads c).ipcCallTo := by
  unfold faultVerdict
  dsimp only
  split
  · exact dieCallTo
  · rfl

theorem faultRecvCallTo {junk} : ((k.faultRecv i junk).threads c).ipcCallTo = (k.threads c).ipcCallTo := by
  have same : ((k.ipcRecvLocked i k.pagerTid junk .fault).1.threads c).ipcCallTo = (k.threads c).ipcCallTo := recvCallTo
  unfold faultRecv
  split
  · rename_i k' source reply result
    rw [result] at same
    exact verdictCallTo.trans same
  · rename_i k' result
    rwa [result] at same

theorem pageFaultCallTo {tf hw} : ((k.pageFault tf hw).threads c).ipcCallTo = (k.threads c).ipcCallTo := by
  unfold pageFault
  split
  · rfl
  · rename_i i current
    split
    · have same : (((k.log (.fault i hw.cr2 k.pagerTid)).ipcSendLocked i k.pagerTid (faultMsg i hw.cr2) .fault).1.threads c).ipcCallTo =
          (k.threads c).ipcCallTo := sendCallTo
      unfold faultForward
      dsimp only [logPagerTid]
      split
      · rename_i k' r result
        rw [result] at same
        exact faultRecvCallTo.trans same
      · rename_i k' result
        rwa [result] at same
    · rfl

/- `SYS_RECV` has returned `source`: it closes the call to `source`, and no other. -/
theorem finishCallTo {rsi source m} : ((k.sysRecvFinish i rsi source m).threads c).ipcCallTo = (k.threads c).ipcCallTo ∨
    c = i ∧ source = (k.threads c).ipcCallTo ∧ ((k.sysRecvFinish i rsi source m).threads c).ipcCallTo = -1 := by
  unfold sysRecvFinish
  dsimp only
  split
  · exact .inl rfl
  · simp only [sysRet,logThreads,updThreads]
    split
    · rename_i own
      subst own
      split
      · rename_i named
        exact .inr ⟨rfl,named,rfl⟩
      · exact .inl rfl
    · exact .inl rfl

theorem finishNewer {k₀ : Kernel} {rsi source m} (newer : Newer k₀ k e) : Newer k₀ (k.sysRecvFinish i rsi source m) e := by
  unfold sysRecvFinish
  dsimp only
  split
  · exact newerLog newer _
  · exact newerLog (newerLog newer _) _

theorem recvReturned {src junk caller source m} (received : k.ipcRecvLocked i src junk caller = (k',some (source,m))) :
    Newer k k' (.recvRet i source m) := by
  have outcome := ipcRecvOutcome k i src junk caller
  rw [received] at outcome
  cases outcome with
  | irq pending => exact ⟨[_,_],rfl,List.mem_cons_self⟩
  | taken snd quiet waiting => exact ⟨[_,_,_],rfl,List.mem_cons_self⟩

theorem recvResumeCallTo {junk} : (((k.onCpu i).ipcRecvResume i junk).1.threads c).ipcCallTo = (k.threads c).ipcCallTo :=
  congrArg Prod.snd authorityResumeRecv

theorem recvResumeReturned {junk} :
    Newer k ((k.onCpu i).ipcRecvResume i junk).1 (.recvRet i ((k.onCpu i).ipcRecvResume i junk).2.1 ((k.onCpu i).ipcRecvResume i junk).2.2) := by
  unfold ipcRecvResume
  dsimp only
  split <;> exact ⟨[_],rfl,List.mem_cons_self⟩

theorem sysSendCallTo {tf} (allowed : k.ipcSendAllowed i (cint tf.rdi)) :
    ((k.sysSend i tf).threads c).ipcCallTo = if c = i then cint tf.rdi else (k.threads c).ipcCallTo := by
  have opened : ((k.openCall i (cint tf.rdi)).threads c).ipcCallTo = if c = i then cint tf.rdi else (k.threads c).ipcCallTo := by
    rw [openCall,logThreads,updThreads]
    split <;> rfl
  rw [← opened]
  unfold sysSend
  dsimp only
  rw [if_pos allowed]
  split
  · rfl
  · rename_i m _
    have sent : ((((k.openCall i (cint tf.rdi)).log (.copy i tf.rsi false)).ipcSendLocked i (cint tf.rdi) m .syscall).1.threads c).ipcCallTo =
        ((k.openCall i (cint tf.rdi)).threads c).ipcCallTo := sendCallTo
    split
    · rename_i k' r result
      rwa [result] at sent
    · rename_i k' result
      rwa [result] at sent

theorem sendCallStep {tf} (acting : Acting k i) (call : IsCall input .send tf) :
    CallStep k input c ((k.log (.syscall i tf)).sysSend i tf) := by
  by_cases allowed : k.ipcSendAllowed i (cint tf.rdi)
  · have after : (((k.log (.syscall i tf)).sysSend i tf).threads c).ipcCallTo = if c = i then cint tf.rdi else (k.threads c).ipcCallTo :=
      sysSendCallTo allowed
    split at after
    · rename_i own
      subst own
      exact .opens acting call allowed after
    · exact .stays after
  · have refused : (k.log (.syscall i tf)).sysSend i tf = (k.log (.syscall i tf)).sysRet i (cword (-1)) := if_neg allowed
    rw [refused]
    exact .stays rfl

theorem recvCallStep {tf hw} (acting : Acting k i) (call : IsCall input .recv tf) :
    CallStep k input c ((k.log (.syscall i tf)).sysRecv i tf hw) := by
  have same : (((k.log (.syscall i tf)).ipcRecvLocked i (cint tf.rdi) hw.junk (.syscall tf.rsi)).1.threads c).ipcCallTo =
      (k.threads c).ipcCallTo := recvCallTo
  unfold sysRecv
  split
  · rename_i k' source m result
    rw [result] at same
    obtain kept | ⟨own,named,closed⟩ : ((k'.sysRecvFinish i tf.rsi source m).threads c).ipcCallTo = (k'.threads c).ipcCallTo ∨
        c = i ∧ source = (k'.threads c).ipcCallTo ∧ ((k'.sysRecvFinish i tf.rsi source m).threads c).ipcCallTo = -1 := finishCallTo
    · exact .stays (kept.trans same)
    · subst own
      obtain ⟨es,older,member⟩ := recvReturned result
      have returned : Newer k k' (.recvRet c source m) := ⟨es ++ [.syscall c tf],by rw [older]; simp,List.mem_append_left _ member⟩
      rw [named,same] at returned
      exact .closes (.inl ⟨acting,tf,call⟩) (finishNewer returned) closed
  · rename_i k' result
    rw [result] at same
    exact .stays same

theorem createCallTo {parent prog} : ((k.threadCreate parent prog).1.threads c).ipcCallTo = (k.threads c).ipcCallTo ∨
    k.Gone c ∧ ((k.threadCreate parent prog).1.threads c).ipcCallTo = -1 := by
  unfold threadCreate
  split
  · rename_i n found
    by_cases own : c = n
    · subst own
      exact .inr ⟨freeThreadDead found,by simp [plant]⟩
    · exact .inl (by simp [own])
  · exact .inl rfl

theorem spawnCallTo {tf} : ((k.sysSpawn i tf).threads c).ipcCallTo = (k.threads c).ipcCallTo ∨
    k.Gone c ∧ ((k.sysSpawn i tf).threads c).ipcCallTo = -1 := by
  have created : ((k.procSpawn (some i) (cint tf.rdi)).1.threads c).ipcCallTo = (k.threads c).ipcCallTo ∨
      k.Gone c ∧ ((k.procSpawn (some i) (cint tf.rdi)).1.threads c).ipcCallTo = -1 := by
    unfold procSpawn
    split
    · exact createCallTo
    · exact .inl rfl
  unfold sysSpawn
  dsimp only
  split
  · rw [sysRet,logThreads,grantCallTo]
    exact created
  · exact created

/- The system calls that block, end or make no thread write no more of a record than
its capability table. -/
theorem syscallPlain {tf hw} (exits : Syscall.ofRax tf.rax ≠ .exit) (sends : Syscall.ofRax tf.rax ≠ .send)
    (receives : Syscall.ofRax tf.rax ≠ .recv) (spawns : Syscall.ofRax tf.rax ≠ .spawn) (c : Slot) :
    ∃ table, (k.doSyscall i tf hw).threads c = { k.threads c with ctable := table } := by
  have same : ∀ k' : Kernel, k'.threads = k.threads → ∃ table, k'.threads c = { k.threads c with ctable := table } :=
    fun k' threads => ⟨_,congrFun threads c⟩
  have granted : ∀ t ep, ∃ table, ((k.log (.syscall i tf)).capGrantEndpoint t ep).1.threads c = { k.threads c with ctable := table } := by
    intro t ep
    unfold capGrantEndpoint
    split
    · exact ⟨_,rfl⟩
    · rename_i t
      dsimp only
      split <;> simp only [logThreads,updThreads] <;> split <;> simp_all <;> exact ⟨_,rfl⟩
  have grantedIo : ∀ t base len, ∃ table, ((k.log (.syscall i tf)).capGrantIo t base len).1.threads c = { k.threads c with ctable := table } := by
    intro t base len
    unfold capGrantIo
    split
    · exact ⟨_,rfl⟩
    · rename_i t
      dsimp only
      split <;> simp only [logThreads,updThreads] <;> split <;> simp_all <;> exact ⟨_,rfl⟩
  unfold doSyscall
  dsimp only
  cases decoded : Syscall.ofRax tf.rax with
  | exit => exact absurd decoded exits
  | send => exact absurd decoded sends
  | recv => exact absurd decoded receives
  | spawn => exact absurd decoded spawns
  | map =>
    refine same _ ?_
    dsimp only [sysMap]
    split <;> rfl
  | outb | inb | inw =>
    refine same _ ?_
    dsimp only [sysPort]
    split <;> rfl
  | irqRegister =>
    refine same _ ?_
    dsimp only [sysIrqRegister]
    split <;> rfl
  | mapPhys =>
    refine same _ ?_
    dsimp only [sysMapPhys]
    split <;> rfl
  | grantIo =>
    dsimp only [sysGrantIo]
    split
    · exact same _ rfl
    · exact grantedIo _ _ _
  | grantCap =>
    dsimp only [sysGrantCap]
    split
    · exact same _ rfl
    · exact granted _ _
  | putc | gettid | setPager | uptime | meminfo | tinfo | invalid => exact same _ rfl

theorem syscallCallStep {tf hw} (acting : Acting k i) (call : input = .trap tf hw) (vec : tf.vec = syscallVector) :
    CallStep k input c (k.doSyscall i tf hw) := by
  have is : ∀ {number}, Syscall.ofRax tf.rax = number → IsCall input number tf := fun decoded => ⟨hw,call,vec,decoded⟩
  by_cases sends : Syscall.ofRax tf.rax = .send
  · have entered : k.doSyscall i tf hw = (k.log (.syscall i tf)).sysSend i tf := by simp only [doSyscall,sends]
    rw [entered]
    exact sendCallStep acting (is sends)
  by_cases receives : Syscall.ofRax tf.rax = .recv
  · have entered : k.doSyscall i tf hw = (k.log (.syscall i tf)).sysRecv i tf hw := by simp only [doSyscall,receives]
    rw [entered]
    exact recvCallStep acting (is receives)
  by_cases spawns : Syscall.ofRax tf.rax = .spawn
  · have entered : k.doSyscall i tf hw = (k.log (.syscall i tf)).sysSpawn i tf := by simp only [doSyscall,spawns]
    obtain same | ⟨gone,closed⟩ : (((k.log (.syscall i tf)).sysSpawn i tf).threads c).ipcCallTo = (k.threads c).ipcCallTo ∨
        k.Gone c ∧ (((k.log (.syscall i tf)).sysSpawn i tf).threads c).ipcCallTo = -1 := spawnCallTo
    · exact .stays (entered ▸ same)
    · exact .planted gone (entered ▸ closed)
  by_cases exits : Syscall.ofRax tf.rax = .exit
  · have entered : k.doSyscall i tf hw = (k.log (.syscall i tf)).die i .exited := by simp only [doSyscall,exits]
    rw [entered]
    exact .stays dieCallTo
  · obtain ⟨table,plain⟩ : ∃ table, (k.doSyscall i tf hw).threads c = { k.threads c with ctable := table } :=
      syscallPlain exits sends receives spawns c
    exact .stays (by rw [plain])

theorem resumeCallStep {junk} (mode : k.mode = .resume) : CallStep k (.resume junk) c (k.resume junk) := by
  unfold resume
  split
  · exact .stays rfl
  · rename_i i current
    have onCpu : ((k.onCpu i).threads c).ipcCallTo = (k.threads c).ipcCallTo := congrArg Prod.snd authorityOnCpu
    have received : (((k.onCpu i).ipcRecvResume i junk).1.threads c).ipcCallTo = (k.threads c).ipcCallTo := recvResumeCallTo
    have resumes : Resumes k (.resume junk) i := ⟨⟨junk,rfl⟩,mode,current⟩
    dsimp only
    cases saved : (k.threads i).saved with
    | send caller =>
      have sent : (((k.onCpu i).ipcSendResume i).threads c).ipcCallTo = (k.threads c).ipcCallTo := congrArg Prod.snd authorityResumeSend
      cases caller with
      | syscall => exact .stays sent
      | fault => exact .stays (faultRecvCallTo.trans sent)
    | recv caller =>
      cases caller with
      | fault => exact .stays (verdictCallTo.trans received)
      | syscall rsi =>
        dsimp only
        have returned : Newer k ((k.onCpu i).ipcRecvResume i junk).1 _ := recvResumeReturned
        obtain kept | ⟨own,named,closed⟩ : _ ∨ c = i ∧ ((k.onCpu i).ipcRecvResume i junk).2.1 = _ ∧ _ := finishCallTo
        · exact .stays (kept.trans received)
        · subst own
          rw [named,received] at returned
          exact .closes (.inr ⟨resumes,rsi,saved⟩) (finishNewer returned) closed
    | _ => exact .stays onCpu

/- The open call of `c` changes only by a `SYS_SEND` of `c`, by a `SYS_RECV` of `c` that
returns from the thread called, and with a new thread in the slot. -/
theorem callStep (enabled : k.Enabled input) (c : Slot) : CallStep k input c (k.step input) := by
  cases input with
  | resume junk => exact resumeCallStep enabled
  | store va b =>
    refine .stays ?_
    unfold step
    dsimp only
    split <;> rfl
  | trap tf hw =>
    obtain ⟨user,_⟩ := enabled
    simp only [step,isrHandler]
    split
    · exact .stays (congrArg Prod.snd authoritySchedule)
    · split
      · rename_i vec
        split
        · exact .stays rfl
        · rename_i i current
          exact syscallCallStep ⟨user,current⟩ rfl vec
      · split
        · exact .stays pageFaultCallTo
        · split
          · exact .stays rfl
          · split
            · exact .stays (congrArg Prod.snd authorityIrq)
            · exact .stays rfl

theorem stepIsSend {tf} (acting : Acting k i) (call : IsCall input .send tf) :
    k.step input = (k.log (.syscall i tf)).sysSend i tf := by
  obtain ⟨hw,rfl,vec,number⟩ := call
  have notTimer : tf.vec ≠ vecTimer := by simp [vec,syscallVector,vecTimer]
  simp only [step,isrHandler,if_neg notTimer,if_pos vec,acting.2,doSyscall,number]

end

section
variable {k : Kernel} {input : Input} {c s : Slot}

end
end Mukern
