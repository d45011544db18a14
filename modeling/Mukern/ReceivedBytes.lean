import Mukern.Transfer
import Mukern.UserPointers
import Mukern.PageTree

/-! What `SYS_RECV` writes to user memory: the words of the message that was sent, and after
an interrupt what the kernel stack held. -/
namespace Mukern
open Kernel Memory Rendezvous

/- The input with other contents of the kernel stack. -/
def Input.withJunk : Input → IpcMsg → Input
  | .resume _, junk => .resume junk
  | .trap tf hw, junk => .trap tf { hw with junk := junk }
  | .store va b, _ => .store va b

/- The step takes an interrupt for the message it waits for: in a receive that finds one
pending, or in one that an interrupt has woken. -/
def Kernel.Notified (k : Kernel) (input : Input) : Bool :=
  match k.current with
  | none => false
  | some i =>
    match input with
    | .resume _ =>
      match (k.threads i).saved with
      | .recv _ => (k.threads i).ipcState = .receiving
      | .send .fault => (k.threads i).irqPending ≠ 0
      | _ => false
    | .trap tf hw => (k.threads i).irqPending ≠ 0 &&
      (tf.vec = syscallVector && Syscall.ofRax tf.rax = .recv ||
        tf.vec = vecPf && fromUser tf && 0 ≤ k.pagerTid && tid i ≠ k.pagerTid &&
          ((k.log (.fault i hw.cr2 k.pagerTid)).ipcSendLocked i k.pagerTid (faultMsg i hw.cr2) .fault).2.isSome)
    | .store _ _ => false

/- The memory after the step does not depend on the kernel stack. -/
def Kernel.Determined (k : Kernel) (input : Input) : Prop :=
  ∀ junk junk', (k.step (input.withJunk junk)).memory = (k.step (input.withJunk junk')).memory

section
variable {k : Kernel} {input : Input} {i : Slot} {rsi va : Word} {m : Memory} {msg msg' : IpcMsg} {n : Nat} {span : List Nat} {junk junk' : IpcMsg}

theorem recvQuiet {src caller} (quiet : (k.threads i).irqPending = 0) :
    k.ipcRecvLocked i src junk caller = k.ipcRecvLocked i src junk' caller := by
  unfold ipcRecvLocked
  simp only [logThreads,quiet,ne_eq,not_true,if_false]

theorem faultRecvQuiet (quiet : (k.threads i).irqPending = 0) : k.faultRecv i junk = k.faultRecv i junk' := by
  unfold faultRecv
  rw [recvQuiet quiet]

theorem resumeQuiet {k : Kernel} (quiet : (k.threads i).ipcState ≠ .receiving) : k.ipcRecvResume i junk = k.ipcRecvResume i junk' := by
  unfold ipcRecvResume
  simp only [if_neg quiet]

theorem syscallQuiet {tf : Trapframe} {hw : Hardware} (quiet : Syscall.ofRax tf.rax = .recv → (k.threads i).irqPending = 0) :
    k.doSyscall i tf { hw with junk := junk } = k.doSyscall i tf { hw with junk := junk' } := by
  unfold doSyscall
  cases call : Syscall.ofRax tf.rax with
  | recv =>
    have same : (k.log (.syscall i tf)).ipcRecvLocked i (cint tf.rdi) junk (.syscall tf.rsi) =
        (k.log (.syscall i tf)).ipcRecvLocked i (cint tf.rdi) junk' (.syscall tf.rsi) := recvQuiet (quiet call)
    simp only [sysRecv,same]
  | _ => rfl

theorem deliverPending {d : Slot} : ((k.deliver i d msg).threads i).irqPending = (k.threads i).irqPending := by
  simp only [deliver,logThreads,updThreads]
  split
  · rename_i same
    rw [same]
    unfold threadWake
    split <;> rfl
  · rfl

theorem forwardQuiet {hw : Hardware} (quiet : (k.threads i).irqPending = 0 ∨
    ((k.log (.fault i hw.cr2 k.pagerTid)).ipcSendLocked i k.pagerTid (faultMsg i hw.cr2) .fault).2.isSome = false) :
    k.faultForward i { hw with junk := junk } = k.faultForward i { hw with junk := junk' } := by
  unfold faultForward
  simp only [logPagerTid]
  have outcome := ipcSendOutcome (k.log (.fault i hw.cr2 k.pagerTid)) i k.pagerTid (faultMsg i hw.cr2) .fault
  generalize (k.log (.fault i hw.cr2 k.pagerTid)).ipcSendLocked i k.pagerTid (faultMsg i hw.cr2) .fault = result at outcome quiet
  cases outcome with
  | refused nobody =>
    have pending : (k.threads i).irqPending = 0 := quiet.resolve_right (by simp)
    exact faultRecvQuiet pending
  | met d named ready =>
    have pending : (k.threads i).irqPending = 0 := quiet.resolve_right (by simp)
    exact faultRecvQuiet (deliverPending.trans pending)
  | staged d named present busy => rfl

theorem faultQuiet {tf : Trapframe} {hw : Hardware} (current : k.current = some i)
    (quiet : (k.threads i).irqPending = 0 ∨ (fromUser tf && 0 ≤ k.pagerTid && tid i ≠ k.pagerTid &&
      ((k.log (.fault i hw.cr2 k.pagerTid)).ipcSendLocked i k.pagerTid (faultMsg i hw.cr2) .fault).2.isSome) = false) :
    k.pageFault tf { hw with junk := junk } = k.pageFault tf { hw with junk := junk' } := by
  unfold pageFault
  simp only [current]
  split
  · rename_i forwarded
    exact forwardQuiet (quiet.imp_right fun silent => by rwa [forwarded,Bool.true_and] at silent)
  · rfl

/- A step that takes no interrupt for a message does not read the kernel stack. -/
theorem junkUnread (quiet : k.Notified input = false) (junk junk' : IpcMsg) : k.step (input.withJunk junk) = k.step (input.withJunk junk') := by
  cases input with
  | store va b => rfl
  | resume own =>
    simp only [Input.withJunk,Kernel.step,resume]
    cases current : k.current with
    | none => rfl
    | some i =>
      simp only [Notified,current] at quiet
      dsimp only
      cases saved : (k.threads i).saved with
      | send caller =>
        cases caller with
        | syscall => rfl
        | fault =>
          have pending : (k.threads i).irqPending = 0 := by simpa [saved] using quiet
          refine faultRecvQuiet ?_
          simpa [onCpu,ipcSendResume] using pending
      | recv caller =>
        have delivered : (k.threads i).ipcState ≠ .receiving := by simpa [saved] using quiet
        have same : (k.onCpu i).ipcRecvResume i junk = (k.onCpu i).ipcRecvResume i junk' := resumeQuiet (by simpa [onCpu] using delivered)
        simp only [same]
      | _ => rfl
  | trap tf hw =>
    simp only [Input.withJunk,Kernel.step,isrHandler]
    split
    · rfl
    · cases current : k.current with
      | none =>
        simp only [pageFault,current]
      | some i =>
        simp only [Notified,current] at quiet
        dsimp only
        split
        · rename_i vec
          refine syscallQuiet fun call => ?_
          simpa [vec,call] using quiet
        · split
          · rename_i vec
            have other : vecPf ≠ syscallVector := by decide
            refine faultQuiet current (Classical.or_iff_not_imp_left.mpr fun pending => ?_)
            simpa only [pending,vec,other,ne_eq,not_false_eq_true,decide_true,decide_false,Bool.true_and,Bool.false_and,Bool.false_or] using quiet
          · rfl

/- A byte lies at the same place of its page in virtual and in physical memory. -/
theorem walkPlace {words : Words} {level : Nat} {table : Word} {w u : Bool} {t : Translation} (aligned : table.toNat % 4096 = 0)
    (found : walkFrom words va level table w u = some t) : t.pa % 4096 = va.toNat % 4096 := by
  induction level generalizing table w u with
  | zero =>
    cases found
    show (table.toNat + va.toNat % 2 ^ 12) % 4096 = _
    omega
  | succ level ih =>
    rw [walkFrom] at found
    dsimp only at found
    split at found
    · cases found
    · split at found
      · split at found
        · cases found
        · cases found
          have pages : 4096 ∣ 2 ^ (12 + 9 * level) := ⟨2 ^ (9 * level),by rw [Nat.pow_add]⟩
          dsimp only
          rw [Nat.add_mod,Nat.mod_eq_zero_of_dvd (Nat.dvd_mul_left_of_dvd pages _),Nat.zero_add,Nat.mod_mod,Nat.mod_mod_of_dvd _ pages]
      · exact ih (maskLow _) found

theorem accessPlace {pa : Nat} (access : m.kernelAccess va = some pa) : pa % 4096 = va.toNat % 4096 := by
  unfold kernelAccess at access
  split at access
  · obtain ⟨t,found,rfl⟩ := Option.map_eq_some_iff.mp access
    exact walkPlace (maskLow _) found
  · cases access

theorem spanPlaces (found : m.kernelSpan va n = some span) : span.map (· % 4096) = (List.range n).map fun j => (va.toNat + j) % 4096 := by
  induction n generalizing va span with
  | zero =>
    cases found
    rfl
  | succ n ih =>
    simp only [kernelSpan,bind,Option.bind_eq_some_iff] at found
    obtain ⟨pa,mapped,rest,found,same⟩ := found
    cases same
    have next : ∀ j, ((va + 1).toNat + j) % 4096 = (va.toNat + (j + 1)) % 4096 := by
      intro j
      rw [BitVec.toNat_add]
      have one : (1 : Word).toNat = 1 := rfl
      omega
    rw [List.map_cons,ih found,accessPlace mapped,List.range_succ_eq_map,List.map_cons,List.map_map]
    simp only [next,Nat.add_zero]
    rfl

/- A buffer within 4096 bytes has no two addresses for one byte. -/
theorem spanNodup (found : m.kernelSpan va n = some span) (short : n ≤ 4096) : span.Nodup := by
  refine List.Nodup.of_map (· % 4096) ?_
  rw [spanPlaces found]
  refine List.Nodup.map_on (fun j low j' low' same => ?_) List.nodup_range
  rw [List.mem_range] at low low'
  omega

theorem spanLength (found : m.kernelSpan va n = some span) : span.length = n := by
  have places := congrArg List.length (spanPlaces found)
  simpa using places

theorem msgBytesLength : (msgBytes msg).length = 32 := by
  simp [msgBytes,wordBytes]

/- Different bytes of a message lie in the same place of the buffer. -/
theorem writeDiffers {m₁ m₂ : Memory} (first : m.writeMsg va msg = some m₁) (second : m.writeMsg va msg' = some m₂) {j : Nat}
    (inside : j < 32) (differ : (msgBytes msg)[j]? ≠ (msgBytes msg')[j]?) : m₁ ≠ m₂ := by
  obtain ⟨span,found,rfl⟩ := Option.map_eq_some_iff.mp first
  obtain ⟨_,again,rfl⟩ := Option.map_eq_some_iff.mp second
  cases found.symm.trans again
  have length : span.length = 32 := spanLength found
  have low : j < span.length := by omega
  have byte : ∀ msg : IpcMsg, some ((m.words.store (span.zip (msgBytes msg))).byte span[j]) = (msgBytes msg)[j]? := by
    intro msg
    have size : (msgBytes msg).length = 32 := msgBytesLength
    rw [Words.storeOwn (spanNodup found (by decide)) (length.trans size.symm) low,List.getElem?_eq_getElem (by omega)]
  intro same
  have words : m.words.store (span.zip (msgBytes msg)) = m.words.store (span.zip (msgBytes msg')) := congrArg Memory.words same
  rw [← byte msg,← byte msg',words] at differ
  exact differ rfl

theorem finishMemory {source : Int} : (k.sysRecvFinish i rsi source msg).memory = (k.memory.writeMsg rsi msg).getD k.memory := by
  unfold sysRecvFinish
  dsimp only
  cases written : k.memory.writeMsg rsi msg with
  | none =>
    rw [show (k.log (.copy i rsi true)).memory.writeMsg rsi msg = none from written]
    rfl
  | some memory =>
    rw [show (k.log (.copy i rsi true)).memory.writeMsg rsi msg = some memory from written]
    rfl

theorem finishHalts {source : Int} (unmapped : k.memory.kernelSpan rsi 32 = none) : (k.sysRecvFinish i rsi source msg).mode = .halted := by
  have unwritten : (k.log (.copy i rsi true)).memory.writeMsg rsi msg = none := by
    rw [writeMsg,logMemory,unmapped]
    rfl
  unfold sysRecvFinish
  dsimp only
  rw [unwritten]
  rfl

/- The message that a step copies to Ring 3, and what it is when no interrupt is taken for one. -/
inductive Brings (k : Kernel) (input : Input) (i : Slot) : (IpcMsg → IpcMsg) → Prop where
  | irq (notified : k.Notified input = true) : Brings k input i irqMsg
  | picked (quiet : k.Notified input = false) (snd : Slot) (src : Int) (waiting : k.waitingSender i snd src) :
      Brings k input i fun _ => (k.threads snd).ipcBuf
  | delivered (quiet : k.Notified input = false) (caller : RecvCaller) (saved : (k.threads i).saved = .recv caller)
      (given : (k.threads i).ipcState ≠ .receiving) : Brings k input i fun _ => (k.threads i).ipcBuf

theorem resumeMemory : (k.ipcRecvResume i junk).1.memory = k.memory := by
  unfold ipcRecvResume
  by_cases receiving : (k.threads i).ipcState = .receiving <;> simp [receiving]

theorem resumeMessage : (k.ipcRecvResume i junk).2.2 = if (k.threads i).ipcState = .receiving then irqMsg junk else (k.threads i).ipcBuf := by
  unfold ipcRecvResume
  by_cases receiving : (k.threads i).ipcState = .receiving <;> simp [receiving]

/- A returning `SYS_RECV` ends in its copy, whatever the stack holds. -/
theorem recvBrings (source : copied k input = some (rsi,true)) :
    ∃ i brought, k.current = some i ∧ Brings k input i brought ∧
      ∀ junk, ∃ (k' : Kernel) (source : Int), k'.memory = k.memory ∧ k.step (input.withJunk junk) = k'.sysRecvFinish i rsi source (brought junk) := by
  cases input with
  | store va b => cases source
  | resume own =>
    cases current : k.current with
    | none => simp [copied,current] at source
    | some i =>
      simp only [copied,current] at source
      split at source
      · rename_i rsi' saved
        cases source
        refine ⟨i,fun junk => if (k.threads i).ipcState = .receiving then irqMsg junk else (k.threads i).ipcBuf,rfl,?_,fun junk => ?_⟩
        · by_cases receiving : (k.threads i).ipcState = .receiving
          · simp only [receiving,if_true]
            exact .irq (by simp [Notified,current,saved,receiving])
          · simp only [receiving,if_false]
            exact .delivered (by simp [Notified,current,saved,receiving]) _ saved receiving
        · simp only [Input.withJunk,Kernel.step,resume,current,saved]
          refine ⟨((k.onCpu i).ipcRecvResume i junk).1,((k.onCpu i).ipcRecvResume i junk).2.1,?_,?_⟩
          · exact (resumeMemory (k := k.onCpu i)).trans rfl
          · have message : ((k.onCpu i).ipcRecvResume i junk).2.2 = if (k.threads i).ipcState = .receiving then irqMsg junk else (k.threads i).ipcBuf := by
              simpa [onCpu] using (resumeMessage (k := k.onCpu i) (i := i) : ((k.onCpu i).ipcRecvResume i junk).2.2 = _)
            rw [← message]
      · cases source
  | trap tf hw =>
    cases current : k.current with
    | none => simp [copied,current] at source
    | some i =>
      simp only [copied,current] at source
      split at source
      · rename_i vec
        have notTimer : tf.vec ≠ vecTimer := by simp [vec,syscallVector,vecTimer]
        have notFault : vecPf ≠ syscallVector := by decide
        cases call : Syscall.ofRax tf.rax <;> simp only [call] at source
        case send => split at source <;> cases source
        case recv =>
          split at source
          · rename_i returns
            cases source
            have entered : ∀ junk, (k.step (Input.withJunk (.trap tf hw) junk)) =
                (k.log (.syscall i tf)).sysRecv i tf { hw with junk := junk } := by
              intro junk
              simp only [Input.withJunk,Kernel.step,isrHandler,if_neg notTimer,if_pos vec,current,doSyscall,call]
            by_cases quiet : (k.threads i).irqPending = 0
            · unfold received at returns
              rw [if_neg (not_not.mpr quiet),Option.isSome_map] at returns
              obtain ⟨snd,found⟩ := Option.isSome_iff_exists.mp returns
              refine ⟨i,fun _ => (k.threads snd).ipcBuf,rfl,.picked (by simp [Notified,current,quiet]) snd (cint tf.rdi) ?_,fun junk => ?_⟩
              · exact List.find?_some (p := fun t => k.waitingSender i t (cint tf.rdi)) found
              · have taken : (k.log (.syscall i tf)).ipcRecvLocked i (cint tf.rdi) junk (.syscall tf.rsi) = _ := recvTaken quiet found
                rw [entered,sysRecv,taken]
                refine ⟨_,tid snd,?_,rfl⟩
                rfl
            · refine ⟨i,irqMsg,rfl,.irq (by simp [Notified,current,quiet,vec,call]),fun junk => ?_⟩
              have irq : (k.log (.syscall i tf)).ipcRecvLocked i (cint tf.rdi) junk (.syscall tf.rsi) = _ := recvIrq quiet
              rw [entered,sysRecv,irq]
              refine ⟨_,ipcIrqSender,?_,rfl⟩
              rfl
          · cases source
        all_goals cases source
      · cases source

/- A returning `SYS_RECV` writes one message, whatever the stack holds. -/
theorem recvWrites (source : copied k input = some (rsi,true)) :
    ∃ i brought, k.current = some i ∧ Brings k input i brought ∧
      ∀ junk, (k.step (input.withJunk junk)).memory = (k.memory.writeMsg rsi (brought junk)).getD k.memory := by
  obtain ⟨i,brought,current,brings,ends⟩ := recvBrings source
  refine ⟨i,brought,current,brings,fun junk => ?_⟩
  obtain ⟨k',source,memory,step⟩ := ends junk
  rw [step,finishMemory,memory]

/- A receive whose buffer is not mapped ends the run. -/
theorem unmappedHalts (source : copied k input = some (rsi,true)) (unmapped : k.memory.kernelSpan rsi 32 = none) (junk : IpcMsg) :
    (k.step (input.withJunk junk)).mode = .halted := by
  obtain ⟨i,brought,_,_,ends⟩ := recvBrings source
  obtain ⟨k',source,memory,step⟩ := ends junk
  rw [step]
  exact finishHalts (by rw [memory,unmapped])

/- Without an interrupt it is a message that a thread has sent to the receiver. -/
theorem broughtSent {brought : IpcMsg → IpcMsg} (h : Reachable k) (brings : Brings k input i brought) (quiet : k.Notified input = false) :
    ∃ s n c, call? ((transfers k).sends s) n = some c ∧ c.dest = tid i ∧ ∀ junk, brought junk = c.msg := by
  have coherent := reachCoherent h
  have carries := reachCarries h
  cases brings with
  | irq notified =>
    rw [notified] at quiet
    cases quiet
  | picked _ snd src waiting =>
    obtain ⟨_,_,sending,_⟩ := wireWaiting coherent waiting
    have fits := (runFaithful carries).2 snd
    rw [sending] at fits
    obtain ⟨⟨older,sends⟩,_⟩ := fits
    have found : call? ((transfers k).sends snd) older.length = some ⟨tid i,(k.threads snd).ipcBuf,[],none⟩ := by
      rw [transfers,sends]
      exact callHead
    exact ⟨snd,older.length,_,found,rfl,fun _ => rfl⟩
  | delivered _ caller saved given =>
    have received : wire (k.threads i) = .received (k.threads i).ipcFrom (k.threads i).ipcBuf := by simp [wire,saved,given]
    obtain ⟨faithful,fits⟩ := runFaithful carries
    have fits := fits i
    rw [received] at fits
    obtain ⟨_,r,older,s,n,c,recvs,_,from',_,sent,msg⟩ := fits
    have head : call? ((transfers k).recvs i) older.length = some r := by
      rw [transfers,recvs]
      exact callHead
    obtain none | ⟨s',n',c',given',_,sent',taken,_⟩ := faithful.given i older.length r head
    · rw [none] at from'
      cases from'
    · cases given'.symm.trans from'
      cases sent.symm.trans sent'
      obtain none | ⟨d,j,r',once,dest,_⟩ := faithful.taken s n c sent
      · rw [none] at taken
        cases taken
      · cases once.symm.trans taken
        exact ⟨s,n,c,sent,dest,fun _ => msg.symm⟩

/- A receive's step writes what does not depend on the kernel stack, unless it writes an
interrupt's message into a buffer that is mapped. -/
theorem determinedIff (source : copied k input = some (rsi,true)) :
    k.Determined input ↔ ¬ (k.Notified input = true ∧ (k.memory.kernelSpan rsi 32).isSome) := by
  obtain ⟨i,brought,_,brings,writes⟩ := recvWrites source
  constructor
  · intro determined ⟨notified,mapped⟩
    obtain ⟨span,found⟩ := Option.isSome_iff_exists.mp mapped
    cases brings with
    | irq _ =>
      have same := determined ⟨0,0,0,0⟩ ⟨0,1,0,0⟩
      rw [writes,writes] at same
      have written : ∀ msg, k.memory.writeMsg rsi msg = some { k.memory with words := k.memory.words.store (span.zip (msgBytes msg)) } := by
        intro msg
        rw [writeMsg,found]
        rfl
      rw [written,written] at same
      exact writeDiffers (written _) (written _) (by decide : 8 < 32) (by decide) same
    | picked quiet _ _ _ => simp [notified] at quiet
    | delivered quiet _ _ _ => simp [notified] at quiet
  · intro condition junk junk'
    cases notified : k.Notified input with
    | false => rw [junkUnread notified junk junk']
    | true =>
      have unmapped : k.memory.kernelSpan rsi 32 = none := by simpa [notified] using condition
      have unwritten : ∀ msg, k.memory.writeMsg rsi msg = none := by
        intro msg
        rw [writeMsg,unmapped]
        rfl
      rw [writes,writes,unwritten,unwritten]

/- An interrupt's message reaches Ring 3: the step takes one, and where it is a receive
that returns, the buffer is mapped. -/
def Kernel.Leaks (k : Kernel) (input : Input) : Prop :=
  k.Notified input = true ∧ ∀ rsi, copied k input = some (rsi,true) → (k.memory.kernelSpan rsi 32).isSome

/- What Ring 3 is told: a message that a thread has sent to it, or one that interrupts alike carry. -/
inductive Vouched (k : Kernel) (input : Input) (i : Slot) (msg : IpcMsg) : Prop where
  | sent (s : Slot) (n : Nat) (c : Sent Slot Int IpcMsg) (passed : call? ((transfers k).sends s) n = some c) (dest : c.dest = tid i) (same : msg = c.msg)
  | irq (notified : k.Notified input = true)

/- A returning `SYS_RECV` writes one message whatever the stack holds, and it was sent. -/
def Kernel.Accounted (k : Kernel) (input : Input) (rsi : Word) : Prop :=
  ∃ i msg, k.current = some i ∧ Vouched k input i msg ∧
    ∀ junk, (k.step (input.withJunk junk)).memory = (k.memory.writeMsg rsi msg).getD k.memory

theorem accountedIff (h : Reachable k) (source : copied k input = some (rsi,true)) : k.Accounted input rsi ↔ ¬ k.Leaks input := by
  have leaks : k.Leaks input ↔ k.Notified input = true ∧ (k.memory.kernelSpan rsi 32).isSome := by
    unfold Leaks
    rw [source]
    constructor
    · exact fun ⟨notified,mapped⟩ => ⟨notified,mapped rsi rfl⟩
    · intro ⟨notified,mapped⟩
      refine ⟨notified,fun rsi' same => ?_⟩
      cases same
      exact mapped
  rw [leaks,← determinedIff source]
  constructor
  · intro ⟨_,_,_,_,writes⟩ junk junk'
    rw [writes,writes]
  · intro determined
    obtain ⟨i,brought,current,brings,writes⟩ := recvWrites source
    refine ⟨i,brought ⟨0,0,0,0⟩,current,?_,fun junk => (determined junk ⟨0,0,0,0⟩).trans (writes _)⟩
    cases notified : k.Notified input with
    | true => exact .irq notified
    | false =>
      obtain ⟨s,n,c,passed,dest,same⟩ := broughtSent h brings notified
      exact .sent s n c passed dest (same _)

/- Two runs whose inputs differ in the kernel stack alone. -/
def Alike : List Input → List Input → Prop := List.Forall₂ fun input input' => ∃ junk, input' = input.withJunk junk

theorem withOwn (input : Input) : ∃ junk, input = input.withJunk junk := by
  cases input with
  | resume junk => exact ⟨junk,rfl⟩
  | trap tf hw => exact ⟨hw.junk,rfl⟩
  | store va b => exact ⟨⟨0,0,0,0⟩,rfl⟩

/- A step that leaks nothing does not read the stack, or it halts in both runs. -/
theorem leakless (quiet : ¬ k.Leaks input) (junk : IpcMsg) : k.step input = k.step (input.withJunk junk) ∨
    (k.step input).mode = .halted ∧ (k.step input).memory = (k.step (input.withJunk junk)).memory := by
  obtain ⟨own,here⟩ := withOwn input
  cases notified : k.Notified input with
  | false =>
    have unread := junkUnread notified own junk
    rw [← here] at unread
    exact .inl unread
  | true =>
    have reached : ¬ ∀ rsi, copied k input = some (rsi,true) → (k.memory.kernelSpan rsi 32).isSome := fun mapped => quiet ⟨notified,mapped⟩
    simp only [not_forall,Option.not_isSome_iff_eq_none] at reached
    obtain ⟨rsi,source,unmapped⟩ := reached
    have halts := unmappedHalts source unmapped own
    obtain ⟨i,brought,_,_,writes⟩ := recvWrites source
    have unwritten : ∀ msg, k.memory.writeMsg rsi msg = none := by
      intro msg
      rw [writeMsg,unmapped]
      rfl
    have first := writes own
    rw [← here] at halts first
    exact .inr ⟨halts,by rw [first,writes,unwritten,unwritten]⟩

theorem haltedDisabled (halted : k.mode = .halted) : ¬ k.Enabled input := by
  cases input <;> simp [Enabled,halted]

/- By induction on the runs: the states are equal until one halts. -/
theorem runsAlike {inputs inputs' : List Input} (alike : Alike inputs inputs')
    (admits : Transition.Admits machine (fun k input => ¬ k.Leaks input) k inputs) :
    (Transition.run machine k inputs).memory = (Transition.run machine k inputs').memory := by
  induction alike generalizing k with
  | nil => rfl
  | @cons input input' inputs inputs' same alike ih =>
    obtain ⟨junk,rfl⟩ := same
    obtain ⟨_,quiet,rest⟩ := admits
    obtain step | ⟨halts,memory⟩ := leakless quiet junk
    · have next : machine.next k input = machine.next k (input.withJunk junk) := step
      rw [Transition.run,Transition.run,← next]
      exact ih rest
    · cases alike with
      | nil => exact memory
      | cons _ _ => exact absurd rest.1 (haltedDisabled halts)

/- What a receive writes is what was sent to it exactly when the step leaks nothing, and two
runs that leak nothing and differ in the kernel stack alone leave the same memory. -/
theorem receivesAccounted (h : Reachable k) :
    (∀ input rsi, copied k input = some (rsi,true) → (k.Accounted input rsi ↔ ¬ k.Leaks input)) ∧
      ∀ inputs inputs', Alike inputs inputs' → Transition.Admits machine (fun k input => ¬ k.Leaks input) k inputs →
        (Transition.run machine k inputs).memory = (Transition.run machine k inputs').memory :=
  ⟨fun _ _ source => accountedIff h source,fun _ _ alike admits => runsAlike alike admits⟩

/- Init waits for the message that thread 1 sends to it. -/
def Script.greeted : List Input :=
  [.tick,.go,.call 4 1 0 0,.call 3 (-1) Script.userPage 0,.go,.call 2 0 Script.userPage 0,.tick]

theorem receivesAccountedSent :
    (Transition.run machine Script.start Script.greeted).Accounted .go Script.userPage ∧
      (Transition.run machine (Transition.run machine Script.start Script.greeted) [.go]).memory =
        (Transition.run machine (Transition.run machine Script.start Script.greeted) [.resume ⟨7,7,7,7⟩]).memory := by
  obtain ⟨accounted,alike⟩ := receivesAccounted (k := Transition.run machine Script.start Script.greeted) (Script.reach (by decide +kernel))
  have quiet : ¬ (Transition.run machine Script.start Script.greeted).Leaks .go := fun leaks => absurd leaks.1 (by decide +kernel)
  exact ⟨(accounted _ _ (by decide +kernel)).mpr quiet,alike _ _ (.cons ⟨⟨7,7,7,7⟩,rfl⟩ .nil) ⟨by decide +kernel,quiet,trivial⟩⟩

/- Init drives line 1 and receives when it has fired: the second word of the buffer is the stack's. -/
def Script.fired : List Input := [.tick,.go,.call 15 1 0 0,.irq 1]

theorem receiveUnaccounted : ∃ k, Reachable k ∧ ∃ input rsi, k.Enabled input ∧ copied k input = some (rsi,true) ∧
    ¬ k.Accounted input rsi ∧ ∃ inputs', Alike [input] inputs' ∧ (Transition.run machine k [input]).memory ≠ (Transition.run machine k inputs').memory := by
  have differ : (Transition.run machine (Transition.run machine Script.start Script.fired) [.call 3 (-1) Script.userPage 0]).memory ≠
      (Transition.run machine (Transition.run machine Script.start Script.fired)
        [(Input.call 3 (-1) Script.userPage 0).withJunk ⟨0,1,0,0⟩]).memory := by
    intro same
    have word := congrArg (fun m : Memory => m.words 0xC0001) same
    exact absurd word (by decide +kernel)
  refine ⟨Transition.run machine Script.start Script.fired,Script.reach (by decide +kernel),.call 3 (-1) Script.userPage 0,Script.userPage,
    by decide +kernel,by decide +kernel,?_,_,.cons ⟨⟨0,1,0,0⟩,rfl⟩ .nil,differ⟩
  intro ⟨_,_,_,_,writes⟩
  exact differ ((writes Input.noise).trans (writes ⟨0,1,0,0⟩).symm)

end
end Mukern
