import Mukern.UserPointers
import Mukern.FrameReferences

/-! What a step of the machine does to memory. -/
namespace Mukern
open Kernel

/- The memory after a step: as before, with a message copied out or a byte stored, or
after one of the two calls that map pages. -/
inductive Wrote (k : Kernel) (input : Input) : Memory → Prop where
  | nothing : Wrote k input k.memory
  | message {rsi msg memory} (source : copied k input = some (rsi,true)) (written : k.memory.writeMsg rsi msg = some memory) :
      Wrote k input memory
  | stored {va b memory} (call : input = .store va b) (written : k.memory.userStore va b = some memory) : Wrote k input memory
  | mapped {i tf} (acting : Acting k i) (call : IsCall input .map tf) : Wrote k input (k.memory.mapFresh (pageAlignDown tf.rdi))
  | mappedPhys {tf} (acting : Acting k 0) (call : IsCall input .mapPhys tf) :
      Wrote k input (k.memory.vmmMap tf.rdi tf.rsi vmUserRw).1

section
variable {k k' : Kernel} {input : Input} {i : Slot}

theorem dieMemory {point} (acting : Acting k i) : (k.die i point).memory = k.memory :=
  (scheduleSwitch (k := (k.log (.dead i)).upd i ({ · with state := .dead })) point
    (parkableLeave (k := k.log (.dead i)) acting (by simp))).memory

theorem tickMemory (coherent : Coherent k) : k.timerTick.memory = k.memory := by
  have parkable : ∀ p, k.current = some p → (k.threads p).state ≠ .runnable := by
    intro p current
    simp [coherent.currentRunning.mpr current]
  exact (scheduleSwitch (k := { k with ticks := k.ticks + 1 }) .tick parkable).memory

theorem finishWrote {rsi source msg} (same : k'.memory = k.memory) (copies : copied k input = some (rsi,true)) :
    Wrote k input (k'.sysRecvFinish i rsi source msg).memory := by
  unfold sysRecvFinish
  dsimp only
  split
  · exact same ▸ .nothing
  · rename_i memory written
    exact .message copies (same ▸ written)

theorem grantMemory {t target} : (k.capGrantEndpoint t target).1.memory = k.memory := by
  unfold capGrantEndpoint
  cases t with
  | none => rfl
  | some t => dsimp only; split <;> rfl

theorem grantIoMemory {t base len} : (k.capGrantIo t base len).1.memory = k.memory := by
  unfold capGrantIo
  cases t with
  | none => rfl
  | some t => dsimp only; split <;> rfl

theorem grantIoCallMemory {tf} : (k.sysGrantIo i tf).memory = k.memory := by
  unfold sysGrantIo
  split
  · rfl
  · exact grantIoMemory

theorem grantCapMemory {tf} : (k.sysGrantCap i tf).memory = k.memory := by
  unfold sysGrantCap
  dsimp only
  split
  · rfl
  · exact grantMemory

theorem portMemory {tf result} : (k.sysPort i tf result).memory = k.memory := by
  unfold sysPort
  dsimp only
  split <;> rfl

theorem irqRegisterMemory {tf} : (k.sysIrqRegister i tf).memory = k.memory := by
  unfold sysIrqRegister
  dsimp only
  split <;> rfl

theorem mapPhysMemory {tf} : (k.sysMapPhys i tf).memory = k.memory ∨
    i = 0 ∧ (k.sysMapPhys i tf).memory = (k.memory.vmmMap tf.rdi tf.rsi vmUserRw).1 := by
  unfold sysMapPhys
  split
  · exact .inl rfl
  · rename_i root
    exact .inr ⟨tidZero.mp (not_not.mp root),rfl⟩

theorem spawnMemory {tf} : (k.sysSpawn i tf).memory = k.memory := by
  have created : (k.procSpawn (some i) (cint tf.rdi)).1.memory = k.memory := by
    unfold procSpawn threadCreate
    split
    · split <;> rfl
    · rfl
  unfold sysSpawn
  dsimp only
  split
  · exact grantMemory.trans created
  · exact created

theorem mapMemory {tf} : (k.sysMap i tf).memory = k.memory.mapFresh (pageAlignDown tf.rdi) := by
  unfold sysMap Memory.mapFresh Memory.takeFrame
  dsimp only
  split <;> rfl

theorem verdictMemory {reply} (acting : Acting k i) : (k.faultVerdict i reply).memory = k.memory := by
  unfold faultVerdict
  dsimp only
  split
  · exact dieMemory (actingLog acting)
  · rfl

theorem faultRecvMemory {junk} (acting : Acting k i) : (k.faultRecv i junk).memory = k.memory := by
  have same : (k.ipcRecvLocked i k.pagerTid junk .fault).1.memory = k.memory := recvMemory acting
  unfold faultRecv
  split
  · rename_i k' source reply result
    rw [result] at same
    exact (verdictMemory (actingRecv acting result)).trans same
  · rename_i k' result
    rwa [result] at same

theorem pageFaultMemory {tf hw} (user : k.mode = .user) : (k.pageFault tf hw).memory = k.memory := by
  unfold pageFault
  split
  · rfl
  · rename_i i current
    split
    · have acting : Acting (k.log (.fault i hw.cr2 k.pagerTid)) i := ⟨user,current⟩
      have same : ((k.log (.fault i hw.cr2 k.pagerTid)).ipcSendLocked i k.pagerTid (faultMsg i hw.cr2) .fault).1.memory = k.memory :=
        sendMemory acting
      unfold faultForward
      dsimp only [logPagerTid]
      split
      · rename_i k' r result
        rw [result] at same
        exact (faultRecvMemory (actingSend acting result)).trans same
      · rename_i k' result
        rwa [result] at same
    · rfl

theorem resumeWrote {junk} : Wrote k (.resume junk) (k.resume junk).memory := by
  unfold resume
  split
  · exact .nothing
  · rename_i i current
    have acting : Acting (k.onCpu i) i := ⟨rfl,current⟩
    dsimp only
    cases saved : (k.threads i).saved with
    | send caller =>
      cases caller with
      | syscall => exact .nothing
      | fault =>
        have acting' : Acting ((k.onCpu i).ipcSendResume i) i := acting
        have same : (((k.onCpu i).ipcSendResume i).faultRecv i junk).memory = k.memory := faultRecvMemory acting'
        exact same.symm ▸ .nothing
    | recv caller =>
      have back : Acting ((k.onCpu i).ipcRecvResume i junk).1 i ∧ ((k.onCpu i).ipcRecvResume i junk).1.memory = k.memory := by
        unfold ipcRecvResume
        dsimp only
        split <;> exact ⟨acting,rfl⟩
      cases caller with
      | syscall rsi => exact finishWrote back.2 (copiedResume current saved)
      | fault => exact ((verdictMemory back.1).trans back.2).symm ▸ .nothing
    | _ => exact .nothing

theorem recvWrote {tf hw} (acting : Acting k i) (vec : tf.vec = syscallVector) (number : Syscall.ofRax tf.rax = .recv) :
    Wrote k (.trap tf hw) ((k.log (.syscall i tf)).sysRecv i tf hw).memory := by
  have acting' : Acting (k.log (.syscall i tf)) i := acting
  have same : ((k.log (.syscall i tf)).ipcRecvLocked i (cint tf.rdi) hw.junk (.syscall tf.rsi)).1.memory = k.memory :=
    recvMemory acting'
  unfold sysRecv
  split
  · rename_i k' source m result
    have returned : k.received i (cint tf.rdi) hw.junk = some m := by
      have found := recvReceived (k.log (.syscall i tf)) i (cint tf.rdi) hw.junk (.syscall tf.rsi)
      rw [result] at found
      exact found.symm
    rw [result] at same
    exact finishWrote same (copiedRecv acting vec number (by simp [returned]))
  · rename_i k' result
    rw [result] at same
    exact same.symm ▸ .nothing

theorem syscallWrote {tf hw} (acting : Acting k i) (vec : tf.vec = syscallVector) :
    Wrote k (.trap tf hw) (k.doSyscall i tf hw).memory := by
  have acting' : Acting (k.log (.syscall i tf)) i := acting
  have call {c} (number : Syscall.ofRax tf.rax = c) : IsCall (.trap tf hw) c tf := ⟨hw,rfl,vec,number⟩
  have still {memory : Memory} (same : memory = k.memory) : Wrote k (.trap tf hw) memory := same.symm ▸ .nothing
  unfold doSyscall
  dsimp only
  cases number : Syscall.ofRax tf.rax with
  | exit => exact still (dieMemory acting')
  | send => exact still (sysSendMemory acting')
  | recv => exact recvWrote acting vec number
  | spawn => exact still spawnMemory
  | map =>
    have same : ((k.log (.syscall i tf)).sysMap i tf).memory = k.memory.mapFresh (pageAlignDown tf.rdi) := mapMemory
    exact same.symm ▸ .mapped acting (call number)
  | outb | inb | inw => exact still portMemory
  | grantIo => exact still grantIoCallMemory
  | irqRegister => exact still irqRegisterMemory
  | mapPhys =>
    have outcome : ((k.log (.syscall i tf)).sysMapPhys i tf).memory = k.memory ∨
        i = 0 ∧ ((k.log (.syscall i tf)).sysMapPhys i tf).memory = (k.memory.vmmMap tf.rdi tf.rsi vmUserRw).1 := mapPhysMemory
    rcases outcome with same | ⟨rfl,maps⟩
    · exact still same
    · exact maps.symm ▸ .mappedPhys acting (call number)
  | grantCap => exact still grantCapMemory
  | putc | gettid | setPager | uptime | meminfo | tinfo | invalid => exact .nothing

theorem stepWrote (coherent : Coherent k) (enabled : k.Enabled input) : Wrote k input (k.step input).memory := by
  cases input with
  | resume junk => exact resumeWrote
  | store va b =>
    unfold step
    dsimp only
    split
    · rename_i memory written
      exact .stored rfl written
    · exact .nothing
  | trap tf hw =>
    obtain ⟨user,_⟩ := enabled
    have still {memory : Memory} (same : memory = k.memory) : Wrote k (.trap tf hw) memory := same.symm ▸ .nothing
    simp only [step,isrHandler]
    split
    · exact still (tickMemory coherent)
    · split
      · rename_i vec
        split
        · exact .nothing
        · rename_i i current
          exact syscallWrote ⟨user,current⟩ vec
      · split
        · exact still (pageFaultMemory user)
        · split
          · exact .nothing
          · split
            · refine still ?_
              unfold irqNotify
              split
              · rfl
              · split <;> rfl
            · exact .nothing

end
end Mukern
