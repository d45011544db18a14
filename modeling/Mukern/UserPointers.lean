import Mukern.Lifetime

/-! Which memory `SYS_SEND` and `SYS_RECV` touch for their caller. The kernel copies
the 32 bytes of a message with its own rights, so what Ring 3 could reach itself
does not limit it. -/
namespace Mukern
open Kernel Memory

/- The copy of a message at `va` gets to its byte `n`. -/
def Touched (m : Memory) (va : Word) (n : Nat) : Prop :=
  ∀ j ≤ n, (m.kernelAccess (va + BitVec.ofNat 64 j)).isSome

/- Every byte that the step copies for a thread lies where the thread could itself
have read or written it. -/
def PointersConfined (k : Kernel) (input : Input) : Prop :=
  ∀ i va write, Newer k (k.step input) (.copy i va write) → ∀ n < 32, Touched k.memory va n →
    (k.memory.userAccess (va + BitVec.ofNat 64 n) write).isSome

/- A page that is mapped, but not for Ring 3. -/
def Guarded (m : Memory) (va : Word) (write : Bool) : Bool :=
  (m.kernelAccess va).isSome && (m.userAccess va write).isNone

/- The step copies a message to or from a guarded page; the page of the last byte
counts if that of the first is mapped. -/
def Trespasses (k : Kernel) (input : Input) : Bool :=
  match copied k input with
  | none => false
  | some (va,write) => Guarded k.memory va write ||
      (k.memory.kernelAccess va).isSome && Guarded k.memory (va + 31) write

section
variable {k₀ k k' : Kernel} {input : Input} {i : Slot} {m : Memory} {va va' : Word} {write : Bool}

theorem pageIndex (page : va >>> 12 = va' >>> 12) (level : Nat) : index va (level + 1) = index va' (level + 1) := by
  simp only [index,Nat.add_sub_cancel,BitVec.shiftRight_add,page]

theorem canonicalIff : canonical va ↔ ∀ n, 48 ≤ n → n < 64 → va.getLsbD n = va.getLsbD 47 := by
  rw [canonical,beq_iff_eq]
  constructor
  · intro same n low high
    have bit := congrArg (·.getLsbD n) same
    simp only [BitVec.getLsbD_signExtend,BitVec.getLsbD_setWidth,BitVec.msb_eq_getLsbD_last] at bit
    simpa [high,show ¬ n < 48 by omega] using bit.symm
  · intro same
    refine BitVec.eq_of_getLsbD_eq fun n high => ?_
    simp only [BitVec.getLsbD_signExtend,BitVec.getLsbD_setWidth,BitVec.msb_eq_getLsbD_last]
    by_cases low : n < 48
    · simp [high,low]
    · simpa [high,low] using (same n (by omega) high).symm

theorem pageCanonical (page : va >>> 12 = va' >>> 12) : canonical va = canonical va' := by
  have bits : ∀ n, va.getLsbD (12 + n) = va'.getLsbD (12 + n) := by
    intro n
    rw [← BitVec.getLsbD_ushiftRight,← BitVec.getLsbD_ushiftRight,page]
  have iff : canonical va ↔ canonical va' := by
    rw [canonicalIff,canonicalIff]
    have last := bits 35
    constructor
    · intro same n low high
      have bit := bits (n - 12)
      rw [show 12 + (n - 12) = n by omega] at bit
      rw [← bit,same n low high,last]
    · intro same n low high
      have bit := bits (n - 12)
      rw [show 12 + (n - 12) = n by omega] at bit
      rw [bit,same n low high,last]
  exact Bool.eq_iff_iff.mpr iff

def rights (t : Translation) : Bool × Bool := (t.write,t.user)

/- The walk finds the same rights for all bytes of a page. -/
theorem pageWalkFrom (page : va >>> 12 = va' >>> 12) (words : Words) (level : Nat) (table : Word) (w u : Bool) :
    (walkFrom words va level table w u).map rights = (walkFrom words va' level table w u).map rights := by
  induction level generalizing table w u with
  | zero => rfl
  | succ level ih =>
    simp only [walkFrom,pageIndex page]
    split
    · rfl
    · split
      · split <;> rfl
      · exact ih _ _ _

theorem pageWalk (page : va >>> 12 = va' >>> 12) : (m.walk va).map rights = (m.walk va').map rights :=
  pageWalkFrom page _ _ _ _ _

theorem kernelAccessSome : (m.kernelAccess va).isSome = (canonical va && ((m.walk va).map rights).isSome) := by
  unfold kernelAccess
  split <;> simp [*]

theorem userAccessSome : (m.userAccess va write).isSome =
    (canonical va && ((m.walk va).map rights).any fun r => r.2 && (!write || r.1)) := by
  unfold userAccess
  split
  · cases m.walk va with
    | none => simp
    | some t =>
      dsimp only
      split <;> simp_all [rights]
  · simp [*]

theorem pageKernel (page : va >>> 12 = va' >>> 12) : (m.kernelAccess va).isSome = (m.kernelAccess va').isSome := by
  rw [kernelAccessSome,kernelAccessSome,pageCanonical page,pageWalk page]

theorem pageUser (page : va >>> 12 = va' >>> 12) :
    (m.userAccess va write).isSome = (m.userAccess va' write).isSome := by
  rw [userAccessSome,userAccessSome,pageCanonical page,pageWalk page]

/- A buffer of 32 bytes lies in the pages of its first and its last byte. -/
theorem twoPages (va : Word) {n : Nat} (short : n < 32) :
    (va + BitVec.ofNat 64 n) >>> 12 = va >>> 12 ∨ (va + BitVec.ofNat 64 n) >>> 12 = (va + 31) >>> 12 := by
  have low := va.isLt
  have first : ((va + BitVec.ofNat 64 n) >>> 12).toNat = (va.toNat + n) % 2 ^ 64 / 4096 := by
    simp [BitVec.toNat_add,Nat.shiftRight_eq_div_pow]
  have last : ((va + 31) >>> 12).toNat = (va.toNat + 31) % 2 ^ 64 / 4096 := by
    simp [BitVec.toNat_add,Nat.shiftRight_eq_div_pow]
  have none : (va >>> 12).toNat = va.toNat / 4096 := by
    simp [Nat.shiftRight_eq_div_pow]
  by_cases same : (va.toNat + n) % 2 ^ 64 / 4096 = va.toNat / 4096
  · exact .inl (BitVec.eq_of_toNat_eq (by omega))
  · exact .inr (BitVec.eq_of_toNat_eq (by omega))

theorem touchedFirst {n : Nat} (touched : Touched m va n) : (m.kernelAccess va).isSome := by
  have first := touched 0 (Nat.zero_le n)
  rwa [BitVec.add_zero] at first

/- The bytes of a message are Ring 3's own if the pages of the first and the last are. -/
theorem confinedIff : (∀ n < 32, Touched m va n → (m.userAccess (va + BitVec.ofNat 64 n) write).isSome) ↔
    Guarded m va write = false ∧ ((m.kernelAccess va).isSome → Guarded m (va + 31) write = false) := by
  have free : ∀ {at' : Word}, Guarded m at' write = false ↔
      ((m.kernelAccess at').isSome → (m.userAccess at' write).isSome) := by
    intro at'
    unfold Guarded
    cases (m.kernelAccess at') <;> cases (m.userAccess at' write) <;> simp
  simp only [free]
  constructor
  · intro confined
    constructor
    · intro mapped
      have first := confined 0 (by omega) fun j low => by
        obtain rfl : j = 0 := by omega
        rwa [BitVec.add_zero]
      rwa [BitVec.add_zero] at first
    · intro mapped last
      refine confined 31 (by omega) fun j low => ?_
      obtain page | page := twoPages va (show j < 32 by omega)
      · rw [pageKernel page]
        exact mapped
      · rw [pageKernel page]
        exact last
  · rintro ⟨first,last⟩ n short touched
    have mapped := touchedFirst touched
    obtain page | page := twoPages va short
    · rw [pageUser page]
      exact first mapped
    · rw [pageUser page]
      refine last mapped ?_
      rw [← pageKernel page]
      exact touched n (Nat.le_refl n)

theorem trespassesIff (source : copied k input = some (va,write)) : Trespasses k input = false ↔
    Guarded k.memory va write = false ∧
      ((k.memory.kernelAccess va).isSome → Guarded k.memory (va + 31) write = false) := by
  simp only [Trespasses,source]
  cases (k.memory.kernelAccess va).isSome <;> simp

/- Ring 3 and the kernel walk the same tables. -/
theorem userKernel {pa : Nat} (user : (m.userAccess va write).isSome) (access : m.kernelAccess va = some pa) :
    m.userAccess va write = some pa := by
  unfold kernelAccess at access
  unfold userAccess at *
  split at user
  · rename_i valid
    rw [if_pos valid] at access
    cases found : m.walk va with
    | none => simp [found] at access
    | some t =>
      simp_all
  · cases user

theorem stepCopied (coherent : Coherent k) (enabled : k.Enabled input)
    (logged : Newer k (k.step input) (.copy i va write)) : copied k input = some (va,write) := by
  obtain ⟨es,older,justified⟩ := movesGrown coherent (stepMoves enabled)
  obtain ⟨es',older',member⟩ := logged
  have same : es' = es := List.append_cancel_right (older'.symm.trans older)
  obtain ⟨_,_,source⟩ := justified _ (same ▸ member)
  exact source

theorem finishCopies {rsi source msg} : Newer k (k.sysRecvFinish i rsi source msg) (.copy i rsi true) := by
  unfold sysRecvFinish
  dsimp only
  split
  · exact ⟨[.copy i rsi true],rfl,List.mem_cons_self⟩
  · exact ⟨[.sysRet i (cword source),.copy i rsi true],rfl,by simp⟩

theorem sendCopies {tf} (acting : Acting k i) (allowed : k.ipcSendAllowed i (cint tf.rdi)) :
    Newer k (k.sysSend i tf) (.copy i tf.rsi false) := by
  have copied : Newer k ((k.openCall i (cint tf.rdi)).log (.copy i tf.rsi false)) (.copy i tf.rsi false) :=
    ⟨[.copy i tf.rsi false,.openCall i (cint tf.rdi)],rfl,List.mem_cons_self⟩
  unfold sysSend
  rw [if_pos allowed]
  dsimp only
  split
  · exact copied
  · rename_i m _
    have acting' : Acting ((k.openCall i (cint tf.rdi)).log (.copy i tf.rsi false)) i := acting
    have grows : Grows k (.resume m) ((k.openCall i (cint tf.rdi)).log (.copy i tf.rsi false))
        (((k.openCall i (cint tf.rdi)).log (.copy i tf.rsi false)).ipcSendLocked i (cint tf.rdi) m .syscall).1 :=
      growsSend acting'
    have sent := copied.grow grows
    split
    · rename_i k' r result
      rw [result] at sent
      have returned : Grows k (.resume m) k' (k'.sysRet i (cword r)) := growsLog rfl trivial
      exact sent.grow returned
    · rename_i k' result
      rwa [result] at sent

theorem recvCopies {tf hw} (acting : Acting k i) (returns : (k.received i (cint tf.rdi) hw.junk).isSome) :
    Newer k (k.sysRecv i tf hw) (.copy i tf.rsi true) := by
  have same := recvReceived k i (cint tf.rdi) hw.junk (.syscall tf.rsi)
  have grows : Grows k (.trap tf hw) k (k.ipcRecvLocked i (cint tf.rdi) hw.junk (.syscall tf.rsi)).1 :=
    growsRecv acting
  unfold sysRecv
  split
  · rename_i k' source m result
    rw [result] at grows
    obtain ⟨es,older,_⟩ := grows
    exact finishCopies.since ⟨es,older⟩
  · rename_i k' result
    rw [result] at same
    simp [← same] at returns

theorem resumeCopies {junk rsi} (current : k.current = some i) (saved : (k.threads i).saved = .recv (.syscall rsi)) :
    Newer k (k.resume junk) (.copy i rsi true) := by
  have older : ∃ es, ((k.onCpu i).ipcRecvResume i junk).1.history = es ++ k.history := by
    unfold ipcRecvResume
    dsimp only
    split
    · exact ⟨[.recvRet i ipcIrqSender (irqMsg junk)],rfl⟩
    · exact ⟨[_],rfl⟩
  simp only [resume,current,saved]
  exact finishCopies.since older

theorem trapCopies {tf hw} (user : k.mode = .user) (source : copied k (.trap tf hw) = some (va,write)) :
    ∃ i, Newer k (k.isrHandler tf hw) (.copy i va write) := by
  cases current : k.current with
  | none => simp [copied,current] at source
  | some i =>
    have acting : Acting (k.log (.syscall i tf)) i := ⟨user,current⟩
    have entered : ∃ es, (k.log (.syscall i tf)).history = es ++ k.history := ⟨[.syscall i tf],rfl⟩
    simp only [copied,current] at source
    split at source
    · rename_i vec
      have notTimer : tf.vec ≠ vecTimer := by simp [vec,syscallVector,vecTimer]
      refine ⟨i,?_⟩
      simp only [isrHandler,if_neg notTimer,if_pos vec,current,doSyscall]
      cases number : Syscall.ofRax tf.rax <;> simp only [number] at source
      case send =>
        split at source
        · rename_i allowed
          cases source
          exact (sendCopies acting allowed).since entered
        · cases source
      case recv =>
        split at source
        · rename_i returns
          cases source
          exact (recvCopies acting returns).since entered
        · cases source
      all_goals cases source
    · cases source

/- The kernel does copy where `copied` says so. -/
theorem copiedStep (enabled : k.Enabled input) (source : copied k input = some (va,write)) :
    ∃ i, Newer k (k.step input) (.copy i va write) := by
  cases input with
  | store at' b => cases source
  | trap tf hw => exact trapCopies enabled.1 source
  | resume junk =>
    cases current : k.current with
    | none => simp [copied,current] at source
    | some i =>
      simp only [copied,current] at source
      split at source
      · rename_i rsi saved
        cases source
        exact ⟨i,resumeCopies current saved⟩
      · cases source

theorem nextByte (j : Nat) : va + 1 + BitVec.ofNat 64 j = va + BitVec.ofNat 64 (j + 1) := by
  rw [BitVec.add_assoc,Nat.add_comm j 1,BitVec.ofNat_add]
  rfl

theorem touchedNext {n : Nat} (first : (m.kernelAccess va).isSome) (rest : Touched m (va + 1) n) :
    Touched m va (n + 1) := by
  intro j low
  cases j with
  | zero => rwa [BitVec.add_zero]
  | succ j =>
    have next := rest j (by omega)
    rwa [nextByte] at next

theorem spanTouched {n : Nat} {span : List Nat} {pa : Nat} (found : m.kernelSpan va n = some span) (member : pa ∈ span) :
    ∃ j < n, Touched m va j ∧ m.kernelAccess (va + BitVec.ofNat 64 j) = some pa := by
  induction n generalizing va span with
  | zero =>
    cases found
    cases member
  | succ n ih =>
    simp only [kernelSpan,bind,Option.bind_eq_some_iff] at found
    obtain ⟨first,mapped,rest,found,same⟩ := found
    cases same
    have some : (m.kernelAccess va).isSome := by simp [mapped]
    rcases List.mem_cons.mp member with rfl | later
    · refine ⟨0,by omega,fun j low => ?_,?_⟩
      · obtain rfl : j = 0 := by omega
        rwa [BitVec.add_zero]
      · rwa [BitVec.add_zero]
    · obtain ⟨j,short,touched,access⟩ := ih found later
      refine ⟨j + 1,by omega,touchedNext some touched,?_⟩
      rw [← access,nextByte]

theorem finishWrites {rsi source msg} {pa : Nat}
    (changed : (k.sysRecvFinish i rsi source msg).memory.words.byte pa ≠ k.memory.words.byte pa) :
    ∃ n < 32, Touched k.memory rsi n ∧ k.memory.kernelAccess (rsi + BitVec.ofNat 64 n) = some pa := by
  unfold sysRecvFinish at changed
  dsimp only at changed
  split at changed
  · exact absurd rfl changed
  · rename_i memory written
    obtain ⟨span,found,stored⟩ := Option.map_eq_some_iff.mp written
    have inside : pa ∈ span := by
      by_contra outside
      refine changed ?_
      have beyond : pa ∉ (span.zip (msgBytes msg)).map Prod.fst := by
        intro member
        obtain ⟨⟨pa',b⟩,zipped,rfl⟩ := List.mem_map.mp member
        exact outside (List.of_mem_zip zipped).1
      rw [← stored]
      exact Words.storeOther beyond
    exact spanTouched found inside

theorem sendMemory {dest msg caller} (acting : Acting k i) :
    (k.ipcSendLocked i dest msg caller).1.memory = k.memory := by
  have outcome := ipcSendOutcome k i dest msg caller
  generalize k.ipcSendLocked i dest msg caller = result at outcome
  cases outcome with
  | refused nobody => rfl
  | met d named ready => rfl
  | staged d named present busy =>
    exact (scheduleSwitch _ (parkableLeave (k := k.log (.sendCall i dest msg)) acting (by simp))).memory

theorem recvMemory {src junk caller} (acting : Acting k i) :
    (k.ipcRecvLocked i src junk caller).1.memory = k.memory := by
  have outcome := ipcRecvOutcome k i src junk caller
  generalize k.ipcRecvLocked i src junk caller = result at outcome
  cases outcome with
  | irq pending => rfl
  | taken snd quiet waiting => rfl
  | awaits quiet nobody =>
    exact (scheduleSwitch _ (parkableLeave (k := k.log (.recvCall i src)) acting (by simp))).memory

theorem sysSendMemory {tf} (acting : Acting k i) : (k.sysSend i tf).memory = k.memory := by
  unfold sysSend
  dsimp only
  split
  · split
    · rfl
    · rename_i msg _
      have acting' : Acting ((k.openCall i (cint tf.rdi)).log (.copy i tf.rsi false)) i := acting
      have sent : (((k.openCall i (cint tf.rdi)).log (.copy i tf.rsi false)).ipcSendLocked i (cint tf.rdi) msg
          .syscall).1.memory = k.memory := sendMemory acting'
      split
      · rename_i k' r result
        rwa [result] at sent
      · rename_i k' result
        rwa [result] at sent
  · rfl

theorem sysRecvWrites {tf} (hw) {pa : Nat} (acting : Acting k i)
    (changed : (k.sysRecv i tf hw).memory.words.byte pa ≠ k.memory.words.byte pa) :
    ∃ n < 32, Touched k.memory tf.rsi n ∧ k.memory.kernelAccess (tf.rsi + BitVec.ofNat 64 n) = some pa := by
  have memory : (k.ipcRecvLocked i (cint tf.rdi) hw.junk (.syscall tf.rsi)).1.memory = k.memory := recvMemory acting
  unfold sysRecv at changed
  split at changed
  · rename_i k' source msg result
    rw [result] at memory
    rw [← memory] at changed ⊢
    exact finishWrites changed
  · rename_i k' result
    rw [result] at memory
    exact absurd (by rw [memory]) changed

/- A step that copies a message changes no byte but those of the buffer. -/
theorem copyWrites {pa : Nat} (enabled : k.Enabled input) (source : copied k input = some (va,write))
    (changed : (k.step input).memory.words.byte pa ≠ k.memory.words.byte pa) :
    write = true ∧ ∃ n < 32, Touched k.memory va n ∧ k.memory.kernelAccess (va + BitVec.ofNat 64 n) = some pa := by
  cases input with
  | store at' b => cases source
  | resume junk =>
    cases current : k.current with
    | none => simp [copied,current] at source
    | some i =>
      simp only [copied,current] at source
      split at source
      · rename_i rsi saved
        cases source
        refine ⟨rfl,?_⟩
        have memory : ((k.onCpu i).ipcRecvResume i junk).1.memory = k.memory := by
          unfold ipcRecvResume
          dsimp only
          split <;> rfl
        simp only [step,resume,current,saved] at changed
        rw [← memory] at changed ⊢
        exact finishWrites changed
      · cases source
  | trap tf hw =>
    cases current : k.current with
    | none => simp [copied,current] at source
    | some i =>
      have acting : Acting (k.log (.syscall i tf)) i := ⟨enabled.1,current⟩
      simp only [copied,current] at source
      split at source
      · rename_i vec
        have notTimer : tf.vec ≠ vecTimer := by simp [vec,syscallVector,vecTimer]
        simp only [step,isrHandler,if_neg notTimer,if_pos vec,current,doSyscall] at changed
        cases number : Syscall.ofRax tf.rax <;> simp only [number] at source changed
        case send =>
          rw [sysSendMemory acting] at changed
          exact absurd rfl changed
        case recv =>
          split at source
          · cases source
            rw [← logMemory k (.syscall i tf)]
            refine ⟨rfl,sysRecvWrites hw acting ?_⟩
            rwa [logMemory]
          · cases source
        all_goals cases source
      · cases source

/- Where the copy meets no guarded page, those bytes are the caller's to write. -/
theorem copyWritesOwn {pa : Nat} (enabled : k.Enabled input) (source : copied k input = some (va,write))
    (own : Trespasses k input = false)
    (changed : (k.step input).memory.words.byte pa ≠ k.memory.words.byte pa) :
    ∃ n < 32, k.memory.userAccess (va + BitVec.ofNat 64 n) true = some pa := by
  obtain ⟨rfl,n,short,touched,access⟩ := copyWrites enabled source changed
  have confined := confinedIff.mpr ((trespassesIff source).mp own) n short touched
  exact ⟨n,short,userKernel confined access⟩

/- What `SYS_SEND` reads and `SYS_RECV` writes is memory that the caller could have
read or written itself, exactly if no page of the buffer is guarded. -/
theorem userPointers (h : Reachable k) (enabled : k.Enabled input) :
    PointersConfined k input ↔ Trespasses k input = false := by
  have coherent := reachCoherent h
  cases source : copied k input with
  | none =>
    refine iff_of_true ?_ (by rw [Trespasses,source])
    intro i va write logged
    rw [stepCopied coherent enabled logged] at source
    cases source
  | some buffer =>
    obtain ⟨va,write⟩ := buffer
    rw [trespassesIff source,← confinedIff]
    constructor
    · intro confined
      obtain ⟨i,logged⟩ := copiedStep enabled source
      exact confined i va write logged
    · intro confined i va' write' logged
      cases source.symm.trans (stepCopied coherent enabled logged)
      exact confined

/- Init waits for a message with its buffer in its own page. -/
theorem userPointersOwn :
    PointersConfined (Transition.run machine Script.start [.tick,.go,.call 4 1 0 0,.call 2 1 Script.userPage 0,.go])
      (.call 3 (-1) Script.userPage 0) :=
  (userPointers (Script.reach (by decide +kernel)) (by decide +kernel)).mpr (by decide +kernel)

/- Init sends to thread 1, which receives into the PML4 of the kernel. -/
theorem pml4Overwritten :
    ∃ k, Reachable k ∧ k.current = some 1 ∧ ¬ PointersConfined k (.call 3 (-1) 0x101000 0) ∧
      k.memory.words (0x101000 / 8) = 0x102003 ∧ (k.step (.call 3 (-1) 0x101000 0)).memory.words (0x101000 / 8) = 0 := by
  refine ⟨Transition.run machine Script.start [.tick,.go,.call 4 1 0 0,.call 2 1 Script.userPage 0,.go],
    Script.reach (by decide +kernel),by decide +kernel,fun confined => ?_,by decide +kernel,by decide +kernel⟩
  have copies : copied (Transition.run machine Script.start [.tick,.go,.call 4 1 0 0,.call 2 1 Script.userPage 0,.go])
      (.call 3 (-1) 0x101000 0) = some (0x101000,true) := by decide +kernel
  obtain ⟨i,logged⟩ := copiedStep (by decide +kernel) copies
  have first := confined i _ _ logged 0 (by omega) fun j low => by
    obtain rfl : j = 0 := by omega
    decide +kernel
  exact absurd first (by decide +kernel)

end
end Mukern
