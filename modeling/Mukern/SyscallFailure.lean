import Mukern.Coherence
import Mukern.Authority

/-! What a failed `SYS_SEND` and a failed `SYS_SPAWN` leave behind. -/
namespace Mukern
namespace Kernel

/- The system call of `i` is over, and its `rax` is `r`. -/
def Returns (k : Kernel) (i : Slot) (r : Int) : Prop := k.history.head? = some (.sysRet i (cword r))

/- A `SYS_SEND` that answers -1 has changed no thread. -/
def FailsClean (k : Kernel) (i : Slot) (tf : Trapframe) : Prop :=
  (k.sysSend i tf).Returns i (-1) → (k.sysSend i tf).threads = k.threads

/- The caller may name the destination, which is gone, and its record of an outstanding
call is another: that record is overwritten before the liveness of the destination is looked at. -/
structure LosesCall (k : Kernel) (i : Slot) (tf : Trapframe) : Prop where
  allowed : k.ipcSendAllowed i (cint tf.rdi)
  readable : ∃ m, k.memory.readMsg tf.rsi = some m
  nobody : ∀ d, cint tf.rdi = tid d → k.Gone d
  other : (k.threads i).ipcCallTo ≠ cint tf.rdi

section
variable {k : Kernel} {i c : Slot} {tf : Trapframe}

theorem returnsTid : cword (tid c) ≠ cword (-1) := by
  revert c
  decide

theorem returnsInj {d : Slot} (same : cword (tid c) = cword (tid d)) : c = d := by
  revert c d
  decide

theorem sendForbidden (forbidden : k.ipcSendAllowed i (cint tf.rdi) = false) : k.sysSend i tf = k.sysRet i (cword (-1)) := by
  rw [sysSend]
  simp [forbidden]

theorem sendUnreadable (allowed : k.ipcSendAllowed i (cint tf.rdi)) (unreadable : k.memory.readMsg tf.rsi = none) :
    k.sysSend i tf = ((k.openCall i (cint tf.rdi)).log (.copy i tf.rsi false)).panicException := by
  have missing : ((k.openCall i (cint tf.rdi)).log (.copy i tf.rsi false)).memory.readMsg tf.rsi = none := unreadable
  simp only [sysSend,allowed,if_true,missing]

/- After both checks the result is that of `ipc_send_locked`. -/
inductive SendEnds (k : Kernel) (i : Slot) (tf : Trapframe) : Kernel → Prop where
  | refused (nobody : ∀ d, cint tf.rdi = tid d → k.Gone d) {k' : Kernel}
      (threads : k'.threads = (k.openCall i (cint tf.rdi)).threads) : SendEnds k i tf (k'.sysRet i (cword (-1)))
  | met {d} {k' : Kernel} (named : cint tf.rdi = tid d) (present : ¬ k.Gone d) : SendEnds k i tf (k'.sysRet i (cword 0))
  | staged {d} {k' : Kernel} {m older} (named : cint tf.rdi = tid d) (present : ¬ k.Gone d)
      (last : k'.history = .sendCall i (cint tf.rdi) m :: older) : SendEnds k i tf k'

theorem goneOpen {dest : Int} {d : Slot} {e : Event} : ((k.openCall i dest).log e).Gone d ↔ k.Gone d := by
  simp only [Gone,logThreads,openCall,updThreads]
  split
  · rename_i own
    rw [own]
  · rfl

theorem sendEnds {m} (allowed : k.ipcSendAllowed i (cint tf.rdi)) (readable : k.memory.readMsg tf.rsi = some m) :
    SendEnds k i tf (k.sysSend i tf) := by
  have found : ((k.openCall i (cint tf.rdi)).log (.copy i tf.rsi false)).memory.readMsg tf.rsi = some m := readable
  have outcome := ipcSendOutcome ((k.openCall i (cint tf.rdi)).log (.copy i tf.rsi false)) i (cint tf.rdi) m .syscall
  simp only [sysSend,allowed,if_true,found]
  generalize ((k.openCall i (cint tf.rdi)).log (.copy i tf.rsi false)).ipcSendLocked i (cint tf.rdi) m .syscall = result at outcome ⊢
  cases outcome with
  | refused nobody => exact .refused (fun d named => goneOpen.mp (nobody d named)) rfl
  | met d named ready =>
    refine .met named fun gone => ?_
    simp only [receiverReady,Bool.and_eq_true,decide_eq_true_eq] at ready
    have blocked := ready.1.1
    rcases goneOpen.mpr gone with unused | dead
    · exact absurd (blocked.symm.trans unused) (by decide)
    · exact absurd (blocked.symm.trans dead) (by decide)
  | staged d named present busy =>
    exact .staged named (fun gone => present (goneOpen.mpr gone)) (scheduleHistory _ _)

/- `ipc_call_to` is written between the two checks. -/
theorem sendFailsClean (k : Kernel) (i : Slot) (tf : Trapframe) : k.FailsClean i tf ↔ ¬ k.LosesCall i tf := by
  cases allowed : k.ipcSendAllowed i (cint tf.rdi) with
  | false =>
    have unchanged : k.FailsClean i tf := fun _ => by rw [sendForbidden allowed]; rfl
    exact iff_of_true unchanged fun loses => Bool.noConfusion (allowed.symm.trans loses.allowed)
  | true =>
    cases readable : k.memory.readMsg tf.rsi with
    | none =>
      refine iff_of_true (fun returned => ?_) fun loses => ?_
      · rw [sendUnreadable allowed readable,Returns] at returned
        cases returned
      · obtain ⟨m,found⟩ := loses.readable
        cases readable.symm.trans found
    | some m =>
      have ends := sendEnds allowed readable
      rw [FailsClean]
      generalize k.sysSend i tf = result at ends ⊢
      cases ends with
      | refused nobody threads =>
        constructor
        · intro clean loses
          have same := (congrFun (clean rfl) i).symm
          rw [show ∀ k' : Kernel, (k'.sysRet i (cword (-1))).threads = k'.threads from fun _ => rfl,threads] at same
          simp only [openCall,logThreads,updThreads,if_true] at same
          exact loses.other (congrArg Thread.ipcCallTo same)
        · intro keeps _
          have own : (k.threads i).ipcCallTo = cint tf.rdi :=
            not_not.mp fun other => keeps ⟨allowed,⟨m,readable⟩,nobody,other⟩
          refine Eq.trans threads (funext fun j => ?_)
          simp only [openCall,logThreads,updThreads,← own]
          split
          · rename_i same
            rw [same]
          · rfl
      | met named present =>
        refine iff_of_true (fun returned => ?_) fun loses => present (loses.nobody _ named)
        exact absurd (Event.sysRet.inj (Option.some.inj returned)).2 (by decide)
      | staged named present last =>
        refine iff_of_true (fun returned => ?_) fun loses => present (loses.nobody _ named)
        rw [Returns,last] at returned
        cases returned

/- Init sends to a slot that no thread has ever used. -/
theorem sendFailsOpen : ∃ k i tf, Reachable k ∧ Acting k i ∧ ¬ k.FailsClean i tf := by
  let k := Transition.run machine Script.start [.tick,.go]
  refine ⟨k,0,⟨syscallVector,Input.userCs,2,5,Script.userPage,0⟩,Script.reach (by decide +kernel),⟨by decide +kernel,by decide +kernel⟩,fun clean => ?_⟩
  have kept := congrFun (clean (by rw [Returns]; decide +kernel)) 0
  exact absurd (congrArg Thread.ipcCallTo kept) (by decide +kernel)

end

/- A `SYS_SPAWN` of `i` either makes a thread that its parent may message, or touches no thread. -/
structure SpawnWhole (k : Kernel) (i : Slot) (k' : Kernel) : Prop where
  allowed : ∀ c, k'.Returns i (tid c) → k'.ipcSendAllowed i (tid c)
  holds : ∀ c, k'.Returns i (tid c) → i = 0 ∨ (k'.threads i).ctable.hasEndpoint (tid c)
  fresh : ∀ c, k'.Returns i (tid c) → k.Gone c ∧ (k'.threads c).state = .runnable ∧ (k'.threads c).ctable = capClear
  refused : k'.Returns i (-1) → k'.threads = k.threads

/- A thread is created whose endpoint finds no room in the table of its parent. -/
structure LosesChild (k : Kernel) (i : Slot) (tf : Trapframe) : Prop where
  program : 0 ≤ cint tf.rdi ∧ cint tf.rdi < 12
  room : ∃ c, k.freeThread = some c ∧ ¬ (k.threads i).ctable.hasEndpoint (tid c)
  full : (k.threads i).ctable.freeSlot = none
  user : i ≠ 0

section
variable {k : Kernel} {i c : Slot} {tf : Trapframe}

/- The threads after `thread_create` and `cap_grant_endpoint`. -/
def spawned (k : Kernel) (i c : Slot) (prog : Fin 12) : Slot → Thread := fun j =>
  if j = c then plant (k.threads c) (k.stackTop c) prog
  else if j = i then { k.threads i with ctable := ((k.threads i).ctable.grantEndpoint (tid c)).1 }
  else k.threads j

inductive SpawnEnds (k : Kernel) (i : Slot) (tf : Trapframe) : Kernel → Prop where
  | refused (nothing : ¬ (0 ≤ cint tf.rdi ∧ cint tf.rdi < 12) ∨ k.freeThread = none) :
      SpawnEnds k i tf (k.sysRet i (cword (-1)))
  | made {c prog} {k' : Kernel} (program : 0 ≤ cint tf.rdi ∧ cint tf.rdi < 12) (free : k.freeThread = some c)
      (threads : k'.threads = k.spawned i c prog) : SpawnEnds k i tf (k'.sysRet i (cword (tid c)))

theorem grantThreads {t : Slot} {ep : Int} :
    (k.capGrantEndpoint (some t) ep).1.threads = (k.upd t fun r => { r with ctable := ((k.threads t).ctable.grantEndpoint ep).1 }).threads := by
  rw [capGrantEndpoint]
  dsimp only
  split <;> rfl

theorem spawnEnds (present : ¬ k.Gone i) : SpawnEnds k i tf (k.sysSpawn i tf) := by
  by_cases program : 0 ≤ cint tf.rdi ∧ cint tf.rdi < 12
  · cases free : k.freeThread with
    | none =>
      have nothing : k.sysSpawn i tf = k.sysRet i (cword (-1)) := by
        simp [sysSpawn,procSpawn,program,threadCreate,free]
      rw [nothing]
      exact .refused (.inr free)
    | some c =>
      have other : i ≠ c := fun same => present (same ▸ freeThreadDead free)
      have natural : (0 : Int) ≤ tid c := Int.natCast_nonneg _
      let prog : Fin 12 := ⟨(cint tf.rdi).toNat,by omega⟩
      let born : Kernel := (k.upd c (plant · (k.stackTop c) prog)).log (.create c (some i) prog)
      have made : k.sysSpawn i tf = (born.capGrantEndpoint (some i) (tid c)).1.sysRet i (cword (tid c)) := by
        simp only [sysSpawn,procSpawn,program,threadCreate,free,and_self,dite_true,natural,if_true]
        rfl
      rw [made]
      have parent : born.threads i = k.threads i := by simp [born,other]
      have threads : (born.capGrantEndpoint (some i) (tid c)).1.threads = k.spawned i c prog := by
        rw [grantThreads,parent]
        funext j
        rw [updThreads,parent,spawned]
        by_cases own : j = i
        · rw [if_pos own,if_neg (own ▸ other),if_pos own]
        · rw [if_neg own,if_neg own]
          simp only [born,logThreads,updThreads]
      exact .made program free threads
  · have nothing : k.sysSpawn i tf = k.sysRet i (cword (-1)) := by simp [sysSpawn,procSpawn,program]
    rw [nothing]
    exact .refused (.inl program)

theorem setHolds {t : CTable} {n : Fin 16} {cap : Cap} {ep : Int} (type : cap.type = .endpoint) (target : cap.target = ep) :
    (t.set n cap).hasEndpoint ep := by
  have here : t.set n cap n = cap := by simp [CTable.set]
  exact hasEndpointIff.mpr ⟨n,by rw [here,type],by rw [here,target]⟩

/- After a grant only a full table lacks the endpoint. -/
theorem grantedHolds {t : CTable} {ep : Int} :
    (t.grantEndpoint ep).1.hasEndpoint ep = false ↔ t.hasEndpoint ep = false ∧ t.freeSlot = none := by
  unfold CTable.grantEndpoint
  split
  · rename_i held
    simp [held]
  · rename_i lacks
    split
    · rename_i n found
      have held : (t.set n { t n with type := .endpoint, target := ep, rights := capRightSend }).hasEndpoint ep := setHolds rfl rfl
      simp [found,held]
    · rename_i full
      simp [full]

theorem spawnWhole (reach : Reachable k) (acting : Acting k i) : k.SpawnWhole i (k.sysSpawn i tf) ↔ ¬ k.LosesChild i tf := by
  have running : (k.threads i).state = .running := acting.state (reachCoherent reach)
  have present : ¬ k.Gone i := by
    rintro (unused | dead)
    · exact absurd (running.symm.trans unused) (by decide)
    · exact absurd (running.symm.trans dead) (by decide)
  have ends : SpawnEnds k i tf (k.sysSpawn i tf) := spawnEnds present
  generalize k.sysSpawn i tf = result at ends ⊢
  cases ends with
  | refused nothing =>
    have whole : k.SpawnWhole i (k.sysRet i (cword (-1))) := by
      have never : ∀ c, ¬ (k.sysRet i (cword (-1))).Returns i (tid c) :=
        fun c returned => returnsTid (Event.sysRet.inj (Option.some.inj returned)).2.symm
      exact ⟨fun c returned => absurd returned (never c),fun c returned => absurd returned (never c),
        fun c returned => absurd returned (never c),fun _ => rfl⟩
    refine iff_of_true whole fun loses => ?_
    obtain ⟨c,free,_⟩ := loses.room
    rcases nothing with invalid | none
    · exact invalid loses.program
    · cases none.symm.trans free
  | @made c prog k' program free threads =>
    have other : i ≠ c := fun same => present (same ▸ freeThreadDead free)
    have table : ((k'.sysRet i (cword (tid c))).threads i).ctable = ((k.threads i).ctable.grantEndpoint (tid c)).1 := by
      simp [sysRet,threads,spawned,other]
    have only : ∀ d, (k'.sysRet i (cword (tid c))).Returns i (tid d) → d = c :=
      fun d returned => (returnsInj (Event.sysRet.inj (Option.some.inj returned)).2).symm
    constructor
    · rintro whole loses
      obtain ⟨d,found,lacks⟩ := loses.room
      cases free.symm.trans found
      rcases whole.holds c rfl with root | held
      · exact loses.user root
      · rw [table,grantedHolds.mpr ⟨Bool.eq_false_iff.mpr lacks,loses.full⟩] at held
        cases held
    · intro keeps
      have holds : i = 0 ∨ ((k'.sysRet i (cword (tid c))).threads i).ctable.hasEndpoint (tid c) := by
        by_contra lacking
        obtain ⟨user,lacks⟩ := not_or.mp lacking
        rw [table,Bool.not_eq_true,grantedHolds] at lacks
        exact keeps ⟨program,⟨c,free,by simp [lacks.1]⟩,lacks.2,user⟩
      have child : (k'.sysRet i (cword (tid c))).threads c = plant (k.threads c) (k.stackTop c) prog := by
        simp [sysRet,threads,spawned]
      refine ⟨fun d returned => ?_,fun d returned => only d returned ▸ holds,fun d returned => ?_,fun returned => ?_⟩
      · rw [only d returned,ipcSendAllowed]
        rcases holds with root | held
        · simp [root,tid]
        · simp [held]
      · rw [only d returned,child]
        exact ⟨freeThreadDead free,rfl,rfl⟩
      · exact absurd (Event.sysRet.inj (Option.some.inj returned)).2 returnsTid

/- Init spawns a thread, which spawns another. -/
theorem spawnWholeNested :
    (Transition.run machine Script.start [.tick,.go,.call 4 1 0 0,.tick,.go]).SpawnWhole 1
      ((Transition.run machine Script.start [.tick,.go,.call 4 1 0 0,.tick,.go]).sysSpawn 1 ⟨syscallVector,Input.userCs,4,2,0,0⟩) :=
  (spawnWhole (Script.reach (by decide +kernel)) ⟨by decide +kernel,by decide +kernel⟩).mpr fun loses =>
    absurd loses.full (by decide +kernel)

/- Init fills the table of the thread it has spawned with sixteen endpoints. -/
def Script.filledTable : List Input :=
  [.tick,.go,.call 4 1 0 0] ++ (List.range 16).map (fun n => .call 17 1 (BitVec.ofNat 64 (100 + n)) 0) ++ [.tick,.go]

theorem spawnLoses : ∃ k i tf, Reachable k ∧ Acting k i ∧ ¬ k.SpawnWhole i (k.sysSpawn i tf) := by
  refine ⟨Transition.run machine Script.start Script.filledTable,1,⟨syscallVector,Input.userCs,4,2,0,0⟩,
    Script.reach (by decide +kernel),⟨by decide +kernel,by decide +kernel⟩,fun whole => ?_⟩
  rcases whole.holds 2 (by rw [Returns]; decide +kernel) with root | held
  · cases root
  · exact absurd held (by decide +kernel)

end
end Kernel
end Mukern
