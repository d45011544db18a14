import Mukern.Run

/-! What a step of the machine is made of. `Move k₀ input` lists the updates that
the handlers perform on the thread table, each with the facts that hold where
the source performs it; `stepMoves` says that every step is a sequence of them. -/
namespace Mukern
open Kernel

/- The kernel works for thread `i`, or `i` itself runs in Ring 3. -/
def Acting (k : Kernel) (i : Slot) : Prop := k.mode = .user ∧ k.current = some i

def IsCall (input : Input) (call : Syscall) (tf : Trapframe) : Prop :=
  ∃ hw, input = .trap tf hw ∧ tf.vec = syscallVector ∧ Syscall.ofRax tf.rax = call

def IsPortCall (input : Input) (tf : Trapframe) : Prop :=
  IsCall input .outb tf ∨ IsCall input .inb tf ∨ IsCall input .inw tf

def closeCall (source : Int) (t : Thread) : Thread :=
  if source = t.ipcCallTo then { t with ipcCallTo := -1 } else t

/- A page fault of thread `i` in Ring 3 that the kernel forwards. -/
structure Forwards (k : Kernel) (input : Input) (i : Slot) (addr : Word) : Prop where
  acting : Acting k i
  trap : ∃ tf hw, input = .trap tf hw ∧ tf.vec = vecPf ∧ fromUser tf ∧ hw.cr2 = addr
  pager : 0 ≤ k.pagerTid
  other : tid i ≠ k.pagerTid

/- `context_switch` returns into thread `i`. -/
def Resumes (k : Kernel) (input : Input) (i : Slot) : Prop :=
  (∃ junk, input = .resume junk) ∧ k.mode = .resume ∧ k.current = some i

/- A thread of the page-fault path between its send and its receive. -/
inductive FaultSent (k₀ : Kernel) (input : Input) (i : Slot) : Kernel → Prop where
  | direct {k : Kernel} {addr : Word} {r : Int} (forwards : Forwards k₀ input i addr)
      (sent : (k₀.log (.fault i addr k₀.pagerTid)).ipcSendLocked i k₀.pagerTid (faultMsg i addr) .fault =
        (k,some r)) : FaultSent k₀ input i k
  | resumed (resumes : Resumes k₀ input i) (saved : (k₀.threads i).saved = .send .fault) :
      FaultSent k₀ input i ((k₀.onCpu i).ipcSendResume i)

/- A thread of the page-fault path whose receive has returned. -/
inductive FaultAnswered (k₀ : Kernel) (input : Input) (i : Slot) (reply : IpcMsg) : Kernel → Prop where
  | direct {k k' : Kernel} {source : Int} {junk : IpcMsg} (sent : FaultSent k₀ input i k)
      (acting : Acting k i) (received : k.ipcRecvLocked i k.pagerTid junk .fault = (k',some (source,reply))) :
      FaultAnswered k₀ input i reply k'
  | resumed {junk : IpcMsg} (resumes : Resumes k₀ input i) (saved : (k₀.threads i).saved = .recv .fault)
      (received : ((k₀.onCpu i).ipcRecvResume i junk).2.2 = reply) :
      FaultAnswered k₀ input i reply ((k₀.onCpu i).ipcRecvResume i junk).1

/- The buffer in memory of Ring 3 that the step copies a message from, or to. -/
def copied (k : Kernel) : Input → Option (Word × Bool)
  | .resume _ =>
    match k.current with
    | none => none
    | some i =>
      match (k.threads i).saved with
      | .recv (.syscall rsi) => some (rsi,true)
      | _ => none
  | .trap tf hw =>
    match k.current with
    | none => none
    | some i =>
      if tf.vec = syscallVector then
        match Syscall.ofRax tf.rax with
        | .send => if k.ipcSendAllowed i (cint tf.rdi) then some (tf.rsi,false) else none
        | .recv => if (k.received i (cint tf.rdi) hw.junk).isSome then some (tf.rsi,true) else none
        | _ => none
      else none
  | .store _ _ => none

inductive Move (k₀ : Kernel) (input : Input) : Kernel → Kernel → Prop where
  | enter {i tf} (acting : Acting k₀ i) : Move k₀ input k₀ (k₀.log (.syscall i tf))
  | leave {k i rax} (acting : Acting k i) : Move k₀ input k (k.sysRet i rax)
  | port {i tf} (acting : Acting k₀ i) (call : IsPortCall input tf) (held : (k₀.threads i).ctable.hasPort (tf.rdi.setWidth 16)) :
      Move k₀ input (k₀.log (.syscall i tf)) ((k₀.log (.syscall i tf)).log (.portIo i (tf.rdi.setWidth 16)))
  | copy {k : Kernel} {i va write} (acting : Acting k i) (source : copied k₀ input = some (va,write)) :
      Move k₀ input k (k.log (.copy i va write))
  | memory {k : Kernel} (memory : Memory) : Move k₀ input k { k with memory := memory }
  | openCall {k i dest} (acting : Acting k i) (allowed : k.ipcSendAllowed i dest) :
      Move k₀ input k (k.openCall i dest)
  | closeCall {k : Kernel} {i} (source : Int) (acting : Acting k i) :
      Move k₀ input k (k.upd i (closeCall source))
  | send {k : Kernel} {i dest m} (acting : Acting k i) (called : (k.threads i).ipcCallTo = dest) :
      Move k₀ input k (k.ipcSendLocked i dest m .syscall).1
  | recv {k : Kernel} {i} (src junk rsi) (acting : Acting k i) :
      Move k₀ input k (k.ipcRecvLocked i src junk (.syscall rsi)).1
  | create {i tf} (prog : Fin 12) (acting : Acting k₀ i) (call : IsCall input .spawn tf)
      (named : cint tf.rdi = (prog.val : Int)) :
      Move k₀ input (k₀.log (.syscall i tf)) ((k₀.log (.syscall i tf)).threadCreate (some i) prog).1
  | grantChild {k : Kernel} {i prog} (child) (acting : Acting k i)
      (created : .create child (some i) prog ∈ k.history) :
      Move k₀ input k (k.capGrantEndpoint (some i) (tid child)).1
  | grantCap {i tf} (acting : Acting k₀ i) (call : IsCall input .grantCap tf)
      (held : i = 0 ∨ (k₀.threads i).ctable.hasEndpoint (cint tf.rsi)) :
      Move k₀ input (k₀.log (.syscall i tf))
        ((k₀.log (.syscall i tf)).capGrantEndpoint (threadById (cint tf.rdi)) (cint tf.rsi)).1
  | grantIo {tf} (acting : Acting k₀ 0) (call : IsCall input .grantIo tf) :
      Move k₀ input (k₀.log (.syscall 0 tf))
        ((k₀.log (.syscall 0 tf)).capGrantIo (threadById (cint tf.rdi))
          (tf.rsi.setWidth 16) (tf.rdx.setWidth 16)).1
  | setPager {i tf} (acting : Acting k₀ i) (call : IsCall input .setPager tf) :
      Move k₀ input (k₀.log (.syscall i tf))
        ({ k₀.log (.syscall i tf) with pagerTid := tid i }.log (.setPager i))
  | irqRegister {i tf line mask} (acting : Acting k₀ i) (call : IsCall input .irqRegister tf)
      (named : cint tf.rdi = tid line) :
      Move k₀ input (k₀.log (.syscall i tf))
        ({ k₀.log (.syscall i tf) with
            irqTid := fun n => if n = line then tid i else k₀.irqTid n
            irqMask := mask }.log (.irqRegister i line))
  | exit {i tf} (acting : Acting k₀ i) (call : IsCall input .exit tf) :
      Move k₀ input (k₀.log (.syscall i tf)) ((k₀.log (.syscall i tf)).die i .exited)
  | fault {i addr} (forwards : Forwards k₀ input i addr) :
      Move k₀ input k₀ (k₀.log (.fault i addr k₀.pagerTid))
  | faultSend {i addr} (forwards : Forwards k₀ input i addr) :
      Move k₀ input (k₀.log (.fault i addr k₀.pagerTid))
        ((k₀.log (.fault i addr k₀.pagerTid)).ipcSendLocked i k₀.pagerTid (faultMsg i addr) .fault).1
  | faultRecv {k i} (junk) (acting : Acting k i) (sent : FaultSent k₀ input i k) :
      Move k₀ input k (k.ipcRecvLocked i k.pagerTid junk .fault).1
  | faultEnd {k i reply} (acting : Acting k i) (answered : FaultAnswered k₀ input i reply k) :
      Move k₀ input k (k.log (.faultEnd i reply))
  | kill {k : Kernel} {i reply older} (acting : Acting k i)
      (verdict : k.history = .faultEnd i reply :: older) (nonzero : reply.data0 ≠ 0) :
      Move k₀ input k (k.die i .killed)
  | tick (user : k₀.mode = .user) : Move k₀ input k₀ k₀.timerTick
  | irq {line : Fin 16} {tf hw} (user : k₀.mode = .user) (call : input = .trap tf hw)
      (vec : tf.vec = vecIrqBase + line.val) : Move k₀ input k₀ (k₀.irqNotify line)
  | resumeIdle (mode : k₀.mode = .resume) (current : k₀.current = none) :
      Move k₀ input k₀ { k₀ with mode := .user }
  | resumePlain {i} (mode : k₀.mode = .resume) (current : k₀.current = some i)
      (saved : (∀ c, (k₀.threads i).saved ≠ .send c) ∧ ∀ c, (k₀.threads i).saved ≠ .recv c) :
      Move k₀ input k₀ (k₀.onCpu i)
  | resumeSend {i caller} (mode : k₀.mode = .resume) (current : k₀.current = some i)
      (saved : (k₀.threads i).saved = .send caller) :
      Move k₀ input k₀ ((k₀.onCpu i).ipcSendResume i)
  | resumeRecv {i caller} (junk) (mode : k₀.mode = .resume) (current : k₀.current = some i)
      (saved : (k₀.threads i).saved = .recv caller) :
      Move k₀ input k₀ ((k₀.onCpu i).ipcRecvResume i junk).1
  | panic {k} (live : k.mode = .user) : Move k₀ input k k.panicException

abbrev Moves (k₀ : Kernel) (input : Input) : Kernel → Kernel → Prop := Relation.ReflTransGen (Move k₀ input)

section
variable {k₀ k k' : Kernel} {input : Input} {i : Slot} {e : Event}

theorem actingLog (h : Acting k i) : Acting (k.log e) i := h
theorem actingUpd {f : Thread → Thread} {j} (h : Acting k i) : Acting (k.upd j f) i := h
theorem actingMemory {memory} (h : Acting k i) : Acting { k with memory := memory } i := h

theorem actingSend {dest m caller r} (acting : Acting k i)
    (sent : k.ipcSendLocked i dest m caller = (k',some r)) : Acting k' i := by
  have outcome := ipcSendOutcome k i dest m caller
  rw [sent] at outcome
  cases outcome <;> exact acting

theorem actingRecv {src junk caller r} (acting : Acting k i)
    (received : k.ipcRecvLocked i src junk caller = (k',some r)) : Acting k' i := by
  have outcome := ipcRecvOutcome k i src junk caller
  rw [received] at outcome
  cases outcome <;> exact acting

theorem actingGrant {t target} (acting : Acting k i) : Acting (k.capGrantEndpoint t target).1 i := by
  unfold capGrantEndpoint
  cases t with
  | none => exact acting
  | some t => dsimp only; split <;> exact acting

theorem copiedSend {tf} (acting : Acting k₀ i) (call : IsCall input .send tf)
    (allowed : k₀.ipcSendAllowed i (cint tf.rdi)) : copied k₀ input = some (tf.rsi,false) := by
  obtain ⟨hw,rfl,vec,number⟩ := call
  simp [copied,acting.2,vec,number,allowed]

theorem copiedRecv {tf hw} (acting : Acting k₀ i) (vec : tf.vec = syscallVector)
    (number : Syscall.ofRax tf.rax = .recv) (returned : (k₀.received i (cint tf.rdi) hw.junk).isSome) :
    copied k₀ (.trap tf hw) = some (tf.rsi,true) := by
  simp [copied,acting.2,vec,number,returned]

theorem copiedResume {junk rsi} (current : k₀.current = some i)
    (saved : (k₀.threads i).saved = .recv (.syscall rsi)) : copied k₀ (.resume junk) = some (rsi,true) := by
  simp [copied,current,saved]

theorem movesSend {tf} (acting : Acting k₀ i) (call : IsCall input .send tf) :
    Moves k₀ input k₀ ((k₀.log (.syscall i tf)).sysSend i tf) := by
  have entered : Moves k₀ input k₀ (k₀.log (.syscall i tf)) := .single (.enter acting)
  unfold sysSend
  dsimp only
  split
  · rename_i allowed
    have opened := entered.tail (.openCall acting allowed)
    have copied := opened.tail (.copy acting (copiedSend acting call allowed))
    have acting' : Acting (((k₀.log (.syscall i tf)).openCall i (cint tf.rdi)).log (.copy i tf.rsi false)) i := acting
    split
    · exact copied.tail (.panic acting.1)
    · rename_i m _
      have called : ((((k₀.log (.syscall i tf)).openCall i (cint tf.rdi)).log
          (.copy i tf.rsi false)).threads i).ipcCallTo = cint tf.rdi := by
        simp [openCall]
      have sent := copied.tail (.send (m := m) acting called)
      split
      · rename_i k' r result
        rw [result] at sent
        exact sent.tail (.leave (actingSend acting' result))
      · rename_i k' result
        rwa [result] at sent
  · exact entered.tail (.leave acting)

theorem movesRecvFinish {rsi source m} (acting : Acting k i) (moves : Moves k₀ input k₀ k)
    (buffer : copied k₀ input = some (rsi,true)) : Moves k₀ input k₀ (k.sysRecvFinish i rsi source m) := by
  have copied := moves.tail (.copy acting buffer)
  unfold sysRecvFinish
  dsimp only
  split
  · exact copied.tail (.panic acting.1)
  · rename_i memory _
    have written := copied.tail (.memory memory)
    have closed := written.tail (.closeCall source (actingMemory (actingLog acting)))
    exact closed.tail (.leave (actingUpd (actingMemory acting)))

theorem movesRecv {tf hw} (acting : Acting k₀ i) (call : input = .trap tf hw) (vec : tf.vec = syscallVector)
    (number : Syscall.ofRax tf.rax = .recv) :
    Moves k₀ input k₀ ((k₀.log (.syscall i tf)).sysRecv i tf hw) := by
  subst call
  have entered : Moves k₀ (.trap tf hw) k₀ (k₀.log (.syscall i tf)) := .single (.enter acting)
  have acting' : Acting (k₀.log (.syscall i tf)) i := acting
  have received := entered.tail (.recv (cint tf.rdi) hw.junk tf.rsi acting')
  unfold sysRecv
  split
  · rename_i k' source m result
    have returned : k₀.received i (cint tf.rdi) hw.junk = some m := by
      have same := recvReceived (k₀.log (.syscall i tf)) i (cint tf.rdi) hw.junk (.syscall tf.rsi)
      rw [result] at same
      exact same.symm
    rw [result] at received
    exact movesRecvFinish (actingRecv acting' result) received (copiedRecv acting vec number (by simp [returned]))
  · rename_i k' result
    rwa [result] at received

theorem movesSpawn {tf} (acting : Acting k₀ i) (call : IsCall input .spawn tf) :
    Moves k₀ input k₀ ((k₀.log (.syscall i tf)).sysSpawn i tf) := by
  have entered : Moves k₀ input k₀ (k₀.log (.syscall i tf)) := .single (.enter acting)
  unfold sysSpawn procSpawn
  split
  · rename_i prog result
    split at result
    · rename_i valid
      have named : cint tf.rdi = ((cint tf.rdi).toNat : Int) := by omega
      have created := entered.tail (.create ⟨(cint tf.rdi).toNat,by omega⟩ acting call named)
      rw [result] at created
      unfold threadCreate at result
      split at result
      · rename_i child _
        cases result
        have acting' : Acting ((((k₀.log (.syscall i tf)).upd child
            (plant · ((k₀.log (.syscall i tf)).stackTop child) ⟨(cint tf.rdi).toNat,by omega⟩))).log
              (.create child (some i) ⟨(cint tf.rdi).toNat,by omega⟩)) i := acting
        have granted := created.tail (.grantChild child acting' List.mem_cons_self)
        simpa only [if_pos (tidNonneg child)] using granted.tail (.leave (actingGrant acting'))
      · cases result
        exact created.tail (.leave acting)
    · cases result
      exact entered.tail (.leave acting)

theorem movesPort {tf result} (acting : Acting k₀ i) (call : IsPortCall input tf) :
    Moves k₀ input k₀ ((k₀.log (.syscall i tf)).sysPort i tf result) := by
  have entered : Moves k₀ input k₀ (k₀.log (.syscall i tf)) := .single (.enter acting)
  unfold sysPort
  dsimp only
  split
  · rename_i held
    exact (entered.tail (.port acting call held)).tail (.leave acting)
  · exact entered.tail (.leave acting)

theorem movesMap {tf} (acting : Acting k i) (moves : Moves k₀ input k₀ k) :
    Moves k₀ input k₀ (k.sysMap i tf) := by
  unfold sysMap
  dsimp only
  split
  · exact (moves.tail (.memory _)).tail (.leave acting)
  · exact (moves.tail (.memory _)).tail (.leave acting)

theorem movesMapPhys {tf} (acting : Acting k i) (moves : Moves k₀ input k₀ k) :
    Moves k₀ input k₀ (k.sysMapPhys i tf) := by
  unfold sysMapPhys
  dsimp only
  split
  · exact moves.tail (.leave acting)
  · exact (moves.tail (.memory _)).tail (.leave acting)

theorem movesGrantIo {tf} (acting : Acting k₀ i) (call : IsCall input .grantIo tf) :
    Moves k₀ input k₀ ((k₀.log (.syscall i tf)).sysGrantIo i tf) := by
  have entered : Moves k₀ input k₀ (k₀.log (.syscall i tf)) := .single (.enter acting)
  unfold sysGrantIo
  split
  · exact entered.tail (.leave acting)
  · rename_i root
    have zero : i = 0 := tidZero.mp (by simpa using root)
    subst zero
    refine (entered.tail (.grantIo acting call)).tail (.leave ?_)
    unfold capGrantIo
    split
    · exact acting
    · dsimp only; split <;> exact acting

theorem movesIrqRegister {tf} (acting : Acting k₀ i) (call : IsCall input .irqRegister tf) :
    Moves k₀ input k₀ ((k₀.log (.syscall i tf)).sysIrqRegister i tf) := by
  have entered : Moves k₀ input k₀ (k₀.log (.syscall i tf)) := .single (.enter acting)
  unfold sysIrqRegister
  dsimp only
  split
  · rename_i valid
    have named : cint tf.rdi = tid ⟨(cint tf.rdi).toNat,by omega⟩ := by simp only [tid]; omega
    exact (entered.tail (.irqRegister acting call named)).tail (.leave acting)
  · exact entered.tail (.leave acting)

theorem movesGrantCap {tf} (acting : Acting k₀ i) (call : IsCall input .grantCap tf) :
    Moves k₀ input k₀ ((k₀.log (.syscall i tf)).sysGrantCap i tf) := by
  have entered : Moves k₀ input k₀ (k₀.log (.syscall i tf)) := .single (.enter acting)
  unfold sysGrantCap
  dsimp only
  split
  · exact entered.tail (.leave acting)
  · rename_i refused
    have held : i = 0 ∨ (k₀.threads i).ctable.hasEndpoint (cint tf.rsi) = true := by
      by_cases root : tid i = 0
      · exact .inl (tidZero.mp root)
      · right
        by_contra missing
        exact refused ⟨root,by simpa using missing⟩
    exact (entered.tail (.grantCap acting call held)).tail (.leave (actingGrant acting))

theorem movesSyscall {tf hw} (acting : Acting k₀ i) (call : input = .trap tf hw)
    (vec : tf.vec = syscallVector) : Moves k₀ input k₀ (k₀.doSyscall i tf hw) := by
  have entered : Moves k₀ input k₀ (k₀.log (.syscall i tf)) := .single (.enter acting)
  have acting' : Acting (k₀.log (.syscall i tf)) i := acting
  have is : ∀ {c}, Syscall.ofRax tf.rax = c → IsCall input c tf := fun h => ⟨hw,call,vec,h⟩
  unfold doSyscall
  dsimp only
  cases decoded : Syscall.ofRax tf.rax with
  | putc => exact entered.tail (.leave acting')
  | exit => exact entered.tail (.exit acting (is decoded))
  | gettid => exact entered.tail (.leave acting')
  | send => exact movesSend acting (is decoded)
  | recv => exact movesRecv acting call vec decoded
  | spawn => exact movesSpawn acting (is decoded)
  | map => exact movesMap acting' entered
  | setPager => exact (entered.tail (.setPager acting (is decoded))).tail (.leave acting)
  | outb => exact movesPort acting (.inl (is decoded))
  | inb => exact movesPort acting (.inr (.inl (is decoded)))
  | inw => exact movesPort acting (.inr (.inr (is decoded)))
  | grantIo => exact movesGrantIo acting (is decoded)
  | uptime => exact entered.tail (.leave acting')
  | meminfo => exact entered.tail (.leave acting')
  | tinfo => exact entered.tail (.leave acting')
  | irqRegister => exact movesIrqRegister acting (is decoded)
  | mapPhys => exact movesMapPhys acting' entered
  | grantCap => exact movesGrantCap acting (is decoded)
  | invalid => exact entered.tail (.leave acting')

theorem movesVerdict {reply} (acting : Acting k i) (moves : Moves k₀ input k₀ k)
    (answered : FaultAnswered k₀ input i reply k) : Moves k₀ input k₀ (k.faultVerdict i reply) := by
  have ended := moves.tail (.faultEnd acting answered)
  unfold faultVerdict
  dsimp only
  split
  · rename_i nonzero
    exact ended.tail (.kill (actingLog acting) rfl nonzero)
  · exact ended

theorem movesFaultRecv {junk} (acting : Acting k i) (moves : Moves k₀ input k₀ k)
    (sent : FaultSent k₀ input i k) : Moves k₀ input k₀ (k.faultRecv i junk) := by
  have received := moves.tail (.faultRecv junk acting sent)
  unfold faultRecv
  split
  · rename_i k' source reply result
    rw [result] at received
    exact movesVerdict (actingRecv acting result) received (.direct sent acting result)
  · rename_i k' result
    rwa [result] at received

theorem movesPageFault {tf hw} (user : k₀.mode = .user) (vec : tf.vec = vecPf) :
    Moves k₀ (.trap tf hw) k₀ (k₀.pageFault tf hw) := by
  unfold pageFault
  split
  · exact .single (.panic user)
  · rename_i i current
    split
    · rename_i forwarded
      have acting : Acting k₀ i := ⟨user,current⟩
      obtain ⟨⟨ring3,pager⟩,other⟩ : (fromUser tf = true ∧ 0 ≤ k₀.pagerTid) ∧ tid i ≠ k₀.pagerTid := by
        simpa using forwarded
      have forwards : Forwards k₀ (.trap tf hw) i hw.cr2 := ⟨acting,⟨tf,hw,rfl,vec,ring3,rfl⟩,pager,other⟩
      have faulted : Moves k₀ (.trap tf hw) k₀ _ := .single (.fault forwards)
      have sent := faulted.tail (.faultSend forwards)
      unfold faultForward
      dsimp only [logPagerTid]
      split
      · rename_i k' r result
        rw [result] at sent
        exact movesFaultRecv (actingSend (actingLog acting) result) sent (.direct forwards result)
      · rename_i k' result
        rwa [result] at sent
    · exact .single (.panic user)

theorem movesResume {junk} (mode : k₀.mode = .resume) : Moves k₀ (.resume junk) k₀ (k₀.resume junk) := by
  unfold resume
  split
  · rename_i current
    exact .single (.resumeIdle mode current)
  · rename_i i current
    have acting : Acting (k₀.onCpu i) i := ⟨rfl,current⟩
    dsimp only
    cases saved : (k₀.threads i).saved with
    | send caller =>
      have sent : Moves k₀ (.resume junk) k₀ _ := .single (.resumeSend mode current saved)
      cases caller with
      | syscall => exact sent.tail (.leave acting)
      | fault => exact movesFaultRecv acting sent (.resumed ⟨⟨junk,rfl⟩,mode,current⟩ saved)
    | recv caller =>
      have received : Moves k₀ (.resume junk) k₀ _ := .single (.resumeRecv junk mode current saved)
      have acting' : Acting ((k₀.onCpu i).ipcRecvResume i junk).1 i := by
        unfold ipcRecvResume; dsimp only; split <;> exact acting
      cases caller with
      | syscall rsi => exact movesRecvFinish acting' received (copiedResume current saved)
      | fault => exact movesVerdict acting' received (.resumed ⟨⟨junk,rfl⟩,mode,current⟩ saved rfl)
    | _ => exact .single (.resumePlain mode current (by simp [saved]))

theorem stepMoves (enabled : k₀.Enabled input) : Moves k₀ input k₀ (k₀.step input) := by
  cases input with
  | resume junk => exact movesResume enabled
  | store va b =>
    unfold step
    dsimp only
    split
    · exact .single (.memory _)
    · exact .refl
  | trap tf hw =>
    obtain ⟨user,kind⟩ := enabled
    simp only [step,isrHandler]
    split
    · exact .single (.tick user)
    · split
      · rename_i vec
        split
        · exact .refl
        · rename_i i current
          exact movesSyscall ⟨user,current⟩ rfl vec
      · split
        · rename_i vec
          exact movesPageFault user vec
        · split
          · exact .single (.panic user)
          · rename_i notTimer notCall notFault irqVec
            split
            · refine .single (.irq user rfl ?_)
              simp only [vecIrqBase] at *
              omega
            · exact .refl

end

/- An invariant that holds at boot and that every move keeps holds of every state
of a run, and in the middle of its steps. -/
theorem movesKeep {ok : Kernel → Input → Prop} {inv : Kernel → Prop}
    (keep : ∀ k₀ input k k', ok k₀ input → inv k₀ → Moves k₀ input k₀ k → inv k → Move k₀ input k k' → inv k')
    {k₀ input k} (meets : ok k₀ input) (holds : inv k₀) (moves : Moves k₀ input k₀ k) : inv k := by
  induction moves with
  | refl => exact holds
  | tail before move ih => exact keep k₀ input _ _ meets holds before ih move

theorem reachMoves {ok : Kernel → Input → Prop} {inv : Kernel → Prop}
    (base : ∀ memory stackBase, inv (boot memory stackBase))
    (keep : ∀ k₀ input k k', ok k₀ input → inv k₀ → Moves k₀ input k₀ k → inv k → Move k₀ input k k' → inv k')
    {k : Kernel} (h : Transition.Reach machine ok k) : inv k := by
  refine h.invariant inv ?_ ?_
  · rintro _ ⟨memory,stackBase,rfl⟩
    exact base memory stackBase
  · intro k₀ input holds enabled meets
    exact movesKeep keep meets holds (stepMoves enabled)

end Mukern
