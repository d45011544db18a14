import Mukern.Errands
import Mukern.Roles

/-! Every step of the booted system keeps to the protocol. -/
namespace Mukern
open Kernel Rendezvous

def Kernel.config (k : Kernel) (prog : Slot → Fin 12) (code : Slot → Code) : Config :=
  ⟨prog,code,fun i => face (k.threads i),k.pagerTid,k.irqTid⟩

def Booted.config (s : Booted) : Config := s.kernel.config s.prog s.code

section
variable {stray : Prop} {ok : Word → Prop} {φ : Slot → Stage} {c : Config} {k k' : Kernel} {s : Booted} {i j : Slot}
  {prog : Slot → Fin 12} {code : Slot → Code} {dest src source : Int} {m junk : IpcMsg} {mark : Option Int} {t : CTable} {next : Code}

theorem Sound.same {c' : Config} (h : Sound ok stray φ c) (prog : c'.prog = c.prog)
    (both : ∀ j, c'.code j = c.code j ∧ c'.face j = c.face j) (pager : c'.pager = c.pager) (lines : c'.lines = c.lines) :
    Sound ok stray φ c' := by
  have equal : c' = c := by
    obtain ⟨prog',code',face',pager',lines'⟩ := c'
    obtain rfl : code' = c.code := funext fun j => (both j).1
    obtain rfl : face' = c.face := funext fun j => (both j).2
    simp_all
  exact equal ▸ h

/- The kernel and the programs stand as `c` says. -/
theorem Sound.kernel (h : Sound ok stray φ c) (codes : ∀ j, code j = c.code j) (faces : ∀ j, face (k.threads j) = c.face j)
    (same : routes k = (c.pager,c.lines)) : Sound ok stray φ (k.config c.prog code) :=
  h.same rfl (fun j => ⟨codes j,faces j⟩) (congrArg Prod.fst same) (congrArg Prod.snd same)

/- A thread that gets another face only. -/
theorem putCode {f : Face} : (c.put i f (c.code i)).code j = c.code j := by
  simp only [Config.put]
  split
  · rename_i own
    rw [own]
  · rfl

theorem selfFace : c.face j = if j = i then c.face i else c.face j := by
  split
  · rename_i own
    rw [own]
  · rfl

theorem putFace {f : Face} {code : Code} : (c.put i f code).face j = if j = i then f else c.face j := rfl

/- A step puts one thread, or two, and leaves the others. -/
theorem atOne {P : Slot → Prop} (own : P i) (rest : ∀ k, k ≠ i → P k) (k : Slot) : P k := by
  by_cases same : k = i
  · exact same ▸ own
  · exact rest k same

theorem atPair {P : Slot → Prop} (own : P i) (peer : P j) (rest : ∀ k, k ≠ i → k ≠ j → P k) (k : Slot) : P k := by
  by_cases same : k = i
  · exact same ▸ own
  · exact atOne (i := j) (P := fun k => k ≠ i → P k) (fun _ => peer) (fun k third own => rest k own third) k same

/-! A thread that goes on at once. -/

/- A send that finds its receiver waiting. -/
theorem Sound.sendsNow (h : Sound ok stray φ c) {next} (live : (c.face i).presence = .live) (idle : (c.face i).wire = .idle)
    (outside : (c.face i).fault = false) (calls : c.code i = .send (tid j) m next) (other : i ≠ j) (peer : (c.face j).presence = .live)
    (receiving : (c.face j).wire = .receiving src) (accepts : src = -1 ∨ src = tid i) :
    ∃ φ', Sound ok stray φ' ((c.put i { c.face i with callTo := tid j } (next 0)).put j { c.face j with wire := .received (tid i) m } (c.code j)) := by
  have staged := h.stage live idle outside calls
  obtain ⟨φ',met⟩ := staged.meet (m := m) other (by simpa [Config.put,Ne.symm other] using ⟨live,peer⟩)
    (by simp [Config.put]) (by simpa [Config.put,Ne.symm other] using receiving) accepts
  have done := met.sent (i := i) (by simpa [Config.put,other] using live) (by simp [Config.put,other])
    (by simp [Config.put,other]) (show _ = Code.send (tid j) m next by simpa [Config.put,other] using calls)
  refine ⟨φ',done.same rfl (atPair (i := i) (j := j) ?_ ?_ fun k own peer => ?_) rfl rfl⟩
  · simp [Config.put,other,idle,outside]
  · simp [Config.put,Ne.symm other]
  · simp [Config.put,own,peer]

/- A receive that finds a sender waiting. -/
theorem Sound.receivesNow (h : Sound ok stray φ c) {next} (callTo : Int) (live : (c.face i).presence = .live) (idle : (c.face i).wire = .idle)
    (outside : (c.face i).fault = false) (calls : c.code i = .recv src mark next) (other : j ≠ i) (peer : (c.face j).presence = .live)
    (sending : (c.face j).wire = .sending (tid i) m) (accepts : src = -1 ∨ src = tid j) :
    ∃ φ', Sound ok stray φ' ((c.put j { c.face j with wire := .sent } (c.code j)).put i { c.face i with callTo := callTo } (next (tid j) m)) := by
  have awaiting := h.await live idle outside calls
  obtain ⟨φ',met⟩ := awaiting.meet (m := m) other (by simpa [Config.put,other] using ⟨peer,live⟩)
    (by simpa [Config.put,other] using sending) (by simp [Config.put]) accepts
  have done := met.got (i := i) (m := m) callTo (by simpa [Config.put] using live) (show _ = Phase.received (tid j) m by simp [Config.put])
    (by simp [Config.put]) (show _ = Code.recv src mark next by simpa [Config.put] using calls)
  refine ⟨φ',done.same rfl (atPair (i := i) (j := j) ?_ ?_ fun k own peer => ?_) rfl rfl⟩
  · simp [Config.put,idle,outside]
  · simp [Config.put,other]
  · simp [Config.put,own,peer]

/- A receive that finds an interrupt pending. -/
theorem Sound.signalledNow (h : Sound ok stray φ c) {next} (callTo : Int) (junk : IpcMsg) (n : Nat) (live : (c.face i).presence = .live) (idle : (c.face i).wire = .idle)
    (outside : (c.face i).fault = false) (calls : c.code i = .recv src mark next) (pending : (c.face i).pending ≠ 0) :
    Sound ok stray φ (c.put i { c.face i with callTo := callTo, pending := n } (next ipcIrqSender (irqMsg junk))) := by
  have awaiting := h.await live idle outside calls
  have done := awaiting.signal (i := i) callTo junk n (by simpa [Config.put] using live) (show _ = Phase.receiving src by simp [Config.put])
    (by simp [Config.put]) (show _ = Code.recv src mark next by simpa [Config.put] using calls) (by simpa [Config.put] using pending)
  refine done.same rfl (atOne (i := i) ?_ fun k own => ?_) rfl rfl
  · simp [Config.put,idle,outside]
  · simp [Config.put,own]

/- Init's page fault reaches a pager that waits. -/
theorem Sound.faultsNow (h : Sound ok stray φ c) {va next} (live : (c.face i).presence = .live) (idle : (c.face i).wire = .idle)
    (outside : (c.face i).fault = false) (calls : c.code i = .store va next)
    (receiving : (c.face 3).wire = .receiving src) (accepts : src = -1 ∨ src = tid i) :
    ∃ φ', Sound ok stray φ' ((c.put i { c.face i with wire := .sent, fault := true } (c.code i)).put 3
      { c.face 3 with wire := .received (tid i) (faultMsg i va) } (c.code 3)) := by
  obtain ⟨_,root,up,faulting⟩ := h.faults live idle outside calls
  have other : i ≠ 3 := by
    rw [root]
    decide
  obtain ⟨φ',met⟩ := faulting.meet (m := faultMsg i va) other (by simpa [Config.put,Ne.symm other] using ⟨live,up⟩)
    (by simp [Config.put]) (by simpa [Config.put,Ne.symm other] using receiving) accepts
  refine ⟨φ',met.same rfl (atPair (i := i) (j := 3) ?_ ?_ fun k own peer => ?_) rfl rfl⟩
  · simp [Config.put,other]
  · simp [Config.put,Ne.symm other]
  · simp [Config.put,own,peer]

/- The pager answers while init asks for the answer. -/
theorem Sound.answersNow (h : Sound ok stray φ c) (live : (c.face i).presence = .live) (fault : (c.face i).fault = true)
    (sent : (c.face i).wire = .sent) (peer : (c.face 3).presence = .live) (sending : (c.face 3).wire = .sending (tid i) m) :
    m.data0 = 0 ∧ ∃ φ', Sound ok stray φ' ((c.put 3 { c.face 3 with wire := .sent } (c.code 3)).put i
      { c.face i with wire := .idle, fault := false } (c.code i)) := by
  have other : 3 ≠ i := by
    rw [(h.faultQuiet live fault).1]
    decide
  obtain ⟨_,awaiting⟩ := h.faultAwait live fault sent
  obtain ⟨φ',met⟩ := awaiting.meet (m := m) other (by simpa [Config.put,other] using ⟨peer,live⟩)
    (by simpa [Config.put,other] using sending) (show _ = Phase.receiving (tid 3) by simp [Config.put]) (.inr rfl)
  obtain ⟨pardon,done⟩ := met.faultDone (i := i) (m := m) (by simpa [Config.put] using live) (by simp [Config.put])
    (show _ = Phase.received (tid 3) m by simp [Config.put])
  refine ⟨pardon,φ',done.same rfl (atPair (i := i) (j := 3) ?_ ?_ fun k own peer => ?_) rfl rfl⟩
  · simp [Config.put]
  · simp [Config.put,other]
  · simp [Config.put,own,peer]

/-! The page-fault path of the kernel. -/

theorem faceQuiet {f : Face} (idle : f.wire = .idle) (outside : f.fault = false) : { f with wire := .idle, fault := false } = f := by
  obtain ⟨⟩ := f
  cases idle
  cases outside
  rfl

/- Thread `i` has sent its fault message and is on the CPU again. -/
theorem faultRecvSound (h : Sound ok stray φ c) (coherent : Coherent k) (acting : Acting k i) (live : (c.face i).presence = .live)
    (fault : (c.face i).fault = true) (sent : (c.face i).wire = .sent)
    (faces : ∀ j, face (k.threads j) = if j = i then { c.face i with wire := .idle, fault := false } else c.face j)
    (codes : ∀ j, code j = c.code j) (same : routes k = (c.pager,c.lines)) :
    ∃ φ', Sound ok stray φ' ((k.faultRecv i junk).config c.prog code) := by
  obtain ⟨up,awaiting⟩ := h.faultAwait live fault sent
  obtain ⟨root,quiet⟩ := h.faultQuiet live fault
  have pager : k.pagerTid = tid 3 := (congrArg Prod.fst same).trans up
  have effect := recvEffect coherent acting k.pagerTid junk .fault
  have routed : routes (k.ipcRecvLocked i k.pagerTid junk .fault).1 = routes k := routesRecv
  unfold faultRecv
  generalize k.ipcRecvLocked i k.pagerTid junk .fault = result at effect routed
  obtain ⟨k',answer⟩ := result
  cases effect with
  | irq pending =>
    have none : (k.threads i).irqPending = 0 := by
      have own := congrArg Face.pending (faces i)
      rw [if_pos rfl] at own
      exact own.trans quiet
    exact absurd none pending
  | taken snd waiting faces' =>
    obtain ⟨blocked,_,sending,accepts⟩ := wireWaiting coherent waiting
    have third : snd = 3 := by
      rw [pager] at accepts
      obtain any | named := accepts
      · exact absurd any (tidNotAny 3)
      · exact (tidInj named).symm
    subst third
    have other : (3 : Slot) ≠ i := by
      rw [root]
      decide
    have peer := faces 3
    rw [if_neg other] at peer
    obtain ⟨pardon,φ',done⟩ := h.answersNow (m := (k.threads 3).ipcBuf) live fault sent
      (by rw [← peer]; exact faceBlocked blocked) (by rw [← peer]; exact sending)
    have verdict : k'.faultVerdict i (k.threads 3).ipcBuf = k'.log (.faultEnd i (k.threads 3).ipcBuf) := by
      simp [faultVerdict,pardon]
    dsimp only
    rw [verdict]
    refine ⟨φ',done.kernel (fun j => (codes j).trans ?_) (fun j => (faces' j).trans ?_) (routed.trans same)⟩
    · revert j
      refine atPair (i := i) (j := 3) ?_ ?_ fun j own third => ?_
      · simp [Config.put]
      · simp [Config.put,other]
      · simp [Config.put,own,third]
    · revert j
      refine atPair (i := i) (j := 3) ?_ ?_ fun j own third => ?_
      · rw [if_neg (Ne.symm other),faces,if_pos rfl]
        simp [Config.put]
      · rw [if_pos rfl,peer]
        simp [Config.put,other]
      · rw [if_neg third,faces,if_neg own]
        simp [Config.put,own,third]
  | awaits faces' =>
    dsimp only
    refine ⟨φ,awaiting.kernel (fun j => (codes j).trans ?_) (fun j => (faces' j).trans ?_) (routed.trans same)⟩
    · revert j
      refine atOne (i := i) ?_ fun j own => ?_
      · simp [Config.put]
      · simp [Config.put,own]
    · revert j
      refine atOne (i := i) ?_ fun j own => ?_
      · rw [if_pos rfl,faces,if_pos rfl,pager]
        simp [Config.put,RecvCaller.faults]
      · rw [if_neg own,faces,if_neg own]
        simp [Config.put,own]

theorem pageFaultSound (h : Sound ok stray φ (k.config prog code)) (coherent : Coherent k) (acting : Acting k i) {ptr va next}
    (calls : code i = .store va next) :
    ∃ φ', Sound ok stray φ' ((k.pageFault ((Code.store va next).regs ptr) ⟨va,0,junk⟩).config prog code) := by
  obtain ⟨idle,outside,live⟩ := faceActing coherent acting
  obtain ⟨up,root,present,faulting⟩ := h.faults live idle outside calls
  have pager : k.pagerTid = tid 3 := up
  have other : i ≠ 3 := by
    rw [root]
    decide
  have forwarded : k.pageFault ((Code.store va next).regs ptr) ⟨va,0,junk⟩ = k.faultForward i ⟨va,0,junk⟩ := by
    unfold pageFault
    rw [acting.2]
    dsimp only
    rw [pager,if_pos]
    have nonneg : (0 : Int) ≤ tid 3 := by decide
    simp [fromUser,Code.regs,Input.userCs,nonneg,other]
  rw [forwarded]
  let k₁ := k.log (.fault i va k.pagerTid)
  have coherent₁ : Coherent k₁ := coherent.log _
  have acting₁ : Acting k₁ i := acting
  have effect := sendEffect coherent₁ acting₁ k.pagerTid (faultMsg i va) .fault
  have routed : routes (k₁.ipcSendLocked i k.pagerTid (faultMsg i va) .fault).1 = routes k := routesSend
  have kept : Coherent (k₁.ipcSendLocked i k.pagerTid (faultMsg i va) .fault).1 := sendCoherent coherent₁ acting₁
  have works : ∀ r, (k₁.ipcSendLocked i k.pagerTid (faultMsg i va) .fault).2 = some r →
      Acting (k₁.ipcSendLocked i k.pagerTid (faultMsg i va) .fault).1 i :=
    fun r returned => actingSend acting₁ (Prod.ext rfl returned)
  unfold faultForward
  dsimp only
  have logged : k.log (.fault i va k.pagerTid) = k₁ := rfl
  have same : k₁.pagerTid = k.pagerTid := rfl
  rw [logged,same]
  generalize k₁.ipcSendLocked i k.pagerTid (faultMsg i va) .fault = result at effect routed kept works
  obtain ⟨k',answer⟩ := result
  cases effect with
  | refused nobody => exact absurd present (presenceGone.mp (nobody 3 pager))
  | met d named ready faces =>
    obtain rfl : d = 3 := tidInj (named.symm.trans pager)
    obtain ⟨blocked,_,receiving,accepts⟩ := wireReady coherent₁ ready
    obtain ⟨φ',met⟩ := h.faultsNow live idle outside calls receiving accepts
    refine faultRecvSound met kept (works 0 rfl) (by simp only [Config.put,if_neg other,if_true]; exact live)
      (by simp [Config.put,other]) (by simp [Config.put,other]) (fun j => (faces j).trans ?_) (fun j => ?_) routed
    · revert j
      refine atPair (i := i) (j := 3) ?_ ?_ fun j own third => ?_
      · simp only [Config.put,if_neg other,if_true]
        exact (faceQuiet idle outside).symm
      · simp only [Config.put,if_neg (Ne.symm other),if_true]
        rfl
      · simp only [Config.put,if_neg own,if_neg third]
        rfl
    · simp only [Config.put]
      split
      · rename_i third
        rw [third]
        rfl
      · split
        · rename_i own
          rw [own]
          rfl
        · rfl
  | staged d named faces =>
    obtain rfl : d = 3 := tidInj (named.symm.trans pager)
    refine ⟨φ,faulting.kernel (fun j => (putCode (c := k.config prog code)).symm) (fun j => (faces j).trans ?_) routed⟩
    · revert j
      refine atOne (i := i) ?_ fun j own => ?_
      · simp only [Config.put,if_true]
        rw [pager]
        rfl
      · simp only [Config.put,if_neg own]
        rfl

/-! The calls of a program. -/

@[simp] theorem cintTid {d : Slot} : cint (cword (tid d)) = tid d := by
  revert d
  decide

theorem Sends.named {p a b refused} (sends : Sends ok p a dest m b refused) : ∃ d, dest = tid d := by
  cases sends with
  | announce => exact ⟨0,rfl⟩
  | vputs => exact ⟨6,rfl⟩
  | probe => exact ⟨2,rfl⟩
  | _ => exact ⟨_,rfl⟩

theorem Listens.named {p a} (listens : Listens p a src mark) : cint (cword src) = src := by
  cases listens with
  | told | unborn | expect | park | parked | serve => decide
  | _ => exact cintTid

theorem sendDenied {tf : Trapframe} (denied : k.ipcSendAllowed i (cint tf.rdi) = false) :
    k.sendValue i tf m = ((k.log (.syscall i tf)).sysRet i (cword (-1)),some (-1)) :=
  if_neg (by rw [show (k.log (.syscall i tf)).ipcSendAllowed i (cint tf.rdi) = false from denied]; decide)

theorem sendAdmitted {tf : Trapframe} (allowed : k.ipcSendAllowed i (cint tf.rdi)) :
    k.sendValue i tf m = match (((k.log (.syscall i tf)).openCall i (cint tf.rdi)).log (.copy i tf.rsi false)).ipcSendLocked i (cint tf.rdi) m .syscall with
      | (k,some r) => (k.sysRet i (cword r),some r)
      | (k,none) => (k,none) := if_pos allowed

theorem deniedAdmits (denied : k.ipcSendAllowed i dest = false) : ¬ (k.config prog code).Admits i dest := by
  rintro ⟨d,rfl,_,grounds⟩
  have never : ¬ k.ipcSendAllowed i (tid d) = true := by simp [denied]
  rw [sendAllowedIff] at never
  obtain root | root | held | called := grounds
  · exact never (.inl root)
  · exact never (.inr (.inl (tidZero.mpr root)))
  · exact never (.inr (.inr (.inl held)))
  · exact never (.inr (.inr (.inr ⟨d,rfl,.inl called⟩)))

theorem callSend (h : Sound ok stray φ s.config) (coherent : Coherent s.kernel) (acting : Acting s.kernel i) {named ptr next}
    (calls : s.code i = .send dest m next) (straight : stray ∨ ¬ Astray (s.prog i) dest) :
    ∃ φ', Sound ok stray φ' (s.call named i ptr junk).config := by
  obtain ⟨idle,outside,live⟩ := faceActing coherent acting
  have conforms := h.ready live idle outside
  rw [show s.config.code i = _ from calls] at conforms
  obtain ⟨taken,refused,sends,_⟩ := conforms
  obtain ⟨d,rfl⟩ := sends.named
  unfold Booted.call
  dsimp only
  rw [calls]
  dsimp only
  have rdi : cint ((Code.send (tid d) m next).regs ptr).rdi = tid d := cintTid
  generalize (Code.send (tid d) m next).regs ptr = tf at rdi
  cases allowed : s.kernel.ipcSendAllowed i (tid d) with
  | false =>
    rw [sendDenied (by rw [rdi]; exact allowed)]
    obtain ⟨φ',done⟩ := h.denied (s.kernel.threads i).ipcCallTo live idle outside calls (deniedAdmits allowed) straight
    exact ⟨φ',done.kernel (fun j => rfl) (fun j => selfFace (c := s.config)) rfl⟩
  | true =>
    rw [sendAdmitted (by rw [rdi]; exact allowed),rdi]
    let k₁ := ((s.kernel.log (.syscall i tf)).openCall i (tid d)).log (.copy i tf.rsi false)
    have coherent₁ : Coherent k₁ := 
      (((coherent.log _).quietUpd (f := ({ · with ipcCallTo := tid d })) fun _ => rfl).log _).log _
    have acting₁ : Acting k₁ i := acting
    have opened : ∀ j, face (k₁.threads j) = if j = i then { face (s.kernel.threads i) with callTo := tid d } else face (s.kernel.threads j) :=
      fun j => faceOpen
    have effect := sendEffect coherent₁ acting₁ (tid d) m .syscall
    have routed : routes (k₁.ipcSendLocked i (tid d) m .syscall).1 = routes s.kernel := routesSend
    change ∃ φ', Sound ok stray φ' (Booted.config (match (match k₁.ipcSendLocked i (tid d) m .syscall with
      | (k,some r) => (k.sysRet i (cword r),some r)
      | (k,none) => (k,none)) with
      | (k,some r) => { s with kernel := k }.goOn i (next r)
      | (k,none) => { s with kernel := k }))
    generalize k₁.ipcSendLocked i (tid d) m .syscall = result at effect routed
    obtain ⟨k',answer⟩ := result
    cases effect with
    | refused nobody faces =>
      have gone : ¬ s.config.Admits i (tid d) := by
        rintro ⟨e,same,present,_⟩
        refine presenceGone.mp (nobody e same) ((congrArg Face.presence (opened e)).trans ?_)
        split
        · rename_i own
          subst own
          exact present
        · exact present
      obtain ⟨φ',done⟩ := h.denied (tid d) live idle outside calls gone straight
      exact ⟨φ',done.kernel (fun j => rfl) (fun j => (faces j).trans (opened j)) routed⟩
    | met e same ready faces =>
      obtain rfl := tidInj same
      obtain ⟨blocked,_,receiving,accepts⟩ := wireReady coherent₁ ready
      have other : i ≠ d := by
        rintro rfl
        cases blocked.symm.trans (acting₁.state coherent₁)
      have peer := opened d
      rw [if_neg (Ne.symm other)] at peer
      obtain ⟨φ',done⟩ := h.sendsNow live idle outside calls other ((congrArg Face.presence peer).symm.trans (faceBlocked blocked))
        ((congrArg Face.wire peer).symm.trans receiving) accepts
      refine ⟨φ',done.kernel (fun j => ?_) (fun j => (faces j).trans ?_) routed⟩
      · simp only [Booted.goOn,Config.put]
        split
        · rename_i own
          rw [own,if_neg other]
        · split
          · rename_i third
            rw [third]
            rfl
          · rfl
      · rw [putFace]
        split
        · rw [peer]
          rfl
        · exact opened j
    | staged e same faces =>
      obtain rfl := tidInj same
      refine ⟨φ,(h.stage live idle outside calls).kernel (fun j => (putCode (c := s.config)).symm) (fun j => (faces j).trans ?_) routed⟩
      · rw [putFace]
        split
        · rw [opened i,if_pos rfl]
          rfl
        · rename_i own
          exact (opened j).trans (if_neg own)

theorem callRecv (h : Sound ok stray φ s.config) (coherent : Coherent s.kernel) (acting : Acting s.kernel i) {named ptr next}
    (calls : s.code i = .recv src mark next) : ∃ φ', Sound ok stray φ' (s.call named i ptr junk).config := by
  obtain ⟨idle,outside,live⟩ := faceActing coherent acting
  have conforms := h.ready live idle outside
  rw [show s.config.code i = _ from calls] at conforms
  have specific : cint (cword src) = src := conforms.1.named
  unfold Booted.call
  dsimp only
  rw [calls]
  dsimp only
  have rdi : cint ((Code.recv src mark next).regs ptr).rdi = src := specific
  generalize (Code.recv src mark next).regs ptr = tf at rdi
  unfold recvValue
  rw [rdi]
  have coherent₁ : Coherent (s.kernel.log (.syscall i tf)) := coherent.log _
  have acting₁ : Acting (s.kernel.log (.syscall i tf)) i := acting
  have effect := recvEffect coherent₁ acting₁ src junk (.syscall tf.rsi)
  have routed : routes ((s.kernel.log (.syscall i tf)).ipcRecvLocked i src junk (.syscall tf.rsi)).1 = routes s.kernel := routesRecv
  generalize (s.kernel.log (.syscall i tf)).ipcRecvLocked i src junk (.syscall tf.rsi) = result at effect routed
  obtain ⟨k',answer⟩ := result
  cases effect with
  | irq pending faces =>
    dsimp only
    obtain ⟨callTo,returned⟩ := faceReturn (k := k') (i := i) tf.rsi ipcIrqSender
    have done := h.signalledNow callTo junk ((s.kernel.threads i).irqPending - 1) live idle outside calls pending
    refine ⟨φ,done.kernel (fun j => rfl) (fun j => (returned j).trans ?_) routed⟩
    rw [putFace]
    split
    · rw [faces i,if_pos rfl]
      rfl
    · rename_i other
      exact (faces j).trans (if_neg other)
  | taken snd waiting faces =>
    dsimp only
    obtain ⟨blocked,_,sending,accepts⟩ := wireWaiting coherent₁ waiting
    have other : snd ≠ i := by
      rintro rfl
      cases blocked.symm.trans (acting₁.state coherent₁)
    obtain ⟨callTo,returned⟩ := faceReturn (k := k') (i := i) tf.rsi (tid snd)
    obtain ⟨φ',done⟩ := h.receivesNow callTo live idle outside calls other (faceBlocked blocked) sending accepts
    refine ⟨φ',done.kernel (fun j => ?_) (fun j => (returned j).trans ?_) routed⟩
    · exact ite_congr rfl (fun _ => rfl) fun _ => (putCode (c := s.config)).symm
    · rw [putFace,putFace]
      split
      · rw [faces i,if_neg (Ne.symm other)]
        rfl
      · exact faces j
  | awaits faces =>
    dsimp only
    exact ⟨φ,(h.await live idle outside calls).kernel (fun j => (putCode (c := s.config)).symm) faces routed⟩

/- A call that leaves every thread and the routes as they are. -/
theorem callQuiet (k' : Kernel) (h : Sound ok stray φ s.config) (coherent : Coherent s.kernel) (acting : Acting s.kernel i) {next : Code}
    (conforms : next.Conforms ok (s.prog i) (φ i)) (threads : k'.threads = s.kernel.threads) (same : routes k' = routes s.kernel) :
    Sound ok stray φ ({ s with kernel := k' }.goOn i next).config := by
  obtain ⟨idle,outside,live⟩ := faceActing coherent acting
  exact (h.goOn idle outside conforms).kernel (fun j => rfl) (fun j => (congrArg face (congrFun threads j)).trans (selfFace (c := s.config))) same

theorem callReady (h : Sound ok stray φ s.config) (coherent : Coherent s.kernel) (acting : Acting s.kernel i) {code : Code}
    (calls : s.code i = code) : code.Conforms ok (s.prog i) (φ i) := by
  obtain ⟨idle,outside,live⟩ := faceActing coherent acting
  have conforms := h.ready live idle outside
  rwa [show s.config.code i = _ from calls] at conforms

theorem callExit (h : Sound ok stray φ s.config) (coherent : Coherent s.kernel) (acting : Acting s.kernel i) {named ptr}
    (calls : s.code i = .exit) : ∃ φ', Sound ok stray φ' (s.call named i ptr junk).config := by
  obtain ⟨idle,outside,live⟩ := faceActing coherent acting
  obtain ⟨φ',done⟩ := h.exits live idle outside calls
  unfold Booted.call
  dsimp only
  rw [calls]
  refine ⟨φ',done.kernel (fun j => (putCode (c := s.config)).symm) (fun j => ?_) routesSchedule⟩
  exact faceDie (k := s.kernel.log (.syscall i (Code.exit.regs ptr))) acting (.inl rfl)

theorem callSetPager (h : Sound ok stray φ s.config) (coherent : Coherent s.kernel) (acting : Acting s.kernel i) {named ptr next}
    (calls : s.code i = .setPager next) : ∃ φ', Sound ok stray φ' (s.call named i ptr junk).config := by
  obtain ⟨idle,outside,live⟩ := faceActing coherent acting
  obtain ⟨φ',done⟩ := h.setPager live idle outside calls
  unfold Booted.call
  dsimp only
  rw [calls]
  exact ⟨φ',done.kernel (fun j => rfl) (fun j => selfFace (c := s.config)) rfl⟩

theorem irqRegisters {line : Fin 16} {tf : Trapframe} (named : cint tf.rdi = tid line) : k.sysIrqRegister i tf =
    ({ k with
      irqTid := fun n => if n = line then tid i else k.irqTid n
      irqMask := k.irqMask &&& ~~~((1 : BitVec 16) <<< line.val) }.log (.irqRegister i line)).sysRet i 0 := by
  have inside : 0 ≤ cint tf.rdi ∧ cint tf.rdi < 16 := by
    rw [named,tid]
    omega
  have same : (⟨(cint tf.rdi).toNat,by omega⟩ : Fin 16) = line := Fin.ext (by simp [named,tid])
  unfold sysIrqRegister
  dsimp only
  rw [dif_pos inside,same,show (cint tf.rdi).toNat = line.val from congrArg Fin.val same]

theorem callIrqRegister (h : Sound ok stray φ s.config) (coherent : Coherent s.kernel) (acting : Acting s.kernel i) {named ptr line next}
    (calls : s.code i = .irqRegister line next) : ∃ φ', Sound ok stray φ' (s.call named i ptr junk).config := by
  obtain ⟨idle,outside,live⟩ := faceActing coherent acting
  have done := h.irqRegister live idle outside calls
  have number : ∀ line : Fin 16, cint (BitVec.ofNat 64 line.val) = tid line := by decide
  have registered : s.kernel.doSyscall i ((Code.irqRegister line next).regs ptr) ⟨0,0,junk⟩ = _ :=
    irqRegisters (k := s.kernel.log _) (number line)
  unfold Booted.call
  dsimp only
  rw [calls]
  dsimp only
  rw [registered]
  exact ⟨φ,done.kernel (fun j => rfl) (fun j => selfFace (c := s.config)) rfl⟩

/- `cap_grant_*` for the thread that the first argument names. -/
theorem grantsIo {child : Slot} {tf : Trapframe} (named : cint tf.rdi = tid child) : k.sysGrantIo 0 tf =
    (k.capGrantIo (some child) (tf.rsi.setWidth 16) (tf.rdx.setWidth 16)).1.sysRet 0
      (cword (k.capGrantIo (some child) (tf.rsi.setWidth 16) (tf.rdx.setWidth 16)).2) := by
  have found : threadById (cint tf.rdi) = some child := threadByIdSome.mpr named
  unfold sysGrantIo
  rw [if_neg (by decide),found]

theorem grantsCap {child e : Slot} {tf : Trapframe} (named : cint tf.rdi = tid child) (target : cint tf.rsi = tid e)
    (held : i = 0 ∨ (k.threads i).ctable.hasEndpoint (tid e)) : k.sysGrantCap i tf =
    (k.capGrantEndpoint (some child) (tid e)).1.sysRet i (cword (k.capGrantEndpoint (some child) (tid e)).2) := by
  have found : threadById (cint tf.rdi) = some child := threadByIdSome.mpr named
  have may : ¬ (tid i ≠ 0 ∧ ¬ (k.threads i).ctable.hasEndpoint (tid e) = true) := by
    rintro ⟨user,lacks⟩
    exact held.elim (fun root => user (tidZero.mpr root)) lacks
  unfold sysGrantCap
  dsimp only
  rw [target,if_neg may,found]

/- `SYS_GRANT_CAP` of a capability for `e` to `child`, by a caller that may grant it. -/
theorem callsGrantCap {child e : Slot} {ptr : Word} {next : Code} (held : i = 0 ∨ (k.threads i).ctable.hasEndpoint (tid e)) :
    let entered := k.log (.syscall i ((Code.grantCap (tid child) (tid e) next).regs ptr))
    k.doSyscall i ((Code.grantCap (tid child) (tid e) next).regs ptr) ⟨0,0,junk⟩ =
      (entered.capGrantEndpoint (some child) (tid e)).1.sysRet i (cword (entered.capGrantEndpoint (some child) (tid e)).2) := by
  intro entered
  change entered.sysGrantCap i ((Code.grantCap (tid child) (tid e) next).regs ptr) = _
  exact grantsCap (k := entered) (show cint _ = tid child from cintTid) (show cint _ = tid e from cintTid) held

/- A grant writes the table of the child only. -/
theorem callGrants (h : Sound ok stray φ ((s.config.endow j t).put i (s.config.face i) next)) (other : i ≠ j)
    (faces : ∀ e, face (k'.threads e) = if e = j then { face (s.kernel.threads j) with table := t } else face (s.kernel.threads e))
    (same : routes k' = routes s.kernel) : Sound ok stray φ ({ s with kernel := k' }.goOn i next).config := by
  refine h.kernel (fun e => rfl) (fun e => (faces e).trans ?_) same
  rw [putFace]
  split
  · rename_i child
    subst child
    rw [if_neg (Ne.symm other)]
    exact (if_pos rfl).symm
  · split
    · rename_i own
      rw [own]
      rfl
    · exact (if_neg (by assumption)).symm

theorem callGrantIo (h : Sound ok stray φ s.config) (coherent : Coherent s.kernel) (acting : Acting s.kernel i) {named ptr next}
    {t : Int} {base len : BitVec 16}
    (calls : s.code i = .grantIo t base len next) : ∃ φ', Sound ok stray φ' (s.call named i ptr junk).config := by
  obtain ⟨idle,outside,live⟩ := faceActing coherent acting
  obtain ⟨n,child,table,stage,rfl,go⟩ := callReady h coherent acting calls
  obtain ⟨rfl,rfl,other,done⟩ := h.grants idle outside stage go
  have granted : s.kernel.doSyscall 0 ((Code.grantIo (tid child) base len next).regs ptr) ⟨0,0,junk⟩ = _ :=
    grantsIo (k := s.kernel.log _) (show cint _ = tid child from cintTid)
  unfold Booted.call
  dsimp only
  rw [calls]
  dsimp only
  rw [granted]
  refine ⟨_,callGrants done other (fun e => ?_) routesGrantIo⟩
  have low : ∀ b : BitVec 16, (b.setWidth 64).setWidth 16 = b := fun b => by simp
  have granting : ∀ base' len', face (((s.kernel.log (.syscall 0 ((Code.grantIo (tid child) base len next).regs ptr))).capGrantIo
      (some child) base' len').1.threads e) = _ := fun base' len' => faceGrantIo
  refine (granting ((base.setWidth 64).setWidth 16) ((len.setWidth 64).setWidth 16)).trans ?_
  rw [low,low]
  rfl

theorem callGrantCap (h : Sound ok stray φ s.config) (coherent : Coherent s.kernel) (acting : Acting s.kernel i) {named ptr next}
    {t ep : Int} (calls : s.code i = .grantCap t ep next) : ∃ φ', Sound ok stray φ' (s.call named i ptr junk).config := by
  obtain ⟨idle,outside,live⟩ := faceActing coherent acting
  unfold Booted.call
  dsimp only
  rw [calls]
  dsimp only
  have writes : ∀ {child e : Slot} {tf : Trapframe}, ∀ j, face (((s.kernel.log (.syscall i tf)).capGrantEndpoint (some child) (tid e)).1.threads j) =
      if j = child then { face (s.kernel.threads child) with table := ((s.kernel.threads child).ctable.grantEndpoint (tid e)).1 }
      else face (s.kernel.threads j) := fun j => faceGrant (k := s.kernel.log _)
  obtain ⟨n,child,table,e,stage,rfl,rfl,go⟩ | ⟨y,child,stage,rfl,rfl,go⟩ := callReady h coherent acting calls
  · obtain ⟨rfl,rfl,other,done⟩ := h.grants idle outside stage go
    rw [callsGrantCap (.inl rfl)]
    exact ⟨_,callGrants done other writes routesGrant⟩
  · have prints : ((s.kernel.threads child).ctable.grantEndpoint (tid 1)).1.hasEndpoint 1 := by
      have raised := h.pact.children i child (by rw [stage]; rfl)
      rw [stage] at raised
      have clear : (s.kernel.threads child).ctable = capClear := raised.2
      rw [clear]
      decide
    obtain ⟨held,other,done⟩ := h.enables idle outside stage prints go
    change ∃ φ', Sound ok stray φ' ({ s with kernel := s.kernel.doSyscall i ((Code.grantCap (tid child) (tid 1) next).regs ptr) ⟨0,0,junk⟩ }.goOn i next).config
    rw [callsGrantCap (.inr held)]
    exact ⟨_,callGrants done other writes routesGrant⟩

/-! Creation. -/

theorem freeThreadFirst {c : Slot} (free : k.freeThread = some c) : presence (k.threads c) ≠ .live ∧ ∀ j < c, presence (k.threads j) = .live := by
  refine ⟨presenceGone.mp (freeThreadDead free),fun j before => not_not.mp fun gone => ?_⟩
  unfold freeThread at free
  obtain ⟨_,front,back,slots,taken⟩ := List.find?_eq_some_iff_append.mp free
  have sorted : (front ++ c :: back).Pairwise (· < ·) := slots ▸ List.pairwise_lt_finRange 16
  have member : j ∈ front ++ c :: back := slots ▸ List.mem_finRange j
  obtain early | late := List.mem_append.mp member
  · have busy := taken j early
    have idle := presenceGone.mpr gone
    simp only [Gone] at idle
    simp at busy
    exact idle.elim busy.1 busy.2
  · have after := (List.pairwise_cons.mp (List.pairwise_append.mp sorted).2.1).1
    obtain rfl | behind := List.mem_cons.mp late
    · exact absurd before (lt_irrefl _)
    · exact absurd (after j behind) (not_lt.mpr (le_of_lt before))

theorem freeThreadFull (free : k.freeThread = none) (j : Slot) : presence (k.threads j) = .live := by
  unfold freeThread at free
  have busy := List.find?_eq_none.mp free j (List.mem_finRange j)
  exact not_not.mp fun gone => busy (by simpa [Gone] using presenceGone.mpr gone)

theorem progByIdVal {p : Fin 12} : progById p.val = some p := by
  revert p
  decide

/- `sys_spawn` plants the child and gives its parent a capability for it. -/
theorem spawnsChild {child : Slot} {p : Fin 12} {tf : Trapframe} (named : cint tf.rdi = p.val) (free : k.freeThread = some child) :
    (k.procSpawn (some i) (cint tf.rdi)).2 = tid child ∧ routes (k.sysSpawn i tf) = routes k ∧
      (i ≠ child → ∀ j, face ((k.sysSpawn i tf).threads j) = if j = child then Face.born
        else if j = i then { face (k.threads i) with table := ((k.threads i).ctable.grantEndpoint (tid child)).1 } else face (k.threads j)) := by
  have inside : 0 ≤ cint tf.rdi ∧ cint tf.rdi < 12 := by omega
  have same : (⟨(cint tf.rdi).toNat,by omega⟩ : Fin 12) = p := Fin.ext (by simp [named])
  have planted : k.procSpawn (some i) (cint tf.rdi) = k.threadCreate (some i) p := by
    unfold procSpawn
    rw [dif_pos inside,same]
  have result : (k.threadCreate (some i) p).2 = tid child := by
    unfold threadCreate
    rw [free]
  have spawned : k.sysSpawn i tf = ((k.threadCreate (some i) p).1.capGrantEndpoint (some i) (tid child)).1.sysRet i (cword (tid child)) := by
    unfold sysSpawn
    dsimp only
    rw [planted,result,if_pos (tidNonneg child)]
  refine ⟨by rw [planted,result],?_,fun other j => ?_⟩
  · rw [spawned]
    refine (routesGrant (k := (k.threadCreate (some i) p).1)).trans ?_
    unfold threadCreate
    rw [free]
    rfl
  · rw [spawned]
    have granting : face (((k.threadCreate (some i) p).1.capGrantEndpoint (some i) (tid child)).1.threads j) = _ := faceGrant
    refine granting.trans ?_
    have plants : ∀ j, face ((k.threadCreate (some i) p).1.threads j) = if j = child then Face.born else face (k.threads j) :=
      fun j => facePlant free
    have parent := (plants i).trans (if_neg other)
    have table : ((k.threadCreate (some i) p).1.threads i).ctable = (k.threads i).ctable := congrArg Face.table parent
    rw [table,parent,plants j]
    by_cases own : j = i
    · rw [if_pos own,if_neg (fun same => other (own.symm.trans same)),if_pos own]
    · rw [if_neg own,if_neg own]

theorem callSpawn (h : Sound ok stray φ s.config) (coherent : Coherent s.kernel) (acting : Acting s.kernel i) {named ptr program next}
    (calls : s.code i = .spawn program next)
    (hello : s.prog i = progPm → s.kernel.freeThread ≠ none → ok program → ∀ p : Fin 12, cint program = p.val → p = progHello) :
    ∃ φ', Sound ok stray φ' (s.call named i ptr junk).config := by
  obtain ⟨idle,outside,live⟩ := faceActing coherent acting
  let tf := (Code.spawn program next).regs ptr
  let k₁ := s.kernel.log (.syscall i tf)
  have unfolded : s.call named i ptr junk = ({ s with kernel := k₁.sysSpawn i tf }.goOn i (next (k₁.procSpawn (some i) (cint program)).2)).launch
      (k₁.procSpawn (some i) (cint program)).2 (cint program) := by
    unfold Booted.call
    dsimp only
    rw [calls]
    rfl
  rw [unfolded]
  have fails : k₁.procSpawn (some i) (cint program) = (k₁,-1) → ((∀ p : Fin 12, cint program ≠ p.val) ∨ ∀ j, presence (s.kernel.threads j) = .live) →
      ∃ φ', Sound ok stray φ' (({ s with kernel := k₁.sysSpawn i tf }.goOn i (next (k₁.procSpawn (some i) (cint program)).2)).launch
        (k₁.procSpawn (some i) (cint program)).2 (cint program)).config := by
    intro failed reason
    obtain ⟨φ',done⟩ := h.spawnFails live idle outside calls reason
    have nothing : k₁.sysSpawn i tf = k₁.sysRet i (cword (-1)) := by
      unfold sysSpawn
      rw [show k₁.procSpawn (some i) (cint tf.rdi) = (k₁,-1) from failed]
      rfl
    rw [failed,nothing]
    exact ⟨φ',done.kernel (fun j => rfl) (fun j => selfFace (c := s.config)) rfl⟩
  by_cases inside : 0 ≤ cint program ∧ cint program < 12
  · obtain ⟨p,numbered⟩ : ∃ p : Fin 12, cint program = p.val := ⟨⟨(cint program).toNat,by omega⟩,by simp; omega⟩
    cases free : s.kernel.freeThread with
    | none =>
      refine fails ?_ (.inr (freeThreadFull free))
      have full : k₁.freeThread = none := free
      unfold procSpawn
      rw [dif_pos inside]
      unfold threadCreate
      rw [full]
    | some child =>
      obtain ⟨result,same,faces⟩ := spawnsChild (k := k₁) (i := i) (show cint tf.rdi = p.val from numbered) free
      obtain ⟨vacant,first⟩ := freeThreadFirst free
      have other : i ≠ child := by
        rintro rfl
        exact vacant live
      obtain ⟨φ',done⟩ := h.spawns live idle outside calls numbered (fun manager asked => hello manager (by rw [free]; exact nofun) asked p numbered) vacant first
      have result : (k₁.procSpawn (some i) (cint program)).2 = tid child := result
      rw [result,numbered]
      unfold Booted.launch
      rw [threadByIdTid,progByIdVal]
      exact ⟨φ',done.same rfl (fun j => ⟨rfl,faces other j⟩) (congrArg Prod.fst same) (congrArg Prod.snd same)⟩
  · refine fails ?_ (.inl fun p same => inside (by omega))
    unfold procSpawn
    rw [dif_neg inside]

theorem mapThreads {tf : Trapframe} : (k.sysMap i tf).threads = k.threads ∧ routes (k.sysMap i tf) = routes k := by
  unfold sysMap
  dsimp only
  split <;> exact ⟨rfl,rfl⟩

theorem mapPhysThreads {tf : Trapframe} : (k.sysMapPhys i tf).threads = k.threads ∧ routes (k.sysMapPhys i tf) = routes k := by
  unfold sysMapPhys
  dsimp only
  split <;> exact ⟨rfl,rfl⟩

/-! Steps. -/

/- The next call of thread `i` is none that leads astray, and it starts no program
but hello for a shell. -/
structure Straight (ok : Word → Prop) (stray : Prop) (s : Booted) (i : Slot) : Prop where
  sends : ∀ dest m next, s.code i = .send dest m next → stray ∨ ¬ Astray (s.prog i) dest
  spawns : ∀ program next, s.code i = .spawn program next → s.prog i = progPm → s.kernel.freeThread ≠ none → ok program →
    ∀ p : Fin 12, cint program = p.val → p = progHello

theorem callSound {named : Word → Word} {ptr : Word} (asked : ∀ arg, ok (named arg)) (h : Sound ok stray φ s.config)
    (coherent : Coherent s.kernel) (acting : Acting s.kernel i) (straight : Straight ok stray s i) :
    ∃ φ', Sound ok stray φ' (s.call named i ptr junk).config := by
  cases calls : s.code i with
  | send dest m next => exact callSend h coherent acting calls (straight.sends dest m next calls)
  | recv src answering next => exact callRecv h coherent acting calls
  | spawn program next => exact callSpawn h coherent acting calls (straight.spawns program next calls)
  | setPager next => exact callSetPager h coherent acting calls
  | grantIo t base len next => exact callGrantIo h coherent acting calls
  | irqRegister line next => exact callIrqRegister h coherent acting calls
  | grantCap t ep next => exact callGrantCap h coherent acting calls
  | exit => exact callExit h coherent acting calls
  | map va next =>
    have conforms := callReady h coherent acting calls
    unfold Booted.call
    dsimp only
    rw [calls]
    exact ⟨φ,callQuiet _ h coherent acting conforms mapThreads.1 mapThreads.2⟩
  | mapPhys va pa next =>
    have conforms := callReady h coherent acting calls
    unfold Booted.call
    dsimp only
    rw [calls]
    exact ⟨φ,callQuiet _ h coherent acting conforms.2 mapPhysThreads.1 mapPhysThreads.2⟩
  | store va next =>
    have conforms := callReady h coherent acting calls
    unfold Booted.call
    dsimp only
    rw [calls]
    dsimp only
    split
    · obtain ⟨n,_,_,_,go⟩ := conforms
      exact ⟨φ,callQuiet s.kernel h coherent acting go rfl rfl⟩
    · exact pageFaultSound h coherent acting calls
  | again loop =>
    have conforms := callReady h coherent acting calls
    unfold Booted.call
    dsimp only
    rw [calls]
    exact ⟨φ,callQuiet s.kernel h coherent acting (Code.bodyConforms asked conforms) rfl rfl⟩
  | pick next =>
    unfold Booted.call
    dsimp only
    rw [calls]
    exact ⟨φ,h⟩

/- An interrupt. -/
theorem irqSound {line : Fin 16} (h : Sound ok stray φ (k.config prog code)) : Sound ok stray φ ((k.irqNotify line).config prog code) := by
  obtain same | ⟨d,registered,faces⟩ : (∀ j, face ((k.irqNotify line).threads j) = face (k.threads j)) ∨ _ := faceIrq
  · exact h.kernel (fun j => rfl) same routesIrq
  · have fit := h.fit d
    have terminal := h.lines line d registered
    have kept : Sound ok stray φ ((k.config prog code).put d { face (k.threads d) with pending := (k.threads d).irqPending + 1 } (code d)) :=
      h.keep rfl ⟨fit.live,fun present => (fit.linked present).same rfl rfl rfl,fit.call,fun _ => terminal⟩
    exact kept.kernel (fun j => (putCode (c := k.config prog code)).symm) faces routesIrq

/-! The return of a context switch. -/

theorem resumeSendSound (h : Sound ok stray φ s.config) (coherent : Coherent s.kernel) (mode : s.kernel.mode = .resume)
    (current : s.kernel.current = some i) {caller : SendCaller} (saved : (s.kernel.threads i).saved = .send caller) :
    ∃ φ', Sound ok stray φ' (s.resume junk).config := by
  have resumable := (coherent.placed i).resumable current mode
  rw [Resumable,saved] at resumable
  have live : presence (s.kernel.threads i) = .live := by
    rw [presence,(coherent.placed i).running current]
  have sent : wire (s.kernel.threads i) = .sent := by simp [wire,saved,resumable]
  obtain ⟨_,linked⟩ := h.linked (i := i) live
  cases caller with
  | syscall =>
    have outside : inFault (s.kernel.threads i) = false := by simp [inFault,saved]
    obtain ⟨dest,m,next,calls⟩ : ∃ dest m next, s.code i = .send dest m next := by
      cases linked with
      | sent _ _ calls => exact ⟨_,_,_,calls⟩
      | faulting wire fault | faulted wire fault | pardoned wire fault => cases outside.symm.trans fault
      | idle wire | sending wire | receiving wire | received wire => cases sent.symm.trans wire
    have resumed : s.resume junk = { s with kernel := ((s.kernel.onCpu i).ipcSendResume i).sysRet i (cword 0) }.goOn i (next 0) := by
      unfold Booted.resume Kernel.resume
      rw [current]
      dsimp only
      rw [saved,calls]
    rw [resumed]
    exact ⟨φ,(h.sent live sent outside calls).kernel (fun j => rfl) (fun j => faceResumeSend) rfl⟩
  | fault =>
    have fault : inFault (s.kernel.threads i) = true := by simp [inFault,saved]
    have resumed : s.resume junk = { s with kernel := ((s.kernel.onCpu i).ipcSendResume i).faultRecv i junk } := by
      unfold Booted.resume Kernel.resume
      rw [current]
      dsimp only
      rw [saved]
    rw [resumed]
    have move : Move s.kernel (.resume junk) s.kernel ((s.kernel.onCpu i).ipcSendResume i) := .resumeSend mode current saved
    exact faultRecvSound (k := (s.kernel.onCpu i).ipcSendResume i) h (moveCoherent coherent coherent move) ⟨rfl,current⟩ live fault sent
      (fun j => faceResumeSend) (fun j => rfl) rfl

theorem resumeRecvSound (h : Sound ok stray φ s.config) (coherent : Coherent s.kernel) (mode : s.kernel.mode = .resume)
    (current : s.kernel.current = some i) {caller : RecvCaller} (saved : (s.kernel.threads i).saved = .recv caller) :
    ∃ φ', Sound ok stray φ' (s.resume junk).config := by
  have resumable := (coherent.placed i).resumable current mode
  rw [Resumable,saved] at resumable
  have live : presence (s.kernel.threads i) = .live := by
    rw [presence,(coherent.placed i).running current]
  have pending : ∀ src, wire (s.kernel.threads i) = .receiving src → (s.kernel.threads i).irqPending ≠ 0 := by
    intro src receiving
    obtain none | woken := resumable
    · simp [wire,saved,none] at receiving
    · omega
  have returned := faceResumeRecv (k := s.kernel) (i := i) junk ⟨caller,saved⟩
  have routed : routes ((s.kernel.onCpu i).ipcRecvResume i junk).1 = routes s.kernel := by
    unfold ipcRecvResume
    dsimp only
    split <;> rfl
  obtain ⟨_,linked⟩ := h.linked (i := i) live
  cases caller with
  | syscall rsi =>
    have outside : inFault (s.kernel.threads i) = false := by simp [inFault,saved]
    have waits : (∃ src, wire (s.kernel.threads i) = .receiving src) ∨ ∃ source m, wire (s.kernel.threads i) = .received source m := by
      obtain ⟨src,receiving,_⟩ | ⟨source,m,received,_⟩ := returned
      · exact .inl ⟨src,receiving⟩
      · exact .inr ⟨source,m,received⟩
    obtain ⟨want,mark,next,calls,named⟩ : ∃ want mark next, s.code i = .recv want mark next ∧
        ∀ src, wire (s.kernel.threads i) = .receiving src → src = want := by
      cases linked with
      | receiving wire' _ calls => exact ⟨_,_,_,calls,fun src receiving => Phase.receiving.inj (receiving.symm.trans wire')⟩
      | received wire' _ calls => exact ⟨_,_,_,calls,fun src receiving => by cases receiving.symm.trans wire'⟩
      | faulting wire fault | faulted wire fault | pardoned wire fault => cases outside.symm.trans fault
      | idle wire' | sending wire' | sent wire' =>
        obtain ⟨src,receiving⟩ | ⟨source,m,received⟩ := waits
        · cases receiving.symm.trans wire'
        · cases received.symm.trans wire'
    have resumed : ∀ k source m, (s.kernel.onCpu i).ipcRecvResume i junk = (k,source,m) →
        s.resume junk = { s with kernel := k.recvReturn i rsi source }.goOn i (next source m) := by
      intro k source m result
      unfold Booted.resume
      rw [current]
      dsimp only
      rw [saved,calls]
      dsimp only
      rw [result]
    generalize (s.kernel.onCpu i).ipcRecvResume i junk = result at returned routed resumed
    obtain ⟨k,source,m⟩ := result
    rw [resumed k source m rfl]
    obtain ⟨callTo,closed⟩ := faceReturn (k := k) (i := i) rsi source
    obtain ⟨src,receiving,result,faces⟩ | ⟨from',m',received,result,faces⟩ := returned
    · cases result
      obtain rfl := named src receiving
      have done := h.signal callTo junk ((s.kernel.threads i).irqPending - 1) live receiving outside calls (pending src receiving)
      refine ⟨φ,done.kernel (fun j => rfl) (fun j => (closed j).trans ?_) routed⟩
      rw [putFace]
      split
      · rw [faces i,if_pos rfl]
        rfl
      · rename_i other
        exact (faces j).trans (if_neg other)
    · cases result
      have done := h.got callTo live received outside calls
      refine ⟨φ,done.kernel (fun j => rfl) (fun j => (closed j).trans ?_) routed⟩
      rw [putFace]
      split
      · rw [faces i,if_pos rfl]
        rfl
      · rename_i other
        exact (faces j).trans (if_neg other)
  | fault =>
    have fault : inFault (s.kernel.threads i) = true := by simp [inFault,saved]
    have resumed : s.resume junk =
        { s with kernel := ((s.kernel.onCpu i).ipcRecvResume i junk).1.faultVerdict i ((s.kernel.onCpu i).ipcRecvResume i junk).2.2 } := by
      unfold Booted.resume Kernel.resume
      rw [current]
      dsimp only
      rw [saved]
    rw [resumed]
    obtain ⟨src,receiving,_⟩ | ⟨source,m,received,result,faces⟩ := returned
    · exact absurd (h.faultQuiet live fault).2 (pending src receiving)
    · obtain ⟨pardon,done⟩ := h.faultDone live fault received
      have verdict : ((s.kernel.onCpu i).ipcRecvResume i junk).1.faultVerdict i m =
          ((s.kernel.onCpu i).ipcRecvResume i junk).1.log (.faultEnd i m) := by simp [faultVerdict,pardon]
      rw [result,verdict]
      exact ⟨φ,done.kernel (fun j => (putCode (c := s.config)).symm) faces routed⟩

theorem resumeSound (h : Sound ok stray φ s.config) (coherent : Coherent s.kernel) (mode : s.kernel.mode = .resume) :
    ∃ φ', Sound ok stray φ' (s.resume junk).config := by
  cases current : s.kernel.current with
  | none =>
    unfold Booted.resume Kernel.resume
    rw [current]
    exact ⟨φ,h.kernel (fun j => rfl) (fun j => rfl) rfl⟩
  | some i =>
    have resumable := (coherent.placed i).resumable current mode
    cases saved : (s.kernel.threads i).saved with
    | send caller => exact resumeSendSound h coherent mode current saved
    | recv caller => exact resumeRecvSound h coherent mode current saved
    | trampoline | tick =>
      have resumed : s.resume junk = { s with kernel := s.kernel.onCpu i } := by
        unfold Booted.resume Kernel.resume
        rw [current]
        dsimp only
        rw [saved]
      rw [resumed]
      exact ⟨φ,h.kernel (fun j => rfl) (fun j => faceOnCpu (by simp [wire,saved]) (by simp [inFault,saved])) rfl⟩
    | vacant | running | exited | killed =>
      rw [Resumable,saved] at resumable
      exact absurd resumable id

theorem stepSound {named : Word → Word} {act : Act} (asked : ∀ arg, ok (named arg)) (h : Sound ok stray φ s.config)
    (coherent : Coherent s.kernel) (enabled : s.Enabled act)
    (straight : ∀ ptr junk i, act = .run ptr junk → s.kernel.current = some i → Straight ok stray s i) :
    ∃ φ', Sound ok stray φ' (s.step named act).config := by
  cases act with
  | tick => exact ⟨φ,h.kernel (fun j => rfl) (fun j => faceTick coherent enabled) routesSchedule⟩
  | irq line => exact ⟨φ,irqSound h⟩
  | resume junk => exact resumeSound h coherent enabled
  | run ptr junk =>
    obtain ⟨user,i,current,_⟩ := enabled
    have current : s.kernel.current = some i := current
    unfold Booted.step
    rw [current]
    exact callSound asked h coherent ⟨user,current⟩ (straight ptr junk i rfl current)
  | pick a b =>
    obtain ⟨user,i,current,_⟩ := enabled
    have current : s.kernel.current = some i := current
    unfold Booted.step
    rw [current]
    dsimp only
    split
    · rename_i next calls
      exact ⟨φ,callQuiet s.kernel h coherent ⟨user,current⟩ (callReady h coherent ⟨user,current⟩ calls a b) rfl rfl⟩
    · exact ⟨φ,h⟩

theorem bootFaces (memory : Memory) (stackBase : Word) :
    face ((boot memory stackBase).threads j) = if j = 0 then Face.born else face threadZero := by
  have free : (schedInit memory stackBase).freeThread = some 0 := rfl
  have planted : face (((schedInit memory stackBase).threadCreate none progInit).1.threads j) = _ := facePlant free
  exact planted

/- Init stands at its entry, and every other slot is free. -/
theorem startSound (memory : Memory) (stackBase : Word) :
    Sound ok stray (one (fun _ => .gone) 0 (.boot 0 none)) (Booted.start memory stackBase).config := by
  generalize φ₀ : one (fun _ => .gone) 0 (.boot 0 none) = φ
  have root : φ 0 = .boot 0 none := by
    rw [← φ₀]
    rfl
  have gone : ∀ k, k ≠ 0 → φ k = .gone := by
    intro k other
    rw [← φ₀,oneRest other]
  have stages : ∀ k, φ k = .boot 0 none ∧ k = 0 ∨ φ k = .gone ∧ k ≠ 0 := by
    intro k
    by_cases zero : k = 0
    · exact .inl ⟨zero ▸ root,zero⟩
    · exact .inr ⟨gone k zero,zero⟩
  have alone : ∀ k, (φ k).child = none ∧ (φ k).owes = (fun _ => none) ∧ (φ k).asked = none := by
    intro k
    obtain ⟨stage,_⟩ | ⟨stage,_⟩ := stages k
    all_goals
      rw [stage]
      refine ⟨rfl,?_,rfl⟩
      funext o
      cases o <;> rfl
  refine ⟨⟨fun i => ?_,by rw [root]; trivial,fun i c parent => ?_,⟨fun o y owed => ?_,fun s y asked => ?_⟩⟩,fun i => ?_,fun registered => ?_,fun line d named => ?_⟩
  · obtain ⟨stage,rfl⟩ | ⟨stage,other⟩ := stages i
    · rw [root]
      exact ⟨rfl,rfl,by decide,fun y named => by cases named⟩
    · rw [stage,root]
      refine .inl ?_
      have : i.val ≠ 0 := fun zero => other (Fin.ext zero)
      simp only [Stage.born]
      omega
  · rw [(alone i).1] at parent
    cases parent
  · rw [(alone _).2.1] at owed
    cases owed
  · rw [(alone _).2.2] at asked
    cases asked
  · have own : (Booted.start memory stackBase).config.face i = if i = 0 then Face.born else face threadZero := bootFaces memory stackBase
    rw [own]
    obtain ⟨stage,rfl⟩ | ⟨stage,other⟩ := stages i
    · rw [root]
      exact ⟨⟨fun _ gone => (by cases gone),fun _ => rfl⟩,fun _ => .idle rfl rfl Code.initConforms,fun o asked => (by cases asked),
        fun pending => absurd rfl pending⟩
    · rw [stage,if_neg other]
      exact ⟨⟨fun live => (by cases live),fun present => absurd rfl present⟩,fun present => absurd rfl present,fun o asked => (by cases asked),
        fun pending => absurd rfl pending⟩
  · obtain fresh | told | late := registered
    · rw [gone 3 (by decide)] at fresh
      cases fresh
    · rw [gone 3 (by decide)] at told
      cases told
    · rw [root] at late
      exact absurd late (by decide)
  · have none : (-1 : Int) = tid d := named
    exact absurd none.symm (tidNotAny d)

/- In every run whose steps go straight the threads keep to the protocol. -/
theorem runSound {named : Word → Word} {allowed : Booted → Act → Prop} (asked : ∀ arg, ok (named arg))
    (straight : ∀ s ptr junk i, allowed s (.run ptr junk) → s.kernel.current = some i → Straight ok stray s i)
    (h : Transition.Reach (bootedWith named) allowed s) : ∃ φ, Sound ok stray φ s.config := by
  have both := h.invariant (fun s => Coherent s.kernel ∧ ∃ φ, Sound ok stray φ s.config) ?_ ?_
  · exact both.2
  · rintro _ ⟨memory,stackBase,rfl⟩
    exact ⟨bootCoherent memory stackBase,_,startSound memory stackBase⟩
  · rintro s act ⟨coherent,φ,sound⟩ enabled keeps
    refine ⟨movesCoherent coherent (bootedMoves enabled),stepSound asked sound coherent enabled ?_⟩
    rintro ptr junk i rfl current
    exact straight s ptr junk i keeps current

end
end Mukern
