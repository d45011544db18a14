import Mukern.PagerRequests

/-! What each step of the booted system does to the requests for pages of the heap and to
the pages themselves. -/
namespace Mukern
open Kernel Rendezvous

/-! The calls of a program. -/

section
variable {k k' : Kernel} {code code' : Slot → Code} {f f' : Face} {c c' : Code} {i j : Slot} {m : IpcMsg} {page : Nat}
variable {s : Booted} {dest src source : Int} {junk : IpcMsg} {mark : Option Int} {ptr va : Word} {named : Word → Word}

def Booted.Orderly (s : Booted) : Prop := Mukern.Orderly s.kernel s.code

theorem Orderly.quiet (h : Orderly k code) (memory : k'.memory = k.memory) (idle : (face (k.threads i)).wire = .idle) (leads : (code i).Leads c)
    (threads : ∀ j, (face (k'.threads j)).wire = (face (k.threads j)).wire ∧ (face (k'.threads j)).fault = (face (k.threads j)).fault) :
    Orderly k' fun j => if j = i then c else code j :=
  h.goes memory ((threads i).1.trans idle) leads fun l _ => .same (threads l).1 (threads l).2

theorem orderlySend (h : s.Orderly) (coherent : Coherent s.kernel) (acting : Acting s.kernel i) {next}
    (calls : s.code i = .send dest m next) : (s.call named i ptr junk).Orderly := by
  obtain ⟨idle,outside,live⟩ := faceActing coherent acting
  have tame : (Code.send dest m next).Tame := calls ▸ h.tame i
  have leads : ∀ r, (s.code i).Leads (next r) := fun r => calls ▸ tame.leads (by rintro ⟨⟩) fun plan planned => planned.2 r
  have label : m.label ≠ msgFault := by
    obtain idle | ⟨va,_,planned⟩ | pager := tame
    · exact idle.1
    · exact planned.1
    · cases pager
  unfold Booted.call
  dsimp only
  rw [calls]
  dsimp only
  generalize (Code.send dest m next).regs ptr = tf
  generalize called : cint tf.rdi = d
  cases allowed : s.kernel.ipcSendAllowed i d with
  | false =>
    rw [sendDenied (by rw [called]; exact allowed)]
    exact h.quiet rfl idle (leads _) fun j => ⟨rfl,rfl⟩
  | true =>
    rw [sendAdmitted (by rw [called]; exact allowed),called]
    generalize made : ((s.kernel.log (.syscall i tf)).openCall i d).log (.copy i tf.rsi false) = k₁
    have coherent₁ : Coherent k₁ := made ▸ (((coherent.log _).quietUpd (f := ({ · with ipcCallTo := d })) fun _ => rfl).log _).log _
    have acting₁ : Acting k₁ i := made ▸ acting
    have opened : ∀ j, face (k₁.threads j) = if j = i then { face (s.kernel.threads i) with callTo := d } else face (s.kernel.threads j) := by
      rw [← made]
      exact fun j => faceOpen
    have kept : k₁.memory = s.kernel.memory := by
      rw [← made]
      rfl
    have h₁ : Orderly k₁ s.code := h.follow kept fun j => by
      rw [opened j]
      split
      · rename_i own
        exact own ▸ .same rfl rfl
      · exact .refl
    have idle₁ := (faceActing coherent₁ acting₁).1
    have effect := sendEffect coherent₁ acting₁ d m .syscall
    have memory : (k₁.ipcSendLocked i d m .syscall).1.memory = k₁.memory := sendMemory acting₁
    generalize k₁.ipcSendLocked i d m .syscall = result at effect memory ⊢
    obtain ⟨k',answer⟩ := result
    cases effect with
    | refused nobody faces => exact h₁.quiet memory idle₁ (leads _) fun j => ⟨congrArg Face.wire (faces j),congrArg Face.fault (faces j)⟩
    | met e same ready faces =>
      obtain ⟨blocked,_,receiving,accepts⟩ := wireReady coherent₁ ready
      have other : i ≠ e := by
        rintro rfl
        cases blocked.symm.trans (acting₁.state coherent₁)
      have there := faces e
      rw [if_pos rfl] at there
      have sent : Orderly k' s.code := by
        refine h₁.carries (i := e) (m := m) memory (by rw [there]; rfl) label (fun hears => ?_) fun l apart => ?_
        · rw [there] at hears
          exact ⟨hears.1,.inl ⟨_,receiving⟩⟩
        · rw [faces l,if_neg apart]
          exact .refl
      refine sent.quiet rfl ?_ (leads _) fun j => ⟨rfl,rfl⟩
      rw [faces i,if_neg other]
      exact idle₁
    | staged e same faces =>
      have there := faces i
      rw [if_pos rfl] at there
      refine h₁.carries (i := i) (m := m) memory (by rw [there]; rfl) label (fun hears => ?_) fun l apart => ?_
      · rw [there] at hears
        obtain ⟨_,⟨src,receiving⟩ | ⟨source,m',received⟩⟩ := hears
        · cases receiving
        · cases received
      · rw [faces l,if_neg apart]
        exact .refl

theorem orderlyRecv (h : s.Orderly) (coherent : Coherent s.kernel) (acting : Acting s.kernel i) {next}
    (calls : s.code i = .recv src mark next) : (s.call named i ptr junk).Orderly := by
  have tame : (Code.recv src mark next).Tame := calls ▸ h.tame i
  unfold Booted.call
  dsimp only
  rw [calls]
  dsimp only
  generalize (Code.recv src mark next).regs ptr = tf
  unfold recvValue
  generalize cint tf.rdi = want
  have coherent₁ : Coherent (s.kernel.log (.syscall i tf)) := coherent.log _
  have acting₁ : Acting (s.kernel.log (.syscall i tf)) i := acting
  have idle : (face ((s.kernel.log (.syscall i tf)).threads i)).wire = .idle := (faceActing coherent acting).1
  have h₁ : Orderly (s.kernel.log (.syscall i tf)) s.code := h.follow rfl fun j => .refl
  have effect := recvEffect coherent₁ acting₁ want junk (.syscall tf.rsi)
  have memory : ((s.kernel.log (.syscall i tf)).ipcRecvLocked i want junk (.syscall tf.rsi)).1.memory = (s.kernel.log (.syscall i tf)).memory :=
    recvMemory acting₁
  generalize (s.kernel.log (.syscall i tf)).ipcRecvLocked i want junk (.syscall tf.rsi) = result at effect memory
  obtain ⟨k',answer⟩ := result
  cases effect with
  | irq pending faces =>
    dsimp only
    obtain ⟨callTo,returned⟩ := faceReturn (k := k') (i := i) tf.rsi ipcIrqSender
    have wires : ∀ j, (face ((k'.recvReturn i tf.rsi ipcIrqSender).threads j)).wire = (face ((s.kernel.log (.syscall i tf)).threads j)).wire ∧
        (face ((k'.recvReturn i tf.rsi ipcIrqSender).threads j)).fault = (face ((s.kernel.log (.syscall i tf)).threads j)).fault := by
      intro j
      rw [returned j]
      split
      · rename_i own
        rw [faces i,if_pos rfl,own]
        exact ⟨rfl,rfl⟩
      · rename_i other
        rw [faces j,if_neg other]
        exact ⟨rfl,rfl⟩
    exact h₁.quiet (c := next ipcIrqSender (irqMsg junk)) memory idle (calls ▸ tame.signalled (by show msgIrq ≠ msgFault; decide)) wires
  | taken snd waiting faces =>
    dsimp only
    obtain ⟨blocked,_,sending,accepts⟩ := wireWaiting coherent₁ waiting
    have other : i ≠ snd := by
      rintro rfl
      cases blocked.symm.trans (acting₁.state coherent₁)
    obtain ⟨callTo,returned⟩ := faceReturn (k := k') (i := i) tf.rsi (tid snd)
    have after : ∀ l, face ((k'.recvReturn i tf.rsi (tid snd)).threads l) = if l = i then
        { face (s.kernel.threads i) with callTo := callTo } else if l = snd then { face (s.kernel.threads snd) with wire := .sent }
          else face (s.kernel.threads l) := by
      intro l
      rw [returned l]
      refine ite_congr rfl (fun _ => ?_) fun _ => faces l
      rw [faces i,if_neg other]
      rfl
    have taken : inFlight (face ((k'.recvReturn i tf.rsi (tid snd)).threads snd)).wire = none := by
      rw [after snd,if_neg (Ne.symm other),if_pos rfl]
      rfl
    have own : (face ((k'.recvReturn i tf.rsi (tid snd)).threads i)).wire = .idle := by
      rw [after i,if_pos rfl]
      exact idle
    have kept : (k'.recvReturn i tf.rsi (tid snd)).memory = (s.kernel.log (.syscall i tf)).memory := memory
    refine h₁.gets (i := i) (j := snd) kept calls (congrArg inFlight sending) taken own fun l apart => ?_
    rw [after l,if_neg apart]
    split
    · exact .quiet (.inr rfl) (.inl rfl)
    · exact .refl
  | awaits faces =>
    dsimp only
    refine h₁.follow memory fun j => ?_
    rw [faces j]
    split
    · rename_i own
      subst own
      exact ⟨.inl rfl,fun _ => .inr (calls ▸ rfl),.inl rfl⟩
    · exact .refl

/-! The page-fault path of the kernel. -/

theorem orderlyDie {point : Context} (h : Orderly k code) (acting : Acting k i) (final : point = .exited ∨ point = .killed) :
    Orderly (k.die i point) code := by
  refine h.follow (dieMemory acting) fun j => ?_
  rw [faceDie acting final]
  split
  · exact .quiet (.inl rfl) (.inl rfl)
  · exact .refl

theorem orderlyVerdict (h : Orderly k code) (acting : Acting k i) : Orderly (k.faultVerdict i m) code := by
  have ended : Orderly (k.log (.faultEnd i m)) code := h.follow rfl fun j => .refl
  unfold faultVerdict
  dsimp only
  split
  · exact orderlyDie ended acting (.inr rfl)
  · exact ended

theorem orderlyFaultRecv (h : Orderly k code) (coherent : Coherent k) (acting : Acting k i) : Orderly (k.faultRecv i junk) code := by
  have effect := recvEffect coherent acting k.pagerTid junk .fault
  have memory : (k.ipcRecvLocked i k.pagerTid junk .fault).1.memory = k.memory := recvMemory acting
  have works : ∀ r, (k.ipcRecvLocked i k.pagerTid junk .fault).2 = some r → Acting (k.ipcRecvLocked i k.pagerTid junk .fault).1 i :=
    fun r returned => actingRecv acting (Prod.ext rfl returned)
  unfold faultRecv
  generalize k.ipcRecvLocked i k.pagerTid junk .fault = result at effect memory works
  obtain ⟨k',answer⟩ := result
  cases effect with
  | irq pending faces =>
    refine orderlyVerdict (h.follow memory fun j => ?_) (works _ rfl)
    rw [faces j]
    split
    · rename_i own
      exact own ▸ .same rfl rfl
    · exact .refl
  | taken snd waiting faces =>
    refine orderlyVerdict (h.follow memory fun j => ?_) (works _ rfl)
    rw [faces j]
    split
    · exact .quiet (.inr rfl) (.inl rfl)
    · exact .refl
  | awaits faces =>
    refine h.follow memory fun j => ?_
    rw [faces j]
    split
    · exact .faulting rfl rfl
    · exact .refl

/- A page fault while no request is under way for the page. -/
theorem orderlyFault {tf : Trapframe} {write : Bool} (h : Orderly k code) (coherent : Coherent k) (acting : Acting k i)
    (faults : k.memory.userAccess va write = none) (unrequested : InHeap va → ∀ x, ¬ Sought k code (pageNumber va) x) :
    Orderly (k.pageFault tf ⟨va,0,junk⟩) code := by
  unfold pageFault
  rw [acting.2]
  dsimp only
  split
  swap
  · exact h.follow rfl fun j => .refl
  unfold faultForward
  dsimp only
  have coherent₁ : Coherent (k.log (.fault i va k.pagerTid)) := coherent.log _
  have acting₁ : Acting (k.log (.fault i va k.pagerTid)) i := acting
  have h₁ : Orderly (k.log (.fault i va k.pagerTid)) code := h.follow rfl fun j => .refl
  have idle : (face ((k.log (.fault i va k.pagerTid)).threads i)).wire = .idle := (faceActing coherent acting).1
  have fresh : ∀ page x, Requests (faultMsg i va) page → ¬ Sought k code page x := by
    rintro _ x ⟨_,inside,rfl⟩
    exact unrequested inside x
  have absent : ∀ va', InHeap va' → Requests (faultMsg i va) (pageNumber va') → k.memory.trace va' = none := by
    rintro va' _ ⟨_,inside,same⟩
    exact (leafSame same.symm).trans (h.pages.unmapped inside faults)
  have effect := sendEffect coherent₁ acting₁ (k.log (.fault i va k.pagerTid)).pagerTid (faultMsg i va) .fault
  have memory : ((k.log (.fault i va k.pagerTid)).ipcSendLocked i (k.log (.fault i va k.pagerTid)).pagerTid (faultMsg i va) .fault).1.memory =
      (k.log (.fault i va k.pagerTid)).memory := sendMemory acting₁
  have kept : Coherent ((k.log (.fault i va k.pagerTid)).ipcSendLocked i (k.log (.fault i va k.pagerTid)).pagerTid (faultMsg i va) .fault).1 :=
    sendCoherent coherent₁ acting₁
  have works : ∀ r, ((k.log (.fault i va k.pagerTid)).ipcSendLocked i (k.log (.fault i va k.pagerTid)).pagerTid (faultMsg i va) .fault).2 = some r →
      Acting ((k.log (.fault i va k.pagerTid)).ipcSendLocked i (k.log (.fault i va k.pagerTid)).pagerTid (faultMsg i va) .fault).1 i :=
    fun r returned => actingSend acting₁ (Prod.ext rfl returned)
  generalize (k.log (.fault i va k.pagerTid)).ipcSendLocked i (k.log (.fault i va k.pagerTid)).pagerTid (faultMsg i va) .fault = result
    at effect memory kept works
  obtain ⟨k',answer⟩ := result
  cases effect with
  | refused nobody faces =>
    refine orderlyFaultRecv (h₁.follow memory fun j => ?_) kept (works _ rfl)
    rw [faces j]
    exact .refl
  | met d named ready faces =>
    obtain ⟨blocked,_,receiving,accepts⟩ := wireReady coherent₁ ready
    have there := faces d
    rw [if_pos rfl] at there
    refine orderlyFaultRecv (h₁.grant (i := d) memory (by rw [there]; rfl) fresh absent (fun hears => ?_) rfl fun l apart => ?_) kept (works _ rfl)
    · rw [there] at hears
      exact ⟨hears.1,.inl ⟨_,receiving⟩⟩
    · rw [faces l,if_neg apart]
      exact .refl
  | staged d named faces =>
    have there := faces i
    rw [if_pos rfl] at there
    refine h₁.grant (i := i) memory (by rw [there]; rfl) fresh absent (fun hears => ?_) rfl fun l apart => ?_
    · rw [there] at hears
      cases hears.1
    · rw [faces l,if_neg apart]
      exact .refl

/-! The other calls. -/

theorem orderlySpawn (h : s.Orderly) (coherent : Coherent s.kernel) (acting : Acting s.kernel i) {program next}
    (calls : s.code i = .spawn program next) : (s.call named i ptr junk).Orderly := by
  obtain ⟨idle,outside,live⟩ := faceActing coherent acting
  have tame : (Code.spawn program next).Tame := calls ▸ h.tame i
  have leads : ∀ r, (s.code i).Leads (next r) := fun r => calls ▸ tame.leads (by rintro ⟨⟩) fun plan planned => planned r
  let tf := (Code.spawn program next).regs ptr
  let k₁ := s.kernel.log (.syscall i tf)
  have h₁ : Orderly k₁ s.code := h.follow rfl fun j => .refl
  have memory : (k₁.sysSpawn i tf).memory = k₁.memory := spawnMemory
  have unfolded : s.call named i ptr junk = ({ s with kernel := k₁.sysSpawn i tf }.goOn i (next (k₁.procSpawn (some i) (cint program)).2)).launch
      (k₁.procSpawn (some i) (cint program)).2 (cint program) := by
    unfold Booted.call
    dsimp only
    rw [calls]
    rfl
  rw [unfolded]
  have fails : k₁.procSpawn (some i) (cint program) = (k₁,-1) → (({ s with kernel := k₁.sysSpawn i tf }.goOn i
      (next (k₁.procSpawn (some i) (cint program)).2)).launch (k₁.procSpawn (some i) (cint program)).2 (cint program)).Orderly := by
    intro failed
    have nothing : k₁.sysSpawn i tf = k₁.sysRet i (cword (-1)) := by
      unfold sysSpawn
      rw [show k₁.procSpawn (some i) (cint tf.rdi) = (k₁,-1) from failed]
      rfl
    rw [failed,nothing]
    exact h₁.quiet rfl idle (leads _) fun j => ⟨rfl,rfl⟩
  by_cases inside : 0 ≤ cint program ∧ cint program < 12
  · obtain ⟨p,numbered⟩ : ∃ p : Fin 12, cint program = p.val := ⟨⟨(cint program).toNat,by omega⟩,by simp; omega⟩
    cases free : s.kernel.freeThread with
    | none =>
      refine fails ?_
      have full : k₁.freeThread = none := free
      unfold procSpawn
      rw [dif_pos inside]
      unfold threadCreate
      rw [full]
    | some child =>
      obtain ⟨result,same,faces⟩ := spawnsChild (k := k₁) (i := i) (show cint tf.rdi = p.val from numbered) free
      have other : i ≠ child := by
        rintro rfl
        exact (freeThreadFirst free).1 live
      have result : (k₁.procSpawn (some i) (cint program)).2 = tid child := result
      rw [result,numbered]
      unfold Booted.launch
      rw [threadByIdTid,progByIdVal]
      change Orderly (k₁.sysSpawn i tf) fun j => if j = child then Code.main p else if j = i then next (tid child) else s.code j
      refine h₁.follow memory (atPair (i := child) (j := i) ?_ ?_ fun j apart own => ?_)
      · rw [faces other child,if_pos rfl,if_pos rfl]
        exact .quiet (.inl rfl) (.inr (Code.mainPlans p).leads)
      · rw [faces other i,if_neg other,if_pos rfl,if_neg other,if_pos rfl]
        exact .quiet (.inl idle) (.inr (leads _))
      · rw [faces other j,if_neg apart,if_neg own,if_neg apart,if_neg own]
        exact .refl
  · refine fails ?_
    unfold procSpawn
    rw [dif_neg inside]

/- `SYS_MAP` answers the request of its page. -/
theorem orderlyMap (h : s.Orderly) (coherent : Coherent s.kernel) (acting : Acting s.kernel i) {next} (calls : s.code i = .map va next) :
    (s.call named i ptr junk).Orderly ∧ HeapStays s.kernel.memory (s.call named i ptr junk).kernel.memory := by
  have idle := (faceActing coherent acting).1
  have tame : (Code.map va next).Tame := calls ▸ h.tame i
  obtain ⟨inside,done⟩ : InHeap va ∧ next.Plans none := by
    obtain idle | ⟨va',inside,planned⟩ | pager := tame
    · cases idle.1
    · cases planned.1
      exact ⟨inside,planned.2⟩
    · cases pager
  have owed : Sought s.kernel s.code (pageNumber va) (.code i) := ⟨va,inside,rfl,by rw [calls]; exact ⟨rfl,done⟩⟩
  have unmapped := h.unmapped va (.code i) inside owed
  let tf := (Code.map va next).regs ptr
  have mapped : ((s.kernel.log (.syscall i tf)).sysMap i tf).memory = s.kernel.memory.mapFresh (pageAlignDown va) := mapMemory
  have threads : ((s.kernel.log (.syscall i tf)).sysMap i tf).threads = s.kernel.threads := mapThreads.1
  unfold Booted.call
  dsimp only
  rw [calls]
  have each : ∀ j, Onward (face (s.kernel.threads j)) (face (((s.kernel.log (.syscall i tf)).sysMap i tf).threads j)) (s.code j)
      (if j = i then next else s.code j) := by
    rw [threads]
    refine atOne (i := i) ?_ fun j other => ?_
    · rw [if_pos rfl]
      exact .quiet (.inl idle) (.inr done.leads)
    · rw [if_neg other]
      exact .refl
  have goes : Orderly ((s.kernel.log (.syscall i tf)).sysMap i tf) fun j => if j = i then next else s.code j := by
    refine h.onto each (fun va' x inside' here => ?_) ?_
    · have before := here.before each
      have other : pageNumber va' ≠ pageNumber (pageAlignDown va) := by
        intro same
        have same := same.trans (alignedPage va)
        obtain rfl := h.single _ x (.code i) (same ▸ before) owed
        have owes : Code.Owes (if i = i then next else s.code i) (pageNumber va') := here
        rw [if_pos rfl] at owes
        exact done.free owes
      rw [mapped,freshOther h.pages.tree other]
      exact h.unmapped va' x inside' before
    · rw [mapped]
      exact h.pages.fresh inside unmapped
  refine ⟨goes,?_⟩
  change HeapStays s.kernel.memory ((s.kernel.log (.syscall i tf)).sysMap i tf).memory
  rw [mapped]
  exact h.pages.freshKeeps unmapped

theorem orderlyMapPhys (h : s.Orderly) (coherent : Coherent s.kernel) (acting : Acting s.kernel i) {pa next} (calls : s.code i = .mapPhys va pa next) :
    (s.call named i ptr junk).Orderly ∧ HeapStays s.kernel.memory (s.call named i ptr junk).kernel.memory := by
  have idle := (faceActing coherent acting).1
  have tame : (Code.mapPhys va pa next).Tame := calls ▸ h.tame i
  have leads : (s.code i).Leads next := calls ▸ tame.leads (by rintro ⟨⟩) fun plan planned => planned.2
  have other : ∀ va', InHeap va' → pageNumber va' ≠ pageNumber va := by
    obtain idle | ⟨va',_,planned⟩ | pager := tame
    · exact idle.1
    · exact planned.1
    · cases pager
  let tf := (Code.mapPhys va pa next).regs ptr
  have memory : ((s.kernel.log (.syscall i tf)).sysMapPhys i tf).memory = s.kernel.memory ∨
      i = 0 ∧ ((s.kernel.log (.syscall i tf)).sysMapPhys i tf).memory = (s.kernel.memory.vmmMap va pa vmUserRw).1 := mapPhysMemory
  have threads : ((s.kernel.log (.syscall i tf)).sysMapPhys i tf).threads = s.kernel.threads := mapPhysThreads.1
  have each : ∀ j, Onward (face (s.kernel.threads j)) (face (((s.kernel.log (.syscall i tf)).sysMapPhys i tf).threads j)) (s.code j)
      (if j = i then next else s.code j) := by
    rw [threads]
    refine atOne (i := i) ?_ fun j other => ?_
    · rw [if_pos rfl]
      exact .quiet (.inl idle) (.inr leads)
    · rw [if_neg other]
      exact .refl
  unfold Booted.call
  dsimp only
  rw [calls]
  change Orderly ((s.kernel.log (.syscall i tf)).sysMapPhys i tf) (fun j => if j = i then next else s.code j) ∧
    HeapStays s.kernel.memory ((s.kernel.log (.syscall i tf)).sysMapPhys i tf).memory
  obtain same | ⟨_,mapped⟩ := memory
  · exact ⟨h.follow same each,.same same⟩
  · refine ⟨h.onto each (fun va' x inside here => ?_) ?_,?_⟩
    · rw [mapped,mapOther h.pages.tree (other va' inside)]
      exact h.unmapped va' x inside (here.before each)
    · rw [mapped]
      exact h.pages.map other pa vmUserRw
    · rw [mapped]
      exact h.pages.mapKeeps other pa vmUserRw

/- No thread takes a step towards another. -/
def SameWires (k k' : Kernel) : Prop := ∀ j, (face (k'.threads j)).wire = (face (k.threads j)).wire ∧ (face (k'.threads j)).fault = (face (k.threads j)).fault

theorem grantWires {t : Option Slot} {ep : Int} : SameWires k (k.capGrantEndpoint t ep).1 := by
  intro j
  cases t with
  | none => exact ⟨rfl,rfl⟩
  | some t =>
    rw [faceGrant]
    split
    · rename_i own
      exact own ▸ ⟨rfl,rfl⟩
    · exact ⟨rfl,rfl⟩

theorem grantIoWires {t : Option Slot} {base len : BitVec 16} : SameWires k (k.capGrantIo t base len).1 := by
  intro j
  cases t with
  | none => exact ⟨rfl,rfl⟩
  | some t =>
    rw [faceGrantIo]
    split
    · rename_i own
      exact own ▸ ⟨rfl,rfl⟩
    · exact ⟨rfl,rfl⟩

theorem grantCapCallWires {tf : Trapframe} : SameWires k (k.sysGrantCap i tf) := by
  unfold sysGrantCap
  dsimp only
  split
  · exact fun _ => ⟨rfl,rfl⟩
  · exact grantWires

theorem grantIoCallWires {tf : Trapframe} : SameWires k (k.sysGrantIo i tf) := by
  unfold sysGrantIo
  split
  · exact fun _ => ⟨rfl,rfl⟩
  · exact grantIoWires

theorem irqRegisterWires {tf : Trapframe} : SameWires k (k.sysIrqRegister i tf) := by
  unfold sysIrqRegister
  dsimp only
  split <;> exact fun _ => ⟨rfl,rfl⟩

theorem sendValueMemory {tf : Trapframe} (acting : Acting k i) : (k.sendValue i tf m).1.memory = k.memory := by
  unfold sendValue
  dsimp only
  split
  · have sent : (((((k.log (.syscall i tf)).openCall i (cint tf.rdi)).log (.copy i tf.rsi false)).ipcSendLocked i (cint tf.rdi) m .syscall).1).memory =
        k.memory := sendMemory (k := ((k.log (.syscall i tf)).openCall i (cint tf.rdi)).log (.copy i tf.rsi false)) acting
    split
    · rename_i k' r result
      rwa [result] at sent
    · rename_i k' result
      rwa [result] at sent
  · rfl

theorem recvValueMemory {tf : Trapframe} (acting : Acting k i) : (k.recvValue i tf junk).1.memory = k.memory := by
  have got : ((k.log (.syscall i tf)).ipcRecvLocked i (cint tf.rdi) junk (.syscall tf.rsi)).1.memory = k.memory :=
    recvMemory (k := k.log (.syscall i tf)) acting
  unfold recvValue
  split
  · rename_i k' source m result
    rwa [result] at got
  · rename_i k' result
    rwa [result] at got

theorem orderlyCall (h : s.Orderly) (coherent : Coherent s.kernel) (acting : Acting s.kernel i)
    (unrequested : ∀ va next, s.code i = .store va next → s.kernel.memory.userAccess va true = none → InHeap va →
      ∀ x, ¬ Sought s.kernel s.code (pageNumber va) x) :
    (s.call named i ptr junk).Orderly ∧ HeapStays s.kernel.memory (s.call named i ptr junk).kernel.memory := by
  have idle := (faceActing coherent acting).1
  have entered : ∀ tf, Orderly (s.kernel.log (.syscall i tf)) s.code := fun tf => h.follow rfl fun j => .refl
  have leads : ∀ {c next : Code}, s.code i = c → c ≠ Code.pagerLoop → (∀ plan, c.Plans plan → next.Plans plan) → (s.code i).Leads next := by
    rintro c next rfl other same
    exact (h.tame i).leads other same
  cases calls : s.code i with
  | send dest m next =>
    refine ⟨orderlySend h coherent acting calls,.same ?_⟩
    have sent : (s.kernel.sendValue i ((Code.send dest m next).regs ptr) m).1.memory = s.kernel.memory := sendValueMemory acting
    unfold Booted.call
    dsimp only
    rw [calls]
    dsimp only
    split
    · rename_i k' r result
      rwa [result] at sent
    · rename_i k' result
      rwa [result] at sent
  | recv src mark next =>
    refine ⟨orderlyRecv h coherent acting calls,.same ?_⟩
    have got : (s.kernel.recvValue i ((Code.recv src mark next).regs ptr) junk).1.memory = s.kernel.memory := recvValueMemory acting
    unfold Booted.call
    dsimp only
    rw [calls]
    dsimp only
    split
    · rename_i k' source m result
      rwa [result] at got
    · rename_i k' result
      rwa [result] at got
  | spawn program next =>
    refine ⟨orderlySpawn h coherent acting calls,.same ?_⟩
    have memory : ((s.kernel.log (.syscall i ((Code.spawn program next).regs ptr))).sysSpawn i ((Code.spawn program next).regs ptr)).memory =
        s.kernel.memory := spawnMemory
    unfold Booted.call
    dsimp only
    rw [calls]
    dsimp only
    rw [launchKernel]
    exact memory
  | map va next => exact orderlyMap h coherent acting calls
  | mapPhys va pa next => exact orderlyMapPhys h coherent acting calls
  | setPager next =>
    unfold Booted.call
    dsimp only
    rw [calls]
    exact ⟨h.quiet rfl idle (leads calls (by rintro ⟨⟩) fun _ planned => planned) fun j => ⟨rfl,rfl⟩,.same rfl⟩
  | grantIo t base len next =>
    unfold Booted.call
    dsimp only
    rw [calls]
    exact ⟨(entered _).quiet grantIoCallMemory idle (leads calls (by rintro ⟨⟩) fun _ planned => planned) grantIoCallWires,.same grantIoCallMemory⟩
  | irqRegister line next =>
    unfold Booted.call
    dsimp only
    rw [calls]
    exact ⟨(entered _).quiet irqRegisterMemory idle (leads calls (by rintro ⟨⟩) fun _ planned => planned) irqRegisterWires,.same irqRegisterMemory⟩
  | grantCap t ep next =>
    unfold Booted.call
    dsimp only
    rw [calls]
    exact ⟨(entered _).quiet grantCapMemory idle (leads calls (by rintro ⟨⟩) fun _ planned => planned) grantCapCallWires,.same grantCapMemory⟩
  | store va next =>
    unfold Booted.call
    dsimp only
    rw [calls]
    dsimp only
    split
    · exact ⟨h.quiet rfl idle (leads calls (by rintro ⟨⟩) fun _ planned => planned) fun j => ⟨rfl,rfl⟩,.same rfl⟩
    · rename_i faults
      have faults := Option.not_isSome_iff_eq_none.mp faults
      exact ⟨orderlyFault h coherent acting faults (unrequested va next calls faults),.same (pageFaultMemory acting.1)⟩
  | pick next =>
    unfold Booted.call
    dsimp only
    rw [calls]
    exact ⟨h,.same rfl⟩
  | again loop =>
    unfold Booted.call
    dsimp only
    rw [calls]
    exact ⟨h.quiet rfl idle Code.bodyLeads fun j => ⟨rfl,rfl⟩,.same rfl⟩
  | exit =>
    unfold Booted.call
    dsimp only
    rw [calls]
    have acting₁ : Acting (s.kernel.log (.syscall i (Code.exit.regs ptr))) i := acting
    exact ⟨orderlyDie (entered _) acting₁ (.inl rfl),.same (dieMemory acting₁)⟩

/-! The return of a context switch. -/

theorem orderlyResumeSend (h : s.Orderly) (coherent : Coherent s.kernel) (mode : s.kernel.mode = .resume)
    (current : s.kernel.current = some i) {caller : SendCaller} (saved : (s.kernel.threads i).saved = .send caller) :
    (s.resume junk).Orderly ∧ HeapStays s.kernel.memory (s.resume junk).kernel.memory := by
  have woken : ∀ {c : Code}, s.code i = c ∨ (s.code i).Leads c → Orderly ((s.kernel.onCpu i).ipcSendResume i) fun j => if j = i then c else s.code j := by
    intro c leads
    refine h.follow rfl (atOne (i := i) ?_ fun j other => ?_)
    · rw [faceResumeSend,if_pos rfl,if_pos rfl]
      exact .quiet (.inl rfl) (leads.imp_left Eq.symm)
    · rw [faceResumeSend,if_neg other,if_neg other]
      exact .refl
  have plain : Orderly ((s.kernel.onCpu i).ipcSendResume i) s.code := by
    have same : (fun j => if j = i then s.code i else s.code j) = s.code := funext fun j => ite_eq_right_iff.mpr fun own => own ▸ rfl
    exact same ▸ woken (.inl rfl)
  cases caller with
  | syscall =>
    have resumed : s.kernel.resume junk = ((s.kernel.onCpu i).ipcSendResume i).sysRet i (cword 0) := by
      unfold Kernel.resume
      rw [current]
      dsimp only
      rw [saved]
    unfold Booted.resume
    rw [current]
    dsimp only
    rw [saved,resumed]
    split
    · rename_i dest m next _ calls
      have tame : (Code.send dest m next).Tame := calls ▸ h.tame i
      have leads : (s.code i).Leads (next 0) := calls ▸ tame.leads (by rintro ⟨⟩) fun plan planned => planned.2 0
      exact ⟨(woken (.inr leads)).follow rfl fun j => .refl,.same rfl⟩
    · rename_i impossible _
      cases impossible
    · exact ⟨plain.follow rfl fun j => .refl,.same rfl⟩
  | fault =>
    have resumed : s.resume junk = { s with kernel := ((s.kernel.onCpu i).ipcSendResume i).faultRecv i junk } := by
      unfold Booted.resume Kernel.resume
      rw [current]
      dsimp only
      rw [saved]
    have move : Move s.kernel (.resume junk) s.kernel ((s.kernel.onCpu i).ipcSendResume i) := .resumeSend mode current saved
    have acting : Acting ((s.kernel.onCpu i).ipcSendResume i) i := ⟨rfl,current⟩
    rw [resumed]
    exact ⟨orderlyFaultRecv plain (moveCoherent coherent coherent move) acting,.same (faultRecvMemory acting)⟩

theorem orderlyResumeRecv (h : s.Orderly) (current : s.kernel.current = some i) {caller : RecvCaller} (saved : (s.kernel.threads i).saved = .recv caller) :
    (s.resume junk).Orderly ∧ HeapStays s.kernel.memory (s.resume junk).kernel.memory := by
  have returned := faceResumeRecv (k := s.kernel) (i := i) junk ⟨caller,saved⟩
  have memory : ((s.kernel.onCpu i).ipcRecvResume i junk).1.memory = s.kernel.memory := resumeMemory
  cases caller with
  | syscall rsi =>
    have outside : inFault (s.kernel.threads i) = false := by simp [inFault,saved]
    have waits : (∃ src, wire (s.kernel.threads i) = .receiving src) ∨ ∃ source m, wire (s.kernel.threads i) = .received source m := by
      obtain ⟨src,receiving,_⟩ | ⟨source,m,received,_⟩ := returned
      · exact .inl ⟨src,receiving⟩
      · exact .inr ⟨source,m,received⟩
    have recv := h.hears i ⟨outside,waits⟩
    obtain ⟨want,mark,next,calls⟩ : ∃ want mark next, s.code i = .recv want mark next := by
      cases calls : s.code i with
      | recv want mark next => exact ⟨want,mark,next,rfl⟩
      | _ => rw [calls] at recv; cases recv
    have resumed : ∀ k source m, (s.kernel.onCpu i).ipcRecvResume i junk = (k,source,m) →
        s.resume junk = { s with kernel := k.recvReturn i rsi source }.goOn i (next source m) := by
      intro k source m result
      unfold Booted.resume
      rw [current]
      dsimp only
      rw [saved,calls]
      dsimp only
      rw [result]
    have tame : (Code.recv want mark next).Tame := calls ▸ h.tame i
    generalize (s.kernel.onCpu i).ipcRecvResume i junk = result at returned memory resumed
    obtain ⟨k,source,m⟩ := result
    rw [resumed k source m rfl]
    obtain ⟨callTo,closed⟩ := faceReturn (k := k) (i := i) rsi source
    have kept : (k.recvReturn i rsi source).memory = s.kernel.memory := memory
    have after : (face ((k.recvReturn i rsi source).threads i)).wire = .idle ∧
        ∀ l, l ≠ i → face ((k.recvReturn i rsi source).threads l) = face (s.kernel.threads l) := by
      refine ⟨?_,fun l other => ?_⟩
      · rw [closed i,if_pos rfl]
        obtain ⟨_,_,_,faces⟩ | ⟨_,_,_,_,faces⟩ := returned
        all_goals
          rw [faces i,if_pos rfl]
      · rw [closed l,if_neg other]
        obtain ⟨_,_,_,faces⟩ | ⟨_,_,_,_,faces⟩ := returned
        all_goals exact (faces l).trans (if_neg other)
    have rest : ∀ l, l ≠ i → Onward (face (s.kernel.threads l)) (face ((k.recvReturn i rsi source).threads l)) (s.code l) (s.code l) := by
      intro l other
      rw [after.2 l other]
      exact .refl
    refine ⟨?_,.same kept⟩
    obtain ⟨src,_,result,_⟩ | ⟨source',m',received,result,_⟩ := returned
    · cases result
      exact h.goes kept after.1 (calls ▸ tame.signalled (by show msgIrq ≠ msgFault; decide)) rest
    · cases result
      have taken : inFlight (face ((k.recvReturn i rsi source).threads i)).wire = none := by
        rw [after.1]
        rfl
      exact h.gets (j := i) kept calls (congrArg inFlight received) taken after.1 rest
  | fault =>
    have resumed : s.resume junk =
        { s with kernel := ((s.kernel.onCpu i).ipcRecvResume i junk).1.faultVerdict i ((s.kernel.onCpu i).ipcRecvResume i junk).2.2 } := by
      unfold Booted.resume Kernel.resume
      rw [current]
      dsimp only
      rw [saved]
    have acting : Acting ((s.kernel.onCpu i).ipcRecvResume i junk).1 i := by
      unfold ipcRecvResume
      dsimp only
      split <;> exact ⟨rfl,current⟩
    have awake : Orderly ((s.kernel.onCpu i).ipcRecvResume i junk).1 s.code := by
      refine h.follow memory fun j => ?_
      obtain ⟨_,_,_,faces⟩ | ⟨_,_,_,_,faces⟩ := returned
      all_goals
        rw [faces j]
        split
        · exact .quiet (.inl rfl) (.inl rfl)
        · exact .refl
    rw [resumed]
    exact ⟨orderlyVerdict awake acting,.same ((verdictMemory acting).trans memory)⟩

theorem orderlyResume (h : s.Orderly) (coherent : Coherent s.kernel) (mode : s.kernel.mode = .resume) :
    (s.resume junk).Orderly ∧ HeapStays s.kernel.memory (s.resume junk).kernel.memory := by
  cases current : s.kernel.current with
  | none =>
    unfold Booted.resume Kernel.resume
    rw [current]
    exact ⟨h.follow rfl fun j => .refl,.same rfl⟩
  | some i =>
    cases saved : (s.kernel.threads i).saved with
    | send caller => exact orderlyResumeSend h coherent mode current saved
    | recv caller => exact orderlyResumeRecv h current saved
    | vacant | running | trampoline | tick | exited | killed =>
      have resumed : s.resume junk = { s with kernel := s.kernel.onCpu i } := by
        unfold Booted.resume Kernel.resume
        rw [current]
        dsimp only
        rw [saved]
      rw [resumed]
      refine ⟨h.follow rfl fun j => ?_,.same rfl⟩
      rw [faceOnCpu (by simp [wire,saved]) (by simp [inFault,saved])]
      exact .refl

end
end Mukern
