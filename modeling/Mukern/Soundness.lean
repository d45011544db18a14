import Mukern.Conformance
import Mukern.Faces
import Mukern.Upbringing

/-! The booted system keeps to the protocol. Every thread has a stage to which its
program, its record in the kernel and the threads it depends on fit; the lemmas here
say so of each thing that can happen to one or two threads. -/
namespace Mukern
open Kernel Rendezvous

/- What the protocol is about in a state of the booted system. -/
structure Config where
  prog : Slot → Fin 12
  code : Slot → Code
  face : Slot → Face
  pager : Int
  lines : Fin 16 → Int

/- Thread `i` gets another face and goes on with `code`. -/
def Config.put (c : Config) (i : Slot) (f : Face) (code : Code) : Config :=
  { c with
    face := fun j => if j = i then f else c.face j
    code := fun j => if j = i then code else c.code j }

/- Whether the kernel lets a send of thread `i` through to a thread that lives. -/
def Config.Admits (c : Config) (i : Slot) (dest : Int) : Prop :=
  ∃ d, dest = tid d ∧ (c.face d).presence = .live ∧
    (i = 0 ∨ d = 0 ∨ (c.face i).table.hasEndpoint dest ∨ (c.face d).callTo = tid i)

section
variable (ok : Word → Prop)

/- How the record of a thread and its program stand to its stage. Init alone takes
page faults: the kernel then asks the pager for it. -/
inductive Linked (p : Fin 12) (f : Face) (code : Code) (a : Stage) : Prop where
  | idle (wire : f.wire = .idle) (outside : f.fault = false) (conforms : code.Conforms ok p a)
  | sending {dest m next taken refused} (wire : f.wire = .sending dest m) (outside : f.fault = false) (call : f.callTo = dest)
      (calls : code = .send dest m next) (sends : Sends ok p a dest m taken refused) (go : (next 0).Conforms ok p taken)
  | sent {dest m next} (wire : f.wire = .sent) (outside : f.fault = false) (calls : code = .send dest m next)
      (go : (next 0).Conforms ok p a)
  | receiving {src mark next} (wire : f.wire = .receiving src) (outside : f.fault = false) (calls : code = .recv src mark next)
      (listens : Listens p a src mark) (go : ∀ source m b, Hears ok p a source m b → (next source m).Conforms ok p b)
  | received {source m src mark next} (wire : f.wire = .received source m) (outside : f.fault = false)
      (calls : code = .recv src mark next) (idle : a.asked = none) (go : (next source m).Conforms ok p a)
  | faulting {n m} (wire : f.wire = .sending (tid 3) m) (fault : f.fault = true) (stage : a = .boot n none)
      (sends : Sends ok p a (tid 3) m (.boot n (some (.plain 3))) none) (go : code.Conforms ok p a)
  | faulted {n} (wire : f.wire = .sent ∨ f.wire = .receiving (tid 3)) (fault : f.fault = true)
      (stage : a = .boot n (some (.plain 3))) (go : code.Conforms ok p (.boot n none))
  | pardoned {n source m} (wire : f.wire = .received source m) (fault : f.fault = true) (stage : a = .boot n none)
      (pardon : m.data0 = 0) (go : code.Conforms ok p a)

/- The slots of the two terminals, once they are released. -/
def Terminal (σ : Stage) (i : Slot) : Prop := (i = 1 ∨ i = 6) ∧ i.val ≤ σ.index

structure Fit (σ : Stage) (i : Slot) (p : Fin 12) (f : Face) (code : Code) (a : Stage) : Prop where
  live : f.presence = .live ↔ a ≠ .gone
  linked : a ≠ .gone → Linked ok p f code a
  call : ∀ o, a.asked = some o → i ≠ 0 → f.callTo = tid o.server
  pending : f.pending ≠ 0 → Terminal σ i

/- The pager has registered before it announces itself. -/
def Registered (φ : Slot → Stage) : Prop := φ 3 = .fresh true ∨ φ 3 = .told ∨ 3 ≤ (φ 0).index

structure Sound (stray : Prop) (φ : Slot → Stage) (c : Config) : Prop where
  pact : Pact stray φ c.prog fun i => (c.face i).table
  fit : ∀ i, Fit ok (φ 0) i (c.prog i) (c.face i) (c.code i) (φ i)
  pager : Registered φ → c.pager = 3
  lines : ∀ line d, c.lines line = tid d → Terminal (φ 0) d

end

/- A shell asks the terminal of the other session. -/
def Astray (p : Fin 12) (dest : Int) : Prop := p = progShell2 ∧ dest = conTid ∨ p = progShell ∧ dest = vgaTid
instance (p : Fin 12) (dest : Int) : Decidable (Astray p dest) := by unfold Astray; infer_instance

section
variable {stray : Prop} {ok : Word → Prop} {φ : Slot → Stage} {c c' : Config} {i j k : Slot} {a b σ : Stage} {p : Fin 12}
  {f g : Face} {code : Code} {dest src source : Int} {mark : Option Int} {m : IpcMsg} {refused : Option Stage} {o : Outstanding}

/-! What the stages say of a send and of a receive. -/

theorem Sends.idle (sends : Sends ok p a dest m b refused) : a.asked = none := by cases sends <;> rfl

theorem Sends.asked (sends : Sends ok p a dest m b refused) (asked : b.asked = some o) : dest = tid o.server := by
  cases sends <;> cases asked <;> rfl

theorem Sends.present (sends : Sends ok p a dest m b refused) : a ≠ .gone ∧ b ≠ .gone := by
  cases sends <;> exact ⟨nofun,nofun⟩

theorem Sends.index (sends : Sends ok p a dest m b refused) : a.index ≤ b.index := by
  cases sends <;> first | exact le_rfl | exact Nat.le_succ _

theorem Sends.grown (sends : Sends ok p a dest m b refused) : b ≠ .fresh true ∧ (b = .told → a = .fresh true) := by
  cases sends <;> exact ⟨nofun,by simp⟩

theorem Hears.idle (hears : Hears ok p a source m b) : b.asked = none := by cases hears <;> rfl

theorem Hears.present (hears : Hears ok p a source m b) : a ≠ .gone ∧ b ≠ .gone := by
  cases hears <;> exact ⟨nofun,nofun⟩

theorem Hears.index (hears : Hears ok p a source m b) : b.index = a.index := by cases hears <;> rfl

theorem Hears.grown (hears : Hears ok p a source m b) : b ≠ .fresh true ∧ b ≠ .told := by
  cases hears <;> exact ⟨nofun,nofun⟩

theorem Terminal.grow {σ' : Stage} (terminal : Terminal σ i) (grow : σ.index ≤ σ'.index) : Terminal σ' i :=
  ⟨terminal.1,terminal.2.trans grow⟩

theorem Fit.grow {σ' : Stage} (fit : Fit ok σ i p f code a) (grow : σ.index ≤ σ'.index) : Fit ok σ' i p f code a :=
  { fit with pending := fun pending => (fit.pending pending).grow grow }

theorem Linked.listens (linked : Linked ok p f code a) (wire : f.wire = .receiving src) : ∃ mark, Listens p a src mark := by
  cases linked with
  | receiving wire' outside calls listens go =>
    cases wire.symm.trans wire'
    exact ⟨_,listens⟩
  | faulted wire' fault stage go =>
    obtain sent | receiving := wire'
    · cases wire.symm.trans sent
    · cases wire.symm.trans receiving
      rw [stage]
      exact ⟨_,.root (a := .plain 3)⟩
  | idle wire' | sending wire' | sent wire' | received wire' | faulting wire' | pardoned wire' => cases wire.symm.trans wire'

theorem Linked.hears (linked : Linked ok p f code a) (wire : f.wire = .receiving src) (heard : Hears ok p a source m b) :
    Linked ok p { f with wire := .received source m } code b := by
  cases linked with
  | receiving wire' outside calls listens go => exact .received rfl outside calls heard.idle (go source m b heard)
  | faulted wire' fault stage go =>
    subst stage
    cases heard with
    | root pardon => exact .pardoned rfl fault rfl (pardon rfl) go
  | idle wire' | sending wire' | sent wire' | received wire' | faulting wire' | pardoned wire' => cases wire.symm.trans wire'

theorem Linked.offers (linked : Linked ok p f code a) (wire : f.wire = .sending dest m) : ∃ taken refused,
    Sends ok p a dest m taken refused ∧ Linked ok p { f with wire := .sent } code taken ∧
      ∀ o, taken.asked = some o → ¬ a.boots → f.callTo = tid o.server := by
  cases linked with
  | sending wire' outside call calls sends go =>
    cases wire.symm.trans wire'
    exact ⟨_,_,sends,.sent rfl outside calls go,fun o asked _ => call.trans (sends.asked asked)⟩
  | faulting wire' fault stage sends go =>
    cases wire.symm.trans wire'
    subst stage
    exact ⟨_,_,sends,.faulted (.inl rfl) fault rfl go,fun o _ young => absurd trivial young⟩
  | faulted wire' =>
    obtain sent | receiving := wire'
    · cases wire.symm.trans sent
    · cases wire.symm.trans receiving
  | idle wire' | sent wire' | receiving wire' | received wire' | pardoned wire' => cases wire.symm.trans wire'

/-! Frames. -/

theorem Sound.linked (h : Sound ok stray φ c) (live : (c.face i).presence = .live) :
    φ i ≠ .gone ∧ Linked ok (c.prog i) (c.face i) (c.code i) (φ i) := by
  have present := (h.fit i).live.mp live
  exact ⟨present,(h.fit i).linked present⟩

/- Two threads change; the others stay as they are. -/
theorem Sound.change (h : Sound ok stray φ c) (other : i ≠ j) (pact : Pact stray (both φ i a j b) c'.prog fun k => (c'.face k).table)
    (own : Fit ok (φ 0) i (c'.prog i) (c'.face i) (c'.code i) a) (peer : Fit ok (φ 0) j (c'.prog j) (c'.face j) (c'.code j) b)
    (rest : ∀ k, k ≠ i → k ≠ j → c'.prog k = c.prog k ∧ c'.face k = c.face k ∧ c'.code k = c.code k)
    (index : (φ 0).index ≤ (both φ i a j b 0).index) (pager : Registered (both φ i a j b) → c'.pager = 3)
    (lines : ∀ line d, c'.lines line = tid d → Terminal (φ 0) d) : Sound ok stray (both φ i a j b) c' := by
  refine ⟨pact,fun k => ?_,pager,fun line d named => (lines line d named).grow index⟩
  by_cases atPeer : k = j
  · subst atPeer
    rw [bothPeer]
    exact peer.grow index
  · by_cases atOwn : k = i
    · subst atOwn
      rw [bothOwn other]
      exact own.grow index
    · obtain ⟨prog,face,code⟩ := rest k atOwn atPeer
      rw [bothRest atOwn atPeer,prog,face,code]
      exact (h.fit k).grow index

theorem soundOne (pact : Pact stray (one φ i a) c'.prog fun k => (c'.face k).table)
    (own : Fit ok (φ 0) i (c'.prog i) (c'.face i) (c'.code i) a)
    (rest : ∀ k, k ≠ i → Fit ok (φ 0) k (c'.prog k) (c'.face k) (c'.code k) (φ k))
    (index : (φ 0).index ≤ (one φ i a 0).index) (pager : Registered (one φ i a) → c'.pager = 3)
    (lines : ∀ line d, c'.lines line = tid d → Terminal (φ 0) d) : Sound ok stray (one φ i a) c' := by
  refine ⟨pact,fun k => ?_,pager,fun line d named => (lines line d named).grow index⟩
  by_cases atOwn : k = i
  · subst atOwn
    rw [oneOwn]
    exact own.grow index
  · rw [oneRest atOwn]
    exact (rest k atOwn).grow index

theorem putTables (table : f.table = (c.face i).table) : (fun k => ((c.put i f code).face k).table) = fun k => (c.face k).table := by
  funext k
  simp only [Config.put]
  split
  · rename_i own
    rw [own,table]
  · rfl

/- One thread changes and stays at its stage. -/
theorem Sound.keep (h : Sound ok stray φ c) (table : f.table = (c.face i).table) (fit : Fit ok (φ 0) i (c.prog i) f code (φ i)) :
    Sound ok stray φ (c.put i f code) := by
  refine ⟨by rw [putTables table]; exact h.pact,fun k => ?_,h.pager,h.lines⟩
  by_cases atOwn : k = i
  · subst atOwn
    simpa [Config.put] using fit
  · simpa [Config.put,atOwn] using h.fit k

/-! What happens in a rendezvous. -/

/- A thread that the kernel works for is about to make its next call. -/
theorem Sound.ready (h : Sound ok stray φ c) (live : (c.face i).presence = .live) (idle : (c.face i).wire = .idle)
    (outside : (c.face i).fault = false) : (c.code i).Conforms ok (c.prog i) (φ i) := by
  obtain ⟨_,linked⟩ := h.linked live
  cases linked with
  | idle wire outside conforms => exact conforms
  | sending wire | sent wire | receiving wire | received wire => cases idle.symm.trans wire
  | faulting wire fault | faulted wire fault | pardoned wire fault => simp [outside] at fault

theorem Sound.stage (h : Sound ok stray φ c) {next} (live : (c.face i).presence = .live) (idle : (c.face i).wire = .idle)
    (outside : (c.face i).fault = false) (calls : c.code i = .send dest m next) :
    Sound ok stray φ (c.put i { c.face i with wire := .sending dest m, fault := false, callTo := dest } (c.code i)) := by
  have conforms := h.ready live idle outside
  rw [calls] at conforms
  obtain ⟨taken,refused,sends,go,_⟩ := conforms
  refine h.keep rfl ⟨(h.fit i).live,fun _ => .sending rfl rfl rfl calls sends go,fun o asked => ?_,(h.fit i).pending⟩
  rw [sends.idle] at asked
  cases asked

theorem Sound.await (h : Sound ok stray φ c) {next} (live : (c.face i).presence = .live) (idle : (c.face i).wire = .idle)
    (outside : (c.face i).fault = false) (calls : c.code i = .recv src mark next) :
    Sound ok stray φ (c.put i { c.face i with wire := .receiving src, fault := false } (c.code i)) := by
  have conforms := h.ready live idle outside
  rw [calls] at conforms
  exact h.keep rfl ⟨(h.fit i).live,fun _ => .receiving rfl rfl calls conforms.1 conforms.2,(h.fit i).call,(h.fit i).pending⟩

/- A rendezvous keeps the pager registered. -/
theorem Registered.meet (h : Pact stray φ c.prog fun k => (c.face k).table) (other : i ≠ j)
    (sends : Sends ok (c.prog i) (φ i) dest m a refused) (heard : Hears ok (c.prog j) (φ j) source m b)
    (named : dest = tid j) (registered : Registered (both φ i a j b)) : Registered φ := by
  have root : 3 ≤ (both φ i a j b 0).index → Registered φ := by
    intro late
    by_cases atPeer : 0 = j
    · subst atPeer
      rw [bothPeer] at late
      exact .inr (.inr (heard.index ▸ late))
    · by_cases atOwn : 0 = i
      · subst atOwn
        rw [bothOwn other] at late
        generalize stage : φ 0 = σ at sends
        cases sends with
        | @release n child table m granted =>
          obtain rfl := tidInj named
          have raised := h.children 0 child (by rw [stage]; rfl)
          rw [stage] at raised
          have settled := h.settled child
          rw [show φ child = .told from raised,stage] at settled
          obtain ⟨_,same,_,placed⟩ := settled
          cases same
          by_cases early : n = 2
          · subst early
            obtain ⟨_,place⟩ | ⟨absurd',_⟩ := placed
            · have third : child = 3 := Fin.ext place
              subst third
              exact .inr (.inl raised)
            · omega
          · simp only [Stage.index] at late
            refine .inr (.inr ?_)
            rw [stage]
            simp only [Stage.index]
            omega
        | _ =>
          refine .inr (.inr ?_)
          rw [stage]
          exact late
      · rw [bothRest atOwn atPeer] at late
        exact .inr (.inr late)
  obtain fresh | told | late := registered
  · by_cases atPeer : 3 = j
    · subst atPeer
      rw [bothPeer] at fresh
      exact absurd fresh heard.grown.1
    · by_cases atOwn : 3 = i
      · subst atOwn
        rw [bothOwn other] at fresh
        exact absurd fresh sends.grown.1
      · rw [bothRest atOwn atPeer] at fresh
        exact .inl fresh
  · by_cases atPeer : 3 = j
    · subst atPeer
      rw [bothPeer] at told
      exact absurd told heard.grown.2
    · by_cases atOwn : 3 = i
      · subst atOwn
        rw [bothOwn other] at told
        exact .inl (sends.grown.2 told)
      · rw [bothRest atOwn atPeer] at told
        exact .inr (.inl told)
  · exact root late

/- A message passes. -/
theorem Sound.meet (h : Sound ok stray φ c) (other : i ≠ j) (lives : (c.face i).presence = .live ∧ (c.face j).presence = .live)
    (sending : (c.face i).wire = .sending (tid j) m) (receiving : (c.face j).wire = .receiving src)
    (accepts : src = -1 ∨ src = tid i) : ∃ φ', Sound ok stray φ' ((c.put i { c.face i with wire := .sent } (c.code i)).put j
      { c.face j with wire := .received (tid i) m } (c.code j)) := by
  obtain ⟨present,own⟩ := h.linked lives.1
  obtain ⟨present',peer⟩ := h.linked lives.2
  obtain ⟨a,refused,sends,sent,call⟩ := own.offers sending
  obtain ⟨mark,listens⟩ := peer.listens receiving
  obtain ⟨b,heard,pact⟩ := h.pact.meet other sends listens accepts
  have tables : (fun k => (((c.put i { c.face i with wire := .sent } (c.code i)).put j
      { c.face j with wire := .received (tid i) m } (c.code j)).face k).table) = fun k => (c.face k).table := by
    funext k
    simp only [Config.put]
    split
    · rename_i same
      rw [same]
    · split
      · rename_i same
        rw [same]
      · rfl
  refine ⟨both φ i a j b,h.change other (by rw [tables]; exact pact) ?_ ?_ (fun k atOwn atPeer => ?_) ?_
    (fun registered => h.pager (registered.meet h.pact other sends heard rfl)) h.lines⟩
  · simp only [Config.put,if_neg other,if_true]
    refine ⟨⟨fun _ => sends.present.2,fun _ => lives.1⟩,fun _ => sent,fun o asked notRoot => ?_,(h.fit i).pending⟩
    exact call o asked fun boots => notRoot (h.pact.rootOnly boots)
  · simp only [Config.put,if_true]
    refine ⟨⟨fun _ => heard.present.2,fun _ => lives.2⟩,fun _ => peer.hears receiving heard,fun o asked => ?_,(h.fit j).pending⟩
    rw [heard.idle] at asked
    cases asked
  · simp [Config.put,atOwn,atPeer]
  · by_cases atPeer : 0 = j
    · subst atPeer
      rw [bothPeer]
      exact heard.index.ge
    · by_cases atOwn : 0 = i
      · subst atOwn
        rw [bothOwn other]
        exact sends.index
      · rw [bothRest atOwn atPeer]

theorem Sound.sent (h : Sound ok stray φ c) {next} (live : (c.face i).presence = .live) (sent : (c.face i).wire = .sent)
    (outside : (c.face i).fault = false) (calls : c.code i = .send dest m next) :
    Sound ok stray φ (c.put i { c.face i with wire := .idle, fault := false } (next 0)) := by
  obtain ⟨_,linked⟩ := h.linked live
  refine h.keep rfl ⟨(h.fit i).live,fun _ => ?_,(h.fit i).call,(h.fit i).pending⟩
  cases linked with
  | sent wire outside calls' go =>
    cases calls.symm.trans calls'
    exact .idle rfl rfl go
  | idle wire | sending wire | receiving wire | received wire => cases sent.symm.trans wire
  | faulting wire fault | faulted wire fault | pardoned wire fault => simp [outside] at fault

theorem Sound.got (h : Sound ok stray φ c) {next} (callTo : Int) (live : (c.face i).presence = .live)
    (received : (c.face i).wire = .received source m) (outside : (c.face i).fault = false) (calls : c.code i = .recv src mark next) :
    Sound ok stray φ (c.put i { c.face i with wire := .idle, fault := false, callTo := callTo } (next source m)) := by
  obtain ⟨_,linked⟩ := h.linked live
  cases linked with
  | received wire outside calls' idle go =>
    cases calls.symm.trans calls'
    cases received.symm.trans wire
    refine h.keep rfl ⟨(h.fit i).live,fun _ => .idle rfl rfl go,fun o asked => ?_,(h.fit i).pending⟩
    rw [idle] at asked
    cases asked
  | idle wire | sending wire | sent wire | receiving wire => cases received.symm.trans wire
  | faulting wire fault | faulted wire fault | pardoned wire fault => simp [outside] at fault

/- A terminal is in service, and receives at its loop only. -/
theorem Pact.terminal {prog : Slot → Fin 12} {table : Slot → CTable} (h : Pact stray φ prog table) (terminal : Terminal (φ 0) i)
    (listens : Listens (prog i) (φ i) src mark) : (home (prog i) = some 1 ∨ home (prog i) = some 6) ∧ ∃ reader, φ i = .work none reader none := by
  obtain ⟨slot,released⟩ := terminal
  obtain ⟨serves,place⟩ : (φ i).serves ∧ home (prog i) = some i := by
    obtain rfl | rfl := slot <;> exact h.serving (by decide) (by decide) released
  refine ⟨by obtain rfl | rfl := slot <;> simp [place],?_⟩
  have alone : ∀ o, (φ i).asked = some o → False := by
    intro o asked
    have member := (h.fits asked).member
    generalize prog i = q at place member
    obtain rfl | rfl := slot
    · revert place member
      generalize o.server = s
      revert q s
      decide +kernel
    · revert place member
      generalize o.server = s
      revert q s
      decide +kernel
  have notRoot : i ≠ 0 := by obtain rfl | rfl := slot <;> decide
  generalize stage : φ i = σ at listens serves
  cases listens with
  | serve place => exact ⟨_,rfl⟩
  | answer => exact (alone _ (by rw [stage]; rfl)).elim
  | _ => exact absurd serves id

/- An interrupt ends a receive. -/
theorem Sound.signal (h : Sound ok stray φ c) {next} (callTo : Int) (junk : IpcMsg) (n : Nat) (live : (c.face i).presence = .live)
    (receiving : (c.face i).wire = .receiving src) (outside : (c.face i).fault = false) (calls : c.code i = .recv src mark next)
    (pending : (c.face i).pending ≠ 0) : Sound ok stray φ (c.put i
      { c.face i with wire := .idle, fault := false, callTo := callTo, pending := n } (next ipcIrqSender (irqMsg junk))) := by
  obtain ⟨_,linked⟩ := h.linked live
  have terminal := (h.fit i).pending pending
  cases linked with
  | receiving wire outside calls' listens go =>
    cases calls.symm.trans calls'
    obtain ⟨place,reader,stage⟩ := h.pact.terminal terminal listens
    have heard : Hears ok (c.prog i) (φ i) ipcIrqSender (irqMsg junk) (φ i) := by
      rw [stage]
      exact .irq place
    refine h.keep rfl ⟨(h.fit i).live,fun _ => .idle rfl rfl (go _ _ _ heard),fun o asked => ?_,fun _ => terminal⟩
    rw [heard.idle] at asked
    cases asked
  | idle wire | sending wire | sent wire | received wire => cases receiving.symm.trans wire
  | faulting wire fault | faulted wire fault | pardoned wire fault => simp [outside] at fault

end
end Mukern
