import Mukern.Soundness

/-! What one thread of the booted system does alone: a send that the kernel refuses,
the calls that bring up a child, and the page faults of init. -/
namespace Mukern
open Kernel Rendezvous

section
variable {stray : Prop} {ok : Word → Prop} {φ : Slot → Stage} {c c' : Config} {i j k child : Slot} {a b σ : Stage} {p : Fin 12}
  {f g : Face} {code : Code} {dest src source : Int} {m : IpcMsg} {refused : Option Stage} {t : CTable}

theorem Linked.same (linked : Linked ok p f code a) (wire : g.wire = f.wire) (fault : g.fault = f.fault)
    (call : g.callTo = f.callTo) : Linked ok p g code a := by
  cases linked with
  | idle wire' outside conforms => exact .idle (wire.trans wire') (fault.trans outside) conforms
  | sending wire' outside call' calls sends go => exact .sending (wire.trans wire') (fault.trans outside) (call.trans call') calls sends go
  | sent wire' outside calls go => exact .sent (wire.trans wire') (fault.trans outside) calls go
  | receiving wire' outside calls listens go => exact .receiving (wire.trans wire') (fault.trans outside) calls listens go
  | received wire' outside calls idle go => exact .received (wire.trans wire') (fault.trans outside) calls idle go
  | faulting wire' fault' stage sends go => exact .faulting (wire.trans wire') (fault.trans fault') stage sends go
  | faulted wire' fault' stage go => exact .faulted (wire ▸ wire') (fault.trans fault') stage go
  | pardoned wire' fault' stage pardon go => exact .pardoned (wire.trans wire') (fault.trans fault') stage pardon go

theorem Sound.present (h : Sound ok stray φ c) (present : φ j ≠ .gone) : (c.face j).presence = .live := (h.fit j).live.mpr present

theorem Stage.serves.present (serves : a.serves) : a ≠ .gone := by
  rintro rfl
  exact serves

/- A call that changes nothing of the thread's own record. -/
theorem Sound.goOn (h : Sound ok stray φ c) (idle : (c.face i).wire = .idle) (outside : (c.face i).fault = false)
    (conforms : code.Conforms ok (c.prog i) (φ i)) : Sound ok stray φ (c.put i (c.face i) code) :=
  h.keep rfl ⟨(h.fit i).live,fun _ => .idle idle outside conforms,(h.fit i).call,(h.fit i).pending⟩

/- One thread takes a new stage and keeps its capabilities. -/
theorem Sound.alone (h : Sound ok stray φ c) (pact : Pact stray (one φ i a) c.prog fun k => (c.face k).table)
    (table : f.table = (c.face i).table) (fit : Fit ok (φ 0) i (c.prog i) f code a) (index : (φ 0).index ≤ (one φ i a 0).index)
    (registered : Registered (one φ i a) → Registered φ) : Sound ok stray (one φ i a) (c.put i f code) := by
  refine soundOne (by rw [putTables table]; exact pact) (by simpa [Config.put] using fit) (fun k other => ?_) index
    (fun now => h.pager (registered now)) h.lines
  simpa [Config.put,other] using h.fit k

/- The pager is no further than before. -/
theorem registeredOne (adult : a ≠ .fresh true ∧ a ≠ .told) (index : 3 ≤ (one φ i a 0).index → 3 ≤ (φ 0).index)
    (registered : Registered (one φ i a)) : Registered φ := by
  by_cases own : i = 3
  · subst own
    obtain fresh | told | late := registered
    · exact absurd (oneOwn.symm.trans fresh) adult.1
    · exact absurd (oneOwn.symm.trans told) adult.2
    · exact .inr (.inr (index late))
  · obtain fresh | told | late := registered
    · exact .inl ((oneRest (Ne.symm own)).symm.trans fresh)
    · exact .inr (.inl ((oneRest (Ne.symm own)).symm.trans told))
    · exact .inr (.inr (index late))

/- A thread whose start is behind it goes on; init stays where it is. -/
theorem Sound.grown (h : Sound ok stray φ c) (pact : Pact stray (one φ i a) c.prog fun k => (c.face k).table)
    (table : f.table = (c.face i).table) (fit : Fit ok (φ 0) i (c.prog i) f code a) (notRoot : i ≠ 0)
    (adult : a ≠ .fresh true ∧ a ≠ .told) : Sound ok stray (one φ i a) (c.put i f code) := by
  have root : one φ i a 0 = φ 0 := oneRest (Ne.symm notRoot)
  exact h.alone pact table fit (by rw [root]) (registeredOne adult (by rw [root]; exact id))

/-! A refused send. -/

theorem missingAstray {s : Slot} (member : s ∈ asks p) (missing : s ∉ endpoints p) (shell : IsShell p) : Astray p (tid s) := by
  revert s p
  decide

theorem missingVga (shell : IsShell p) (missing : 6 ∉ endpoints p) : Astray p 6 := by
  revert p
  decide

/- What a working thread asks the servers it has a capability for is let through. -/
theorem Sound.granted (h : Sound ok stray φ c) {s : Slot} (working : Working (φ 0) i (c.prog i) (c.face i).table)
    (member : s ∈ endpoints (c.prog i)) (serves : (φ s).serves) : c.Admits i (tid s) :=
  ⟨s,rfl,h.present serves.present,.inr (.inr (.inl (working.held s member)))⟩

/- The kernel lets replies, and whatever init says, through. -/
theorem Sound.answered (h : Sound ok stray φ c) {o : Outstanding} (asked : (φ j).asked = some o) (server : o.server = i) :
    c.Admits i (tid j) := by
  subst server
  refine ⟨j,rfl,h.present fun gone => ?_,.inr ?_⟩
  · rw [gone] at asked
    cases asked
  · by_cases root : j = 0
    · exact .inl root
    · exact .inr (.inr ((h.fit j).call o asked root))

theorem Sound.refusable (h : Sound ok stray φ c) (sends : Sends ok (c.prog i) (φ i) dest m a refused)
    (denied : ¬ c.Admits i dest) (straight : stray ∨ ¬ Astray (c.prog i) dest) :
    ∃ ψ : Stage, refused = some ψ ∧ ((∃ d, ψ = .lost d (-1)) → stray) := by
  have missing : ∀ {s : Slot} {client reader}, φ i = .work client reader none → s ∈ asks (c.prog i) → dest = tid s →
      ∃ ψ : Stage, (if s ∈ endpoints (c.prog i) then none else some (.lost s (-1))) = some ψ ∧ ((∃ d, ψ = .lost d (-1)) → stray) := by
    rintro s client reader stage member rfl
    have working := h.pact.workingAt stage
    have held : s ∉ endpoints (c.prog i) := fun held => denied (h.granted working held (h.pact.asked working member).1)
    refine ⟨.lost s (-1),if_neg held,fun _ => straight.resolve_right (not_not_intro (missingAstray member held ?_))⟩
    exact (strayShell member held).resolve_left working.notInit
  generalize stage : φ i = σ at sends
  cases sends with
  | announce =>
    have root := h.pact.root
    exact absurd ⟨0,rfl,h.present (fun gone => by rw [gone] at root; exact root),.inr (.inl rfl)⟩ denied
  | @release n child table m granted =>
    obtain rfl := h.pact.rootOnly (i := i) (by rw [stage]; trivial)
    have told := h.pact.children 0 child (by rw [stage]; rfl)
    rw [stage] at told
    refine absurd ⟨child,rfl,h.present ?_,.inl rfl⟩ denied
    rw [show φ child = .told from told]
    exact fun gone => by cases gone
  | hatch => exact ⟨_,rfl,by rintro ⟨_,⟨⟩⟩⟩
  | reply => exact absurd (h.answered (h.pact.debts.owed (.plain i) _ (by rw [Outstanding.server,stage]; rfl)) rfl) denied
  | line => exact absurd (h.answered (h.pact.debts.owed (.line i) _ (by rw [Outstanding.server,stage]; rfl)) rfl) denied
  | plain member => exact missing stage member rfl
  | askLine member => exact missing stage member rfl
  | @boot n s m member up =>
    obtain rfl := h.pact.rootOnly (i := i) (by rw [stage]; trivial)
    have serves := (h.pact.serving (i := s) (asksServer member).1 (asksServer member).2 (by rw [stage]; exact up)).1
    exact absurd ⟨s,rfl,h.present serves.present,.inl rfl⟩ denied
  | vputs shell =>
    have working := h.pact.workingAt stage
    have serves := (h.pact.serving (i := 6) (by decide) (by decide) (le_trans (by decide) (working.shell shell).1)).1
    have held : 6 ∉ endpoints (c.prog i) := fun held => denied (h.granted working held serves)
    exact ⟨.lost 6 (-1),if_neg held,fun _ => straight.resolve_right (not_not_intro (missingVga shell held))⟩
  | probe => exact ⟨_,rfl,by rintro ⟨_,⟨⟩⟩⟩

theorem Sends.refusedStage (sends : Sends ok p a dest m b (some σ)) :
    σ ≠ .gone ∧ σ.asked = none ∧ (σ ≠ .fresh true ∧ σ ≠ .told) ∧ ¬ a.boots := by
  generalize answer : some σ = refused at sends
  cases sends with
  | hatch | probe =>
    cases answer
    exact ⟨nofun,rfl,⟨nofun,nofun⟩,id⟩
  | plain | askLine | vputs =>
    split at answer
    · cases answer
    · cases answer
      exact ⟨nofun,rfl,⟨nofun,nofun⟩,id⟩
  | _ => cases answer

theorem Sound.denied (h : Sound ok stray φ c) {next} (callTo : Int) (live : (c.face i).presence = .live)
    (idle : (c.face i).wire = .idle) (outside : (c.face i).fault = false) (calls : c.code i = .send dest m next)
    (denied : ¬ c.Admits i dest) (straight : stray ∨ ¬ Astray (c.prog i) dest) :
    ∃ φ', Sound ok stray φ' (c.put i { c.face i with callTo := callTo } (next (-1))) := by
  have conforms := h.ready live idle outside
  rw [calls] at conforms
  obtain ⟨taken,refused,sends,_,go⟩ := conforms
  obtain ⟨ψ,rfl,refusable⟩ := h.refusable sends denied straight
  obtain ⟨present,quiet,adult,notRoot⟩ := sends.refusedStage
  refine ⟨one φ i ψ,h.grown (h.pact.refuse sends refusable) rfl ⟨⟨fun _ => present,fun _ => live⟩,fun _ => ?_,fun o asked => ?_,
    (h.fit i).pending⟩ (h.pact.notRoot notRoot) adult⟩
  · exact .idle idle outside (go ψ rfl)
  · rw [quiet] at asked
    cases asked

/-! Registration. -/

/- The pager registers. -/
theorem Sound.setPager (h : Sound ok stray φ c) {next} (live : (c.face i).presence = .live)
    (idle : (c.face i).wire = .idle) (outside : (c.face i).fault = false) (calls : c.code i = .setPager next) :
    ∃ φ', Sound ok stray φ' { c.put i (c.face i) next with pager := tid i } := by
  have conforms := h.ready live idle outside
  rw [calls] at conforms
  obtain ⟨stage,pager,go⟩ := conforms
  have settled := h.pact.settled i
  rw [stage] at settled
  obtain ⟨n,expects,serves,_,placed⟩ := settled
  have root := h.pact.settled 0
  rw [expects] at root
  have second : n = 2 := by
    have slots : ∀ n < 8, service n = progVm → n = 2 := by decide
    exact slots n root.2.2 (serves.symm.trans pager)
  have third : i = 3 := by
    obtain ⟨_,place⟩ | ⟨late,_⟩ := placed
    · exact Fin.ext (by rw [place,second]; rfl)
    · omega
  subst third
  have root : one φ 3 (.fresh true) 0 = φ 0 := oneRest (by decide)
  have tables : (fun k => ((c.put 3 (c.face 3) next).face k).table) = fun k => (c.face k).table := putTables rfl
  refine ⟨one φ 3 (.fresh true),soundOne ?_ ?_ (fun k other => ?_) (by rw [root]) (fun _ => rfl) h.lines⟩
  · change Pact stray _ c.prog fun k => ((c.put 3 (c.face 3) next).face k).table
    rw [tables]
    exact h.pact.register stage
  · refine ⟨⟨fun _ => nofun,fun _ => ?_⟩,fun _ => .idle ?_ ?_ ?_,nofun,?_⟩
    all_goals simp only [Config.put,if_true]
    · exact live
    · exact idle
    · exact outside
    · exact go
    · exact (h.fit 3).pending
  · simpa [Config.put,other] using h.fit k

/- A terminal registers for its interrupt line. -/
theorem Sound.irqRegister (h : Sound ok stray φ c) {line next} (live : (c.face i).presence = .live)
    (idle : (c.face i).wire = .idle) (outside : (c.face i).fault = false) (calls : c.code i = .irqRegister line next) :
    Sound ok stray φ { c.put i (c.face i) next with lines := fun n => if n = line then tid i else c.lines n } := by
  have conforms := h.ready live idle outside
  rw [calls] at conforms
  obtain ⟨stage,terminal,go⟩ := conforms
  have kept := h.goOn idle outside go
  refine ⟨kept.pact,kept.fit,kept.pager,fun n d named => ?_⟩
  dsimp only at named
  split at named
  · obtain rfl := tidInj named
    obtain ⟨place,released⟩ | ⟨client,_⟩ := (h.pact.workingAt stage).place
    · rw [place] at terminal
      refine ⟨?_,released⟩
      simpa using terminal
    · obtain console | vga := Code.terminalProg terminal
      · rw [console] at client
        exact absurd client (by decide)
      · rw [vga] at client
        exact absurd client (by decide)
  · exact h.lines n d named

/-! Capabilities. -/

/- Thread `child` holds the capabilities `t`. -/
def Config.endow (c : Config) (child : Slot) (t : CTable) : Config :=
  { c with face := fun k => if k = child then { c.face child with table := t } else c.face k }

theorem Sound.endow (h : Sound ok stray φ c) (other : i ≠ child)
    (pact : Pact stray (one φ i a) c.prog fun k => ((c.endow child t).face k).table)
    (fit : Fit ok (φ 0) i (c.prog i) (c.face i) code a) (index : (one φ i a 0).index = (φ 0).index)
    (adult : a ≠ .fresh true ∧ a ≠ .told) : Sound ok stray (one φ i a) ((c.endow child t).put i (c.face i) code) := by
  have own : (c.endow child t).face i = c.face i := if_neg other
  have tables : (fun k => (((c.endow child t).put i (c.face i) code).face k).table) = fun k => ((c.endow child t).face k).table :=
    putTables (by rw [own])
  refine soundOne (by rw [tables]; exact pact) (by simp only [Config.put,if_true]; exact fit) (fun k away => ?_) index.ge
    (fun registered => h.pager (registeredOne adult index.le.trans' registered)) h.lines
  by_cases at' : k = child
  · subst at'
    have before := h.fit k
    simp only [Config.put,if_neg away,Config.endow,if_true]
    exact ⟨before.live,fun present => (before.linked present).same rfl rfl rfl,before.call,before.pending⟩
  · simpa [Config.put,away,Config.endow,at'] using h.fit k

/- Init grants a capability to the program that it is about to release. -/
theorem Sound.grants (h : Sound ok stray φ c) {n} {t' : CTable} (idle : (c.face i).wire = .idle) (outside : (c.face i).fault = false)
    (stage : φ i = .grant n child t) (conforms : code.Conforms ok (c.prog i) (.grant n child t')) :
    t = (c.face child).table ∧ i = 0 ∧ i ≠ child ∧ Sound ok stray (one φ i (.grant n child t')) ((c.endow child t').put i (c.face i) code) := by
  obtain rfl := h.pact.rootOnly (i := i) (by rw [stage]; trivial)
  have told : φ child = .told := by
    have raised := h.pact.children 0 child (by rw [stage]; rfl)
    rwa [stage] at raised
  have settled := h.pact.settled child
  rw [told,stage] at settled
  obtain ⟨_,same,_⟩ := settled
  cases same
  have other : (0 : Slot) ≠ child := by
    rintro rfl
    cases stage.symm.trans told
  refine ⟨rfl,rfl,other,h.endow other (h.pact.endow stage (by simp [Config.endow]) fun k away => ?_) ?_ (by rw [oneOwn,stage]; rfl) ⟨nofun,nofun⟩⟩
  · simp only [Config.endow]
    rw [if_neg away]
  · refine ⟨⟨fun _ => nofun,fun _ => ?_⟩,fun _ => .idle idle outside conforms,nofun,(h.fit 0).pending⟩
    exact h.present (by rw [stage]; exact nofun)

/- The process manager lets its child print. -/
theorem Sound.enables (h : Sound ok stray φ c) {y} (idle : (c.face i).wire = .idle) (outside : (c.face i).fault = false)
    (stage : φ i = .hatch y child false) (granted : t.hasEndpoint 1) (conforms : code.Conforms ok (c.prog i) (.hatch y child true)) :
    (c.face i).table.hasEndpoint 1 ∧ i ≠ child ∧ Sound ok stray (one φ i (.hatch y child true)) ((c.endow child t).put i (c.face i) code) := by
  have unborn : φ child = .unborn := by
    have raised := h.pact.children i child (by rw [stage]; rfl)
    rw [stage] at raised
    exact raised.1
  have own := h.pact.settled i
  rw [stage] at own
  have other : i ≠ child := by
    rintro rfl
    cases stage.symm.trans unborn
  have notRoot : i ≠ 0 := h.pact.notRoot (by rw [stage]; exact id)
  refine ⟨own.1.held 1 (by rw [own.2]; decide),other,
    h.endow other (h.pact.enable stage ?_ fun k away => ?_) ?_ (by rw [oneRest (Ne.symm notRoot)]) ⟨nofun,nofun⟩⟩
  · simpa [Config.endow] using granted
  · simp only [Config.endow]
    rw [if_neg away]
  · refine ⟨⟨fun _ => nofun,fun _ => ?_⟩,fun _ => .idle idle outside conforms,nofun,(h.fit i).pending⟩
    exact h.present (by rw [stage]; exact nofun)

/-! Creation. -/

theorem grantEndpointKeeps {target ep : Int} (held : t.hasEndpoint ep) : (t.grantEndpoint target).1.hasEndpoint ep := by
  unfold CTable.grantEndpoint
  split
  · exact held
  · split
    · rename_i n free
      obtain ⟨m,type,named⟩ := hasEndpointIff.mp held
      have null : (t n).type = .null := by simpa using List.find?_some free
      have other : m ≠ n := by
        rintro rfl
        cases null.symm.trans type
      refine hasEndpointIff.mpr ⟨m,?_,?_⟩
      · simp [CTable.set,other,type]
      · simp [CTable.set,other,named]
    · exact held

/- `proc_spawn` has planted `child`, and thread `i` has a capability for it. -/
def Config.spawn (c : Config) (i child : Slot) (p : Fin 12) (code : Code) : Config :=
  { (c.put i { c.face i with table := ((c.face i).table.grantEndpoint (tid child)).1 } code).put child .born (Code.main p) with
    prog := fun k => if k = child then p else c.prog k }

theorem spawnTables (code : Code) (other : i ≠ child) :
    ((c.spawn i child p code).face child).table = capClear ∧
      ((c.spawn i child p code).face i).table = ((c.face i).table.grantEndpoint (tid child)).1 ∧
      ∀ k, k ≠ child → k ≠ i → ((c.spawn i child p code).face k).table = (c.face k).table := by
  refine ⟨?_,?_,fun k atChild atOwn => ?_⟩
  · simp [Config.spawn,Config.put,Face.born]
  · simp [Config.spawn,Config.put,other]
  · simp [Config.spawn,Config.put,atChild,atOwn]

/- Parent and child after a birth. -/
theorem Sound.born (h : Sound ok stray φ c) (other : i ≠ child) (young : b.young) (idle : (c.face i).wire = .idle)
    (outside : (c.face i).fault = false) (live : (c.face i).presence = .live) (present : a ≠ .gone) (quiet : a.asked = none)
    (pact : Pact stray (both φ i a child b) (c.spawn i child p code).prog fun k => ((c.spawn i child p code).face k).table)
    (own : code.Conforms ok (c.prog i) a) (entry : (Code.main p).Conforms ok p b) (index : (φ 0).index ≤ (both φ i a child b 0).index)
    (registered : Registered (both φ i a child b) → Registered φ) : Sound ok stray (both φ i a child b) (c.spawn i child p code) := by
  refine h.change other pact ?_ ?_ (fun k atOwn atChild => ?_) index (fun now => h.pager (registered now)) h.lines
  · simp only [Config.spawn,Config.put,if_neg other,if_true]
    refine ⟨⟨fun _ => present,fun _ => live⟩,fun _ => .idle idle outside own,fun o asked => ?_,(h.fit i).pending⟩
    rw [quiet] at asked
    cases asked
  · simp only [Config.spawn,Config.put,if_true]
    refine ⟨⟨fun _ gone => ?_,fun _ => rfl⟩,fun _ => .idle rfl rfl entry,fun o asked => ?_,fun pending => absurd rfl pending⟩
    · rw [gone] at young
      exact young
    · cases b with
      | fresh | told | unborn => cases asked
      | _ => exact absurd young id
  · simp [Config.spawn,Config.put,atOwn,atChild]

theorem serviceOpens {n : Nat} (few : n < 8) : opening (service n) = .fresh (decide (service n ≠ progVm)) := by
  match n, few with
  | 0, _ | 1, _ | 2, _ | 3, _ | 4, _ | 5, _ | 6, _ | 7, _ => rfl

/- Init starts the next program. -/
theorem Sound.starts (h : Sound ok stray φ c) {n} (stage : φ i = .boot n none) (few : n < 8) (live : (c.face i).presence = .live)
    (idle : (c.face i).wire = .idle) (outside : (c.face i).fault = false) (free : (c.face child).presence ≠ .live)
    (first : ∀ k < child, (c.face k).presence = .live)
    (conforms : (n < 6 → child.val = n + 1) → code.Conforms ok (c.prog i) (.expect n child)) :
    ∃ φ', Sound ok stray φ' (c.spawn i child (service n) code) := by
  obtain rfl := h.pact.rootOnly (i := i) (by rw [stage]; trivial)
  have gone : φ child = .gone := not_not.mp fun present => free (h.present present)
  have other : (0 : Slot) ≠ child := by
    rintro rfl
    cases stage.symm.trans gone
  have place : n < 6 → child.val = n + 1 := by
    intro early
    by_contra elsewhere
    by_cases low : child.val ≤ n
    · exact h.pact.filled stage low (by omega) gone
    · have vacant := h.pact.vacant (k := ⟨n + 1,by omega⟩) stage (Nat.lt_succ_self n) (by omega)
      have filled := (h.fit _).live.mp (first ⟨n + 1,by omega⟩ (Fin.lt_def.mpr (by simp only; omega)))
      exact filled vacant
  obtain ⟨clear,_,kept⟩ := spawnTables (c := c) (p := service n) code other
  have entry : (Code.main (service n)).Conforms ok (service n) (opening (service n)) := Code.serviceConforms few
  rw [serviceOpens few] at entry
  refine ⟨_,h.born (a := .expect n child) (b := .fresh (decide (service n ≠ progVm))) other trivial idle outside live nofun rfl
    (h.pact.create stage few gone place (by simp [Config.spawn]) (fun k away => ?_) clear kept) (conforms place) entry ?_ fun registered => ?_⟩
  · simp [Config.spawn,away]
  · rw [bothOwn other,stage]
    exact le_rfl
  · by_cases late : 3 ≤ n
    · exact .inr (.inr (by rw [stage]; exact late))
    · have seat : child.val = n + 1 := place (by omega)
      obtain fresh | told | far := registered
      · by_cases third : (3 : Slot) = child
        · subst third
          have second : n = 2 := by simpa using seat.symm
          rw [bothPeer,second] at fresh
          exact absurd (Stage.fresh.inj fresh) (by decide)
        · rw [bothRest (by decide) third] at fresh
          exact .inl fresh
      · by_cases third : (3 : Slot) = child
        · subst third
          rw [bothPeer] at told
          cases told
        · rw [bothRest (by decide) third] at told
          exact .inr (.inl told)
      · rw [bothOwn other] at far
        exact absurd far late

/- The process manager starts hello. -/
theorem Sound.breeds (h : Sound ok stray φ c) {y} (stage : φ i = .work (some y) none none) (manager : c.prog i = progPm)
    (live : (c.face i).presence = .live) (idle : (c.face i).wire = .idle) (outside : (c.face i).fault = false)
    (free : (c.face child).presence ≠ .live) (conforms : code.Conforms ok (c.prog i) (.hatch y child false)) :
    ∃ φ', Sound ok stray φ' (c.spawn i child progHello code) := by
  have gone : φ child = .gone := not_not.mp fun present => free (h.present present)
  have other : i ≠ child := by
    rintro rfl
    cases stage.symm.trans gone
  have notRoot : i ≠ 0 := h.pact.notRoot (by rw [stage]; exact id)
  have notChild : child ≠ 0 := h.pact.notRoot (by rw [gone]; exact id)
  have root : both φ i (.hatch y child false) child .unborn 0 = φ 0 := bothRest (Ne.symm notRoot) (Ne.symm notChild)
  obtain ⟨clear,grown,kept⟩ := spawnTables (c := c) (p := progHello) code other
  refine ⟨_,h.born (a := .hatch y child false) (b := .unborn) other trivial idle outside live nofun rfl
    (h.pact.breed stage manager gone (by simp [Config.spawn]) (fun k away => ?_) clear kept fun e held => ?_) conforms
    Code.helloConforms (by rw [root]) fun registered => ?_⟩
  · simp [Config.spawn,away]
  · rw [grown]
    exact grantEndpointKeeps held
  · have alone : Registered (one φ i (.hatch y child false)) :=
      registeredOne (i := child) (a := .unborn) ⟨nofun,nofun⟩ (by rw [oneRest (Ne.symm notChild)]; exact id) registered
    exact registeredOne (a := .hatch y child false) ⟨nofun,nofun⟩ (by rw [oneRest (Ne.symm notRoot)]; exact id) alone

/- A spawn that finds no program or no slot. -/
theorem Sound.spawnFails (h : Sound ok stray φ c) {prog next} (live : (c.face i).presence = .live) (idle : (c.face i).wire = .idle)
    (outside : (c.face i).fault = false) (calls : c.code i = .spawn prog next)
    (failed : (∀ p : Fin 12, cint prog ≠ p.val) ∨ ∀ k, (c.face k).presence = .live) :
    ∃ φ', Sound ok stray φ' (c.put i (c.face i) (next (-1))) := by
  have conforms := h.ready live idle outside
  rw [calls] at conforms
  obtain ⟨n,stage,few,named,_,parks⟩ | ⟨y,stage,_,_,_,again⟩ := conforms
  · obtain rfl := h.pact.rootOnly (i := i) (by rw [stage]; trivial)
    have full := failed.resolve_left fun unknown => unknown _ named
    have late : 7 ≤ n := by
      by_contra early
      have vacant := h.pact.vacant (k := ⟨n + 1,by omega⟩) stage (Nat.lt_succ_self n) (by omega)
      exact (h.fit _).live.mp (full _) vacant
    refine ⟨_,h.alone (h.pact.full stage late) rfl ⟨⟨fun _ => nofun,fun _ => live⟩,fun _ => .idle idle outside (parks late),nofun,
      (h.fit 0).pending⟩ ?_ fun _ => .inr (.inr ?_)⟩
    · rw [oneOwn,stage]
      simp only [Stage.index]
      omega
    · rw [stage]
      simp only [Stage.index]
      omega
  · rw [← stage] at again
    exact ⟨φ,h.goOn idle outside again⟩

theorem Sound.spawns (h : Sound ok stray φ c) {prog next} (live : (c.face i).presence = .live) (idle : (c.face i).wire = .idle)
    (outside : (c.face i).fault = false) (calls : c.code i = .spawn prog next) (named : cint prog = p.val)
    (hello : c.prog i = progPm → ok prog → p = progHello) (free : (c.face child).presence ≠ .live)
    (first : ∀ k < child, (c.face k).presence = .live) : ∃ φ', Sound ok stray φ' (c.spawn i child p (next (tid child))) := by
  have conforms := h.ready live idle outside
  rw [calls] at conforms
  obtain ⟨n,stage,few,named',expects,_⟩ | ⟨y,stage,manager,asked,hatches,_⟩ := conforms
  · have same : p = service n := Fin.ext (by omega)
    subst same
    exact h.starts stage few live idle outside free first (expects child)
  · obtain rfl := hello manager asked
    exact h.breeds stage manager live idle outside free (hatches child)

/- A thread exits. -/
theorem Sound.exits (h : Sound ok stray φ c) (live : (c.face i).presence = .live) (idle : (c.face i).wire = .idle)
    (outside : (c.face i).fault = false) (calls : c.code i = .exit) :
    ∃ φ', Sound ok stray φ' (c.put i { c.face i with presence := .dead, wire := .idle, fault := false } (c.code i)) := by
  have conforms := h.ready live idle outside
  rw [calls] at conforms
  obtain ⟨stage,client⟩ := conforms
  refine ⟨_,h.grown (h.pact.exit stage client) rfl ⟨⟨nofun,fun present => absurd rfl present⟩,fun present => absurd rfl present,nofun,
    (h.fit i).pending⟩ (h.pact.notRoot (by rw [stage]; exact id)) ⟨nofun,nofun⟩⟩

/-! Page faults. -/

/- Whoever awaits the pager's answer asked a pager that had registered. -/
theorem Sound.pagerAwaited (h : Sound ok stray φ c) (asked : (φ i).asked = some (.plain 3)) : c.pager = 3 := by
  have client := h.pact.debts.works 3 i asked
  have serves : (φ 3).serves := by
    cases stage : φ 3 with
    | work | hatch => trivial
    | _ =>
      rw [stage] at client
      cases client
  obtain ⟨_,released⟩ | ⟨_,_,late⟩ := (h.pact.working serves).place
  · exact h.pager (.inr (.inr released))
  · exact absurd late (by decide)

/- Init touches its heap, which is not mapped. -/
theorem Sound.faults (h : Sound ok stray φ c) {va next} (live : (c.face i).presence = .live) (idle : (c.face i).wire = .idle)
    (outside : (c.face i).fault = false) (calls : c.code i = .store va next) :
    c.pager = 3 ∧ i = 0 ∧ (c.face 3).presence = .live ∧
      Sound ok stray φ (c.put i { c.face i with wire := .sending (tid 3) (faultMsg i va), fault := true } (c.code i)) := by
  have conforms := h.ready live idle outside
  have again := conforms
  rw [calls] at conforms
  obtain ⟨n,stage,late,heap,_⟩ := conforms
  obtain rfl := h.pact.rootOnly (i := i) (by rw [stage]; trivial)
  have settled := h.pact.settled 0
  rw [stage] at settled
  have root : c.prog 0 = progInit := settled.2.1
  have serves := (h.pact.serving (i := 3) (by decide) (by decide) (by rw [stage]; exact late)).1
  have asks : Sends ok (c.prog 0) (φ 0) (tid 3) (faultMsg 0 va) (.boot n (some (.plain 3))) none := by
    rw [stage,root]
    exact .boot (by decide) late rfl ⟨nofun,fun _ => heap⟩
  refine ⟨h.pager (.inr (.inr (by rw [stage]; exact late))),rfl,h.present serves.present,
    h.keep rfl ⟨(h.fit 0).live,fun _ => .faulting rfl rfl stage asks again,fun _ _ notRoot => absurd rfl notRoot,(h.fit 0).pending⟩⟩

/- No interrupt is pending for a thread in the page-fault path. -/
theorem Sound.faultQuiet (h : Sound ok stray φ c) (live : (c.face i).presence = .live) (fault : (c.face i).fault = true) :
    i = 0 ∧ (c.face i).pending = 0 := by
  obtain ⟨_,linked⟩ := h.linked live
  have boots : (φ i).boots := by
    cases linked with
    | idle wire outside | sending wire outside | sent wire outside | receiving wire outside | received wire outside =>
      simp [fault] at outside
    | faulting wire fault stage | faulted wire fault stage | pardoned wire fault stage =>
      rw [stage]
      trivial
  obtain rfl := h.pact.rootOnly boots
  refine ⟨rfl,not_not.mp fun pending => ?_⟩
  have terminal := ((h.fit 0).pending pending).1
  exact absurd terminal (by decide)

/- The pager has the request; init waits for the answer. -/
theorem Sound.faultAwait (h : Sound ok stray φ c) (live : (c.face i).presence = .live) (fault : (c.face i).fault = true)
    (sent : (c.face i).wire = .sent) : c.pager = 3 ∧ Sound ok stray φ (c.put i { c.face i with wire := .receiving (tid 3), fault := true } (c.code i)) := by
  obtain ⟨_,linked⟩ := h.linked live
  cases linked with
  | faulted wire fault stage go =>
    refine ⟨h.pagerAwaited (by rw [stage]; rfl),h.keep rfl ⟨(h.fit i).live,fun _ => .faulted (.inr rfl) rfl stage go,(h.fit i).call,(h.fit i).pending⟩⟩
  | faulting wire | pardoned wire => cases sent.symm.trans wire
  | idle wire outside | sending wire outside | sent wire outside | receiving wire outside | received wire outside =>
    simp [fault] at outside

/- The answer: init tries the instruction again. -/
theorem Sound.faultDone (h : Sound ok stray φ c) (live : (c.face i).presence = .live) (fault : (c.face i).fault = true)
    (received : (c.face i).wire = .received source m) :
    m.data0 = 0 ∧ Sound ok stray φ (c.put i { c.face i with wire := .idle, fault := false } (c.code i)) := by
  obtain ⟨_,linked⟩ := h.linked live
  cases linked with
  | pardoned wire fault stage pardon go =>
    cases received.symm.trans wire
    exact ⟨pardon,h.keep rfl ⟨(h.fit i).live,fun _ => .idle rfl rfl go,(h.fit i).call,(h.fit i).pending⟩⟩
  | faulting wire => cases received.symm.trans wire
  | faulted wire =>
    obtain sent | receiving := wire
    · cases received.symm.trans sent
    · cases received.symm.trans receiving
  | idle wire outside | sending wire outside | sent wire outside | receiving wire outside | received wire outside =>
    simp [fault] at outside

end
end Mukern
