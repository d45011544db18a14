import Mukern.Agreement

/-! A rendezvous between two threads that keep to the protocol: the receiver hears
what its stage allows, and the pact stands. -/
namespace Mukern
open Kernel

section
variable {stray : Prop} {ok : Word → Prop} {φ : Slot → Stage} {prog : Slot → Fin 12} {table : Slot → CTable} {i j : Slot}
  {σ a b : Stage} {p : Fin 12} {t : CTable} {o : Outstanding} {m : IpcMsg} {src : Int} {mark : Option Int}

/- The client whose reply comes hears it. -/
theorem Pact.hearsAnswer (h : Pact stray φ prog table) (working : (φ i).serves) (asked : (φ j).asked = some o) (server : o.server = i)
    (pardon : prog i = progVm → m.data0 = 0) :
    ∃ b, Hears ok (prog j) (φ j) (tid i) m b ∧ b.asked = none ∧ b.owes = (φ j).owes ∧ GrowsUp stray φ prog table j b := by
  subst server
  obtain ⟨client,reader,stage⟩ | ⟨n,stage⟩ := askedStage asked
  · refine ⟨.work client reader none,?_,rfl,?_,h.worksOn stage nofun⟩
    · rw [stage]
      exact .answer
    · rw [stage]
      exact Stage.owesEq rfl rfl
  · obtain rfl := h.rootOnly (i := j) (by rw [stage]; trivial)
    refine ⟨.boot n none,?_,rfl,?_,.inr ⟨rfl,n,_,_,stage,rfl,nofun⟩⟩
    · rw [stage]
      refine .root fun pager => pardon ?_
      have home := (h.working working).server (asksServer (h.fits asked).member).2
      rw [pager] at home ⊢
      generalize prog 3 = q at home
      revert q
      decide
    · rw [stage]
      exact Stage.owesEq rfl rfl

/- A server answers. -/
theorem Pact.meetAnswer (h : Pact stray φ prog table) (other : i ≠ j) {client reader client' reader'}
    (stage : φ i = .work client reader none) (server : o.server = i) (owed : (φ i).owes o = some j)
    (paid : ∀ o' : Outstanding, o'.server = i → (Stage.work client' reader' none).owes o' = if o' = o then none else (φ i).owes o')
    (pardon : prog i = progVm → m.data0 = 0) :
    ∃ b, Hears ok (prog j) (φ j) (tid i) m b ∧ Pact stray (both φ i (.work client' reader' none) j b) prog table := by
  have awaited := h.debts.owed o j (by rwa [server])
  obtain ⟨b,heard,idle,owes,peer⟩ := h.hearsAnswer (by rw [stage]; trivial) awaited server pardon
  refine ⟨b,heard,h.grownBoth other (h.worksOn stage nofun) peer (h.debts.replyBoth other server owed ⟨paid,?_⟩ ⟨owes,idle⟩)⟩
  rw [stage]
  rfl

theorem tidNotAny (i : Slot) : tid i ≠ -1 := by have := tidNonneg i; omega

/- A server that takes a message from somebody it awaits nothing of is at its loop. -/
theorem serverListens (serves : a.serves) (listens : Listens p a src mark) (accepts : src = -1 ∨ src = tid i)
    (strange : ∀ o, a.asked = some o → o.server ≠ i) : ∃ reader, a = .work none reader none := by
  cases a with
  | work client reader asked =>
    cases listens with
    | serve place => exact ⟨reader,rfl⟩
    | @answer _ _ o =>
      obtain any | same := accepts
      · exact absurd any (tidNotAny _)
      · exact absurd (tidInj same) (strange o rfl)
  | hatch client child granted => cases listens
  | _ => exact absurd serves id

/- A server awaits nothing of init, of the servers after it, or of the shells. -/
theorem Pact.strange (h : Pact stray φ prog table) (place : home (prog j) = some j)
    (after : i = 0 ∨ j.val < i.val) : ∀ o, (φ j).asked = some o → o.server ≠ i := by
  rintro o asked rfl
  have member := (h.fits asked).member
  obtain ⟨low,high⟩ := asksServer member
  have below := asksBelow place member
  obtain zero | above := after
  · simp [zero] at low
  · omega

/- A client's request reaches a server that is at its loop. -/
theorem Pact.meetAsk (h : Pact stray φ prog table) {client reader} (stage : φ i = .work client reader none)
    (member : j ∈ asks (prog i)) (listens : Listens (prog j) (φ j) src mark) (accepts : src = -1 ∨ src = tid i) :
    home (prog j) = some j ∧ ∃ line, φ j = .work none line none := by
  have working := h.workingAt stage
  obtain ⟨serves,place⟩ := h.asked working member
  refine ⟨place,serverListens serves listens accepts (h.strange place (.inr ?_))⟩
  obtain ⟨home,_⟩ | ⟨_,_,late⟩ := working.place
  · exact asksBelow home member
  · have := asksServer member
    omega

/- Whoever asks it, a server at its loop takes the request. -/
theorem Pact.meetPlain (h : Pact stray φ prog table) (other : i ≠ j) (place : home (prog j) = some j) {line}
    (server : φ j = .work none line none) (label : plainAt j m.label) (meant : Meant ok j m) (idle : (φ i).asked = none)
    (own : a.owes = (φ i).owes ∧ a.asked = some (.plain j)) (grows : GrowsUp stray φ prog table i a) :
    ∃ b, Hears ok (prog j) (φ j) (tid i) m b ∧ Pact stray (both φ i a j b) prog table := by
  have heard : Hears ok (prog j) (φ j) (tid i) m (.work (some i) line none) := by
    rw [server]
    exact .plain place label meant
  refine ⟨_,heard,h.grownBoth other grows (h.worksOn server nofun) (h.debts.requestBoth other rfl idle ?_ own ⟨?_,?_⟩)⟩
  · rintro s same
    rw [server]
    rfl
  · rintro o' same
    rw [server]
    cases o' with
    | plain s =>
      obtain rfl : s = j := same
      simp [Stage.owes,Stage.client]
    | line s => simp [Stage.owes,Stage.reader]
  · rw [server]
    rfl

theorem Pact.meetAskLine (h : Pact stray φ prog table) (other : i ≠ j) {client reader} (stage : φ i = .work client reader none)
    (member : j ∈ asks (prog i)) (shell : IsShell (prog i)) (label : lineAt j m.label)
    (listens : Listens (prog j) (φ j) src mark) (accepts : src = -1 ∨ src = tid i) :
    ∃ b, Hears ok (prog j) (φ j) (tid i) m b ∧ Pact stray (both φ i (.work client reader (some (.line j))) j b) prog table := by
  obtain ⟨place,line,server⟩ := h.meetAsk stage member listens accepts
  have heard : Hears ok (prog j) (φ j) (tid i) m (.work none (some i) none) := by
    rw [server]
    exact .line place label
  have fits : ∀ o, some (Outstanding.line j) = some o → o.fits (prog i) := by
    rintro _ ⟨⟩
    exact ⟨member,shell,(of_decide_eq_true label).1⟩
  refine ⟨_,heard,h.grownBoth other (h.worksOn stage fits) (h.worksOn server nofun)
    (h.debts.requestBoth (o := .line j) other rfl (by rw [stage]; rfl) nofun ⟨?_,rfl⟩ ⟨?_,?_⟩)⟩
  · rw [stage]
    exact Stage.owesEq rfl rfl
  · rintro o' same
    rw [server]
    cases o' with
    | plain s => simp [Stage.owes,Stage.client]
    | line s =>
      obtain rfl : s = j := same
      simp [Stage.owes,Stage.reader]
  · rw [server]
    rfl

/- A message that is no request to the server it reaches. -/
theorem Pact.meetOther (h : Pact stray φ prog table) (other : i ≠ j) (stage : φ i = .work none none none)
    (shell : IsShell (prog i)) (server : j = 2 ∨ j = 6) (plain : ¬ plainAt j m.label) (line : ¬ lineAt j m.label)
    (grows : GrowsUp stray φ prog table i a) (own : a.owes = (φ i).owes ∧ a.asked = (φ i).asked)
    (listens : Listens (prog j) (φ j) src mark) (accepts : src = -1 ∨ src = tid i) :
    ∃ b, Hears ok (prog j) (φ j) (tid i) m b ∧ Pact stray (both φ i a j b) prog table := by
  have late := (h.workingAt stage).shell shell
  obtain ⟨⟨serves,place⟩,before⟩ : ((φ j).serves ∧ home (prog j) = some j) ∧ j.val < i.val := by
    obtain rfl | rfl := server
    · exact ⟨h.serving (by decide) (by decide) (le_trans (by decide) late.1),lt_of_lt_of_le (by decide) late.2⟩
    · exact ⟨h.serving (by decide) (by decide) (le_trans (by decide) late.1),lt_of_lt_of_le (by decide) late.2⟩
  obtain ⟨pending,server⟩ := serverListens serves listens accepts (h.strange place (.inr before))
  refine ⟨.work none pending none,?_,h.grownBoth other grows (h.worksOn server nofun)
    (h.debts.sameBoth other ⟨own.1,by rw [server]⟩ ⟨own.2,by rw [server]⟩)⟩
  rw [server]
  exact .other place plain line

/- Init asks, or the kernel asks the pager on its behalf. -/
theorem Pact.meetBoot (h : Pact stray φ prog table) {n : Nat} (stage : φ 0 = .boot n none) (member : j ∈ asks progInit)
    (up : j.val ≤ n) (label : plainAt j m.label) (meant : Meant ok j m)
    (listens : Listens (prog j) (φ j) src mark) (accepts : src = -1 ∨ src = tid 0) :
    ∃ b, Hears ok (prog j) (φ j) (tid 0) m b ∧ Pact stray (both φ 0 (.boot n (some (.plain j))) j b) prog table := by
  obtain ⟨low,high⟩ := asksServer member
  have other : (0 : Slot) ≠ j := by rintro rfl; simp at low
  obtain ⟨serves,place⟩ := h.serving low high (by rw [stage]; exact up)
  obtain ⟨line,server⟩ := serverListens (i := 0) serves listens accepts (h.strange place (.inl rfl))
  refine h.meetPlain other place server label meant (by rw [stage]; rfl) ⟨?_,rfl⟩ (.inr ⟨rfl,n,_,_,stage,rfl,?_⟩)
  · rw [stage]
    exact Stage.owesEq rfl rfl
  · rintro _ ⟨⟩
    exact member

/-! The rendezvous of a parent with its child. -/

/- A program that init has started announces itself. -/
theorem Pact.meetAnnounce (h : Pact stray φ prog table) {ready : Bool} (stage : φ i = .fresh ready) :
    ∃ b, Hears ok (prog 0) (φ 0) (tid i) m b ∧ Pact stray (both φ 0 b i .told) prog table := by
  have settled := h.settled i
  rw [stage] at settled
  obtain ⟨n,expecting,serves,clear,placed⟩ := settled
  have root := h.settled 0
  rw [expecting] at root
  have other : (0 : Slot) ≠ i := Ne.symm (h.notRoot (by rw [stage]; exact id))
  have parent : (φ 0).child = some i := by rw [expecting]; rfl
  refine ⟨.grant n i capClear,by rw [expecting]; exact .ready,
    h.raise (fun k => ?_) ?_ (fun k parent' => h.onlyParent parent parent') (by rw [expecting]; exact id) ?_ rfl other
      (fun _ _ _ => rfl) (h.debts.sameBoth other (by rw [expecting,stage]; exact ⟨rfl,rfl⟩) (by rw [expecting,stage]; exact ⟨rfl,rfl⟩))⟩
  · rw [bothOwn other]
    by_cases atChild : k = i
    · subst atChild
      rw [bothPeer]
      exact ⟨n,by rw [clear],serves,placed⟩
    · by_cases zero : k = 0
      · subst zero
        rw [bothOwn other]
        exact root
      · rw [bothRest zero atChild]
        have before := h.settled k
        rw [expecting] at before
        exact before.advance le_rfl zero (fun same => atChild (Option.some.inj same).symm) fun _ _ => .inl le_rfl
  · rw [bothOwn other]
    trivial
  · rintro c ⟨⟩
    exact ⟨rfl,rfl⟩

theorem serviceHome {n : Nat} (few : n < 6) (place : i.val = n + 1) : home (service n) = some i := by
  have slots : ∀ n < 6, home (service n) = some (Fin.ofNat 16 (n + 1)) := by decide
  rw [slots n few]
  congr 1
  apply Fin.ext
  simp only [Fin.ofNat]
  omega

theorem serviceShell {n : Nat} (late : 6 ≤ n) (few : n < 8) : IsShell (service n) := by
  obtain rfl | rfl : n = 6 ∨ n = 7 := by omega
  · exact .inl rfl
  · exact .inr rfl

/- Init releases the program it has granted its capabilities to. -/
theorem Pact.meetRelease (h : Pact stray φ prog table) {n : Nat} (stage : φ 0 = .grant n j t)
    (granted : ∀ s ∈ endpoints (service n), t.hasEndpoint (tid s)) :
    ∃ b, Hears ok (prog j) (φ j) (tid 0) m b ∧ Pact stray (both φ 0 (.boot (n + 1) none) j b) prog table := by
  have parent : (φ 0).child = some j := by rw [stage]; rfl
  have told : φ j = .told := by
    have raised := h.children 0 j parent
    rwa [stage] at raised
  have settled := h.settled j
  have root := h.settled 0
  rw [stage] at root
  rw [told,stage] at settled
  obtain ⟨_,same,serves,placed⟩ := settled
  cases same
  have few := root.2.2
  have other : (0 : Slot) ≠ j := fun same => by rw [← same] at told; cases stage.symm.trans told
  have working : Working (.boot (n + 1) none) j (prog j) (table j) := by
    rw [serves]
    refine ⟨granted,?_⟩
    obtain ⟨early,place⟩ | ⟨late,place⟩ := placed
    · exact .inl ⟨serviceHome early place,le_of_eq place⟩
    · exact .inr ⟨.inr (serviceShell late few),Nat.succ_le_succ late,place⟩
  refine ⟨.work none none none,by rw [told]; exact .go,
    h.raise (fun k => ?_) ?_ (fun k parent' => h.onlyParent parent parent') (by rw [stage]; exact id) nofun rfl other
      (fun _ _ _ => rfl) (h.debts.sameBoth other ?_ (by rw [stage,told]; exact ⟨rfl,rfl⟩))⟩
  · rw [bothOwn other]
    by_cases atChild : k = j
    · subst atChild
      rw [bothPeer]
      exact ⟨working,nofun⟩
    · by_cases zero : k = 0
      · subst zero
        rw [bothOwn other]
        exact ⟨rfl,root.2.1,few,nofun⟩
      · rw [bothRest zero atChild]
        have before := h.settled k
        rw [stage] at before
        exact before.advance (Nat.le_succ n) zero (fun same => atChild (Option.some.inj same).symm) fun _ _ => .inl le_rfl
  · rw [bothOwn other]
    trivial
  · rw [stage,told]
    exact ⟨Stage.owesEq rfl rfl,Stage.owesEq rfl rfl⟩

/- The process manager releases its child. -/
theorem Pact.meetHatch (h : Pact stray φ prog table) {y : Slot} (stage : φ i = .hatch y j true) :
    ∃ b, Hears ok (prog j) (φ j) (tid i) m b ∧ Pact stray (both φ i (.work (some y) none none) j b) prog table := by
  have parent : (φ i).child = some j := by rw [stage]; rfl
  obtain ⟨unborn,granted⟩ : φ j = .unborn ∧ (table j).hasEndpoint 1 = true := by
    have raised := h.children i j parent
    rw [stage] at raised
    simpa [Raised] using raised
  have own := h.settled i
  rw [stage] at own
  have child := h.settled j
  rw [unborn] at child
  obtain ⟨hello,late,place⟩ := child
  have manager := h.manager stage
  have other : i ≠ j := fun same => by rw [same,unborn] at stage; cases stage
  have rest : both φ i (.work (some y) none none) j (.work none none none) 0 = φ 0 :=
    bothRest (Ne.symm (h.notRoot (by rw [stage]; exact id))) (Ne.symm (h.notRoot (by rw [unborn]; exact id)))
  have held : ∀ s ∈ endpoints (prog j), (table j).hasEndpoint (tid s) := by
    rw [hello]
    intro s member
    obtain rfl : s = 1 := by simpa [endpoints] using member
    exact granted
  refine ⟨.work none none none,by rw [unborn,manager]; exact .born,
    h.raise (fun k => ?_) (by rw [rest]; exact h.root) (fun k parent' => h.onlyParent parent parent') (by rw [stage]; exact id) (fun c named => by cases named) rfl other
      (fun _ _ _ => rfl) (h.debts.sameBoth other ?_ (by rw [stage,unborn]; exact ⟨rfl,rfl⟩))⟩
  · rw [rest]
    by_cases atChild : k = j
    · subst atChild
      rw [bothPeer]
      exact ⟨⟨held,.inr ⟨.inl hello,late,place⟩⟩,fun y owed => by cases owed⟩
    · by_cases atOwn : k = i
      · subst atOwn
        rw [bothOwn other]
        exact ⟨own.1,fun y owed => by cases owed⟩
      · rw [bothRest atOwn atChild]
        exact h.settled k
  · rw [stage,unborn]
    exact ⟨Stage.owesEq rfl rfl,Stage.owesEq rfl rfl⟩

theorem bothSwap (other : i ≠ j) : both φ i a j b = both φ j b i a := by
  funext k
  by_cases atPeer : k = j
  · subst atPeer
    rw [bothPeer,bothOwn (Ne.symm other)]
  · by_cases atOwn : k = i
    · subst atOwn
      rw [bothOwn other,bothPeer]
    · rw [bothRest atOwn atPeer,bothRest atPeer atOwn]

/- A message passes between two threads whose calls are as their stages allow. -/
theorem Pact.meet (h : Pact stray φ prog table) (other : i ≠ j) {refused : Option Stage}
    (sends : Sends ok (prog i) (φ i) (tid j) m a refused) (listens : Listens (prog j) (φ j) src mark)
    (accepts : src = -1 ∨ src = tid i) :
    ∃ b, Hears ok (prog j) (φ j) (tid i) m b ∧ Pact stray (both φ i a j b) prog table := by
  generalize stage : φ i = σ at sends
  generalize dest : tid j = d at sends
  cases sends with
  | announce =>
    obtain rfl := tidZero.mp dest
    obtain ⟨b,heard,pact⟩ := h.meetAnnounce (m := m) stage
    exact ⟨b,heard,by rwa [bothSwap other]⟩
  | release granted =>
    obtain rfl := tidInj dest
    obtain rfl := h.rootOnly (i := i) (by rw [stage]; trivial)
    exact h.meetRelease stage granted
  | hatch =>
    obtain rfl := tidInj dest
    exact h.meetHatch stage
  | reply pardon =>
    obtain rfl := tidInj dest
    refine h.meetAnswer (o := .plain i) other stage rfl (by rw [stage]; rfl) ?_ pardon
    rintro o' same
    rw [stage]
    cases o' with
    | plain s =>
      obtain rfl : s = i := same
      simp [Stage.owes,Stage.client]
    | line s => simp [Stage.owes,Stage.reader]
  | line pardon =>
    obtain rfl := tidInj dest
    refine h.meetAnswer (o := .line i) other stage rfl (by rw [stage]; rfl) ?_ pardon
    rintro o' same
    rw [stage]
    cases o' with
    | plain s => simp [Stage.owes,Stage.client]
    | line s =>
      obtain rfl : s = i := same
      simp [Stage.owes,Stage.reader]
  | plain member label meant =>
    obtain rfl := tidInj dest
    obtain ⟨place,line,server⟩ := h.meetAsk stage member listens accepts
    refine h.meetPlain other place server label meant (by rw [stage]; rfl) ⟨?_,rfl⟩ (h.worksOn stage ?_)
    · rw [stage]
      exact Stage.owesEq rfl rfl
    · rintro _ ⟨⟩
      exact member
  | askLine member shell label =>
    obtain rfl := tidInj dest
    exact h.meetAskLine other stage member shell label listens accepts
  | boot member up label meant =>
    obtain rfl := tidInj dest
    obtain rfl := h.rootOnly (i := i) (by rw [stage]; trivial)
    have root := h.settled 0
    rw [stage] at root
    exact h.meetBoot stage (root.2.1 ▸ member) up label meant listens accepts
  | vputs shell label =>
    obtain rfl : j = 6 := tidInj dest
    refine h.meetOther other stage shell (.inr rfl) (by simp [plainAt,label,msgVputs,msgWrite])
      (by simp [lineAt,label,msgVputs,msgReadline]) (.inl ⟨.inr (by rw [stage]; trivial),trivial,h.workingAt stage,shell,.inr ⟨rfl,rfl⟩⟩)
      ⟨?_,by rw [stage]; rfl⟩ listens accepts
    rw [stage]
    exact Stage.owesEq rfl rfl
  | probe shell label =>
    obtain rfl : j = 2 := tidInj dest
    exact h.meetOther other stage shell (.inl rfl) (by simp [plainAt,label,msgReady,msgBread]) (by simp [lineAt])
      (h.worksOn stage fun _ reads => by cases reads) (by rw [stage]; exact ⟨rfl,rfl⟩) listens accepts

end
end Mukern
