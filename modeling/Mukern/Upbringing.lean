import Mukern.Meetings

/-! What one thread does alone: a send is refused, a thread exits, init and the
process manager bring up a child and endow it with capabilities. -/
namespace Mukern
open Kernel

section
variable {stray : Prop} {ok : Word → Prop} {φ : Slot → Stage} {prog prog' : Slot → Fin 12} {table table' : Slot → CTable}
  {i j c k : Slot} {σ a b : Stage} {p : Fin 12} {t : CTable} {o : Outstanding} {m : IpcMsg}

theorem strayShell {s : Slot} (member : s ∈ asks p) (missing : s ∉ endpoints p) : p = progInit ∨ IsShell p := by
  revert s p
  decide

/- Nobody awaits a reply of a shell. -/
theorem Pact.shellFree (h : Pact stray φ prog table) (high : 7 ≤ i.val) : ∀ o, o.server = i → (φ i).owes o = none := by
  rintro o rfl
  cases owed : (φ o.server).owes o with
  | none => rfl
  | some y =>
    have low := (asksServer (h.fits (h.debts.owed o y owed)).member).2
    omega

theorem Pact.shellOwes (h : Pact stray φ prog table) (high : 7 ≤ i.val) : (φ i).owes = fun _ => none := by
  have plain := h.shellFree high (.plain i) rfl
  have line := h.shellFree high (.line i) rfl
  funext o
  cases o with
  | plain s => exact plain
  | line s => exact line

theorem Pact.goesAstray (h : Pact stray φ prog table) {client reader} {d : Slot} (stage : φ i = .work client reader none)
    (shell : IsShell (prog i)) (refusable : stray) : Pact stray (one φ i (.lost d (-1))) prog table := by
  have working := h.workingAt stage
  refine h.grownOne (.inl ⟨.inr (by rw [stage]; trivial),trivial,working,shell,.inl ⟨refusable,rfl⟩⟩)
    (h.debts.sameOne ?_ (by rw [stage]; rfl))
  rw [h.shellOwes (working.shell shell).2]
  funext o
  cases o <;> rfl

/- The kernel refuses a send. -/
theorem Pact.refuse (h : Pact stray φ prog table) {dest : Int} {ψ : Stage} (sends : Sends ok (prog i) (φ i) dest m a (some ψ))
    (refusable : (∃ d, ψ = .lost d (-1)) → stray) : Pact stray (one φ i ψ) prog table := by
  generalize stage : φ i = σ at sends
  generalize answer : some ψ = refused at sends
  have lost : ∀ {s : Slot} {client reader}, φ i = .work client reader none → s ∈ asks (prog i) →
      some ψ = (if s ∈ endpoints (prog i) then none else some (.lost s (-1))) → Pact stray (one φ i ψ) prog table := by
    intro s client reader stage member answer
    split at answer
    · cases answer
    · rename_i missing
      cases answer
      exact h.goesAstray stage ((strayShell member missing).resolve_left (h.workingAt stage).notInit) (refusable ⟨s,rfl⟩)
  cases sends with
  | hatch =>
    cases answer
    have settled := h.settled i
    rw [stage] at settled
    refine h.grownOne (.inl ⟨.inr (by rw [stage]; trivial),trivial,settled.1,nofun⟩) (h.debts.sameOne ?_ (by rw [stage]; rfl))
    rw [stage]
    exact Stage.owesEq rfl rfl
  | plain member label meant => exact lost stage member answer
  | askLine member shell label => exact lost stage member answer
  | vputs shell label =>
    split at answer
    · cases answer
    · cases answer
      exact h.goesAstray stage shell (refusable ⟨6,rfl⟩)
  | probe shell label =>
    cases answer
    exact h.grownOne (h.worksOn stage nofun) (h.debts.sameOne (by rw [stage]) (by rw [stage]))
  | _ => cases answer

theorem Pact.exit (h : Pact stray φ prog table) (stage : φ i = .work none none none)
    (client : prog i = progHello ∨ IsShell (prog i)) : Pact stray (one φ i .gone) prog table := by
  have high : 7 ≤ i.val := by
    obtain ⟨home,_⟩ | ⟨_,_,late⟩ := (h.workingAt stage).place
    · obtain hello | shell | shell := client <;> simp [*] at home <;> cases home
    · exact late
  refine h.grownOne (.inl ⟨.inr (by rw [stage]; trivial),trivial,.inr high⟩) (h.debts.sameOne ?_ (by rw [stage]; rfl))
  rw [stage]
  exact Stage.owesEq rfl rfl

/-! Creation. -/

/- While init brings up the servers, the slots fill in order. -/
theorem Pact.filled (h : Pact stray φ prog table) {n : Nat} {asked} (stage : φ 0 = .boot n asked) (below : k.val ≤ n)
    (low : k.val < 7) : φ k ≠ .gone := by
  intro gone
  have settled := h.settled k
  rw [gone,stage] at settled
  obtain unborn | high := settled
  · simp only [Stage.born] at unborn
    omega
  · omega

theorem Pact.vacant (h : Pact stray φ prog table) {n : Nat} {asked} (stage : φ 0 = .boot n asked) (above : n < k.val)
    (low : n < 7) : φ k = .gone := by
  have settled := h.settled k
  have notRoot : k ≠ 0 := fun zero => by simp [zero] at above
  cases own : φ k with
  | gone => rfl
  | fresh ready =>
    rw [own,stage] at settled
    obtain ⟨_,same,_⟩ := settled
    cases same
  | told =>
    rw [own,stage] at settled
    obtain ⟨_,same,_⟩ := settled
    cases same
  | unborn =>
    rw [own,stage] at settled
    have late := settled.2.1
    simp only [Stage.index] at late
    omega
  | work | hatch | lost =>
    rw [own,stage] at settled
    obtain ⟨_,late⟩ | ⟨_,late,_⟩ := settled.1.place <;> simp only [Stage.index] at late <;> omega
  | boot | expect | grant | parked =>
    rw [own] at settled
    exact absurd settled.1 notRoot

/- A slot that is free is nobody's child. -/
theorem Pact.orphan (h : Pact stray φ prog table) (free : φ c = .gone) : ∀ k, (φ k).child ≠ some c := by
  intro k parent
  have young := h.childYoung parent
  rw [free] at young
  exact young

/- Init starts the next program. -/
theorem Pact.create (h : Pact stray φ prog table) {n : Nat} (stage : φ 0 = .boot n none) (few : n < 8) (free : φ c = .gone)
    (place : n < 6 → c.val = n + 1) (own : prog' c = service n) (same : ∀ k, k ≠ c → prog' k = prog k)
    (clear : table' c = capClear) (kept : ∀ k, k ≠ c → k ≠ 0 → table' k = table k) {ready : Bool} :
    Pact stray (both φ 0 (.expect n c) c (.fresh ready)) prog' table' := by
  have root := h.settled 0
  rw [stage] at root
  have child := h.settled c
  rw [free,stage] at child
  have other : (0 : Slot) ≠ c := by rintro rfl; cases stage.symm.trans free
  have placed : Seated n c := by
    by_cases early : n < 6
    · exact .inl ⟨early,place early⟩
    · obtain born | high := child
      · simp only [Stage.born] at born
        exact .inr ⟨by omega,by omega⟩
      · exact .inr ⟨by omega,high⟩
  refine h.raise (fun k => ?_) (by rw [bothOwn other]; trivial) (fun k parent => absurd parent (h.orphan free k))
    (by rw [stage]; exact id) ?_ rfl other (fun k atRoot atChild => kept k atChild atRoot)
    (h.debts.sameBoth other ?_ (by rw [stage,free]; exact ⟨rfl,rfl⟩))
  · rw [bothOwn other]
    by_cases atChild : k = c
    · subst atChild
      rw [bothPeer]
      exact ⟨n,rfl,own,clear,placed⟩
    · rw [same k atChild]
      by_cases zero : k = 0
      · subst zero
        rw [bothOwn other]
        exact ⟨rfl,root.2.1,few⟩
      · have before := h.settled k
        rw [bothRest zero atChild,kept k atChild zero]
        rw [stage] at before
        refine before.advance le_rfl zero (fun named => by cases named) fun gone low => .inr ?_
        rw [gone] at before
        have apart : k.val ≠ c.val := fun same => atChild (Fin.ext same)
        obtain born | high := before
        · simp only [Stage.born,Seated] at born placed ⊢
          omega
        · omega
  · rintro c' ⟨⟩
    exact ⟨rfl,ready,rfl⟩
  · rw [stage,free]
    exact ⟨Stage.owesEq rfl rfl,Stage.owesEq rfl rfl⟩

/- The thread table is full when init asks for its last shells. -/
theorem Pact.full (h : Pact stray φ prog table) {n : Nat} (stage : φ 0 = .boot n none) (late : 7 ≤ n) :
    Pact stray (one φ 0 .parked) prog table := by
  have root := h.settled 0
  rw [stage] at root
  refine ⟨fun k => ?_,trivial,fun k c parent => ?_,h.debts.sameOne ?_ (by rw [stage]; rfl)⟩
  · rw [oneOwn]
    by_cases zero : k = 0
    · subst zero
      rw [oneOwn]
      exact ⟨rfl,root.2.1⟩
    · have before := h.settled k
      rw [oneRest zero]
      rw [stage] at before
      refine before.advance root.2.2.1 zero nofun fun gone low => ?_
      rw [gone] at before
      obtain born | high := before
      · simp only [Stage.born] at born
        omega
      · omega
  · by_cases zero : k = 0
    · subst zero
      rw [oneOwn] at parent
      cases parent
    · rw [oneRest zero] at parent ⊢
      have notRoot := h.notRoot (h.childYoung parent).quiet.1
      rw [oneRest notRoot]
      exact h.children k c parent
  · rw [stage]
    exact Stage.owesEq rfl rfl

theorem Working.manages (h : Working σ i p t) (manager : p = progPm) : i = 4 := by
  obtain ⟨home,_⟩ | ⟨hello | shell,_⟩ := h.place
  · rw [manager] at home
    exact (Option.some.inj home).symm
  · rw [manager] at hello
    cases hello
  · rw [manager] at shell
    exact absurd shell (by decide)

/- Only shells ask for a program, and they run when all servers do. -/
theorem Pact.spawnLate (h : Pact stray φ prog table) {y : Slot} (asked : (φ y).asked = some (.plain 4)) : 7 ≤ (φ 0).index := by
  have member : 4 ∈ asks (prog y) := h.fits asked
  obtain ⟨client,reader,stage⟩ | ⟨n,stage⟩ := askedStage asked
  · exact ((h.workingAt stage).shell (asksManager member)).1
  · have settled := h.settled y
    rw [stage] at settled
    rw [settled.2.1] at member
    exact absurd member (by decide)

/- The process manager starts hello for a shell. -/
theorem Pact.breed (h : Pact stray φ prog table) {y : Slot} (stage : φ i = .work (some y) none none) (manager : prog i = progPm)
    (free : φ c = .gone) (own : prog' c = progHello) (same : ∀ k, k ≠ c → prog' k = prog k)
    (clear : table' c = capClear) (kept : ∀ k, k ≠ c → k ≠ i → table' k = table k)
    (grown : ∀ e, (table i).hasEndpoint e → (table' i).hasEndpoint e) :
    Pact stray (both φ i (.hatch y c false) c .unborn) prog' table' := by
  have working := h.workingAt stage
  have other : i ≠ c := by rintro rfl; cases stage.symm.trans free
  have home := working.manages manager
  have late : 7 ≤ (φ 0).index := by
    have asked := h.debts.owed (.plain i) y (by rw [Outstanding.server,stage]; rfl)
    rw [home] at asked
    exact h.spawnLate asked
  have high : 7 ≤ c.val := by
    have settled := h.settled c
    have born := Stage.indexBorn h.root
    rw [free] at settled
    obtain above | high := settled
    · omega
    · exact high
  have rest : both φ i (.hatch y c false) c .unborn 0 = φ 0 :=
    bothRest (Ne.symm (h.notRoot (by rw [stage]; exact id))) (Ne.symm (h.notRoot (by rw [free]; exact id)))
  refine h.raise (fun k => ?_) (by rw [rest]; exact h.root) (fun k parent => absurd parent (h.orphan free k)) (by rw [stage]; exact id)
    ?_ rfl other (fun k atOwn atChild => kept k atChild atOwn) (h.debts.sameBoth other ?_ (by rw [stage,free]; exact ⟨rfl,rfl⟩))
  · rw [rest]
    by_cases atChild : k = c
    · subst atChild
      rw [bothPeer]
      exact ⟨own,late,high⟩
    · rw [same k atChild]
      by_cases atOwn : k = i
      · subst atOwn
        rw [bothOwn other]
        exact ⟨⟨fun s member => grown _ (working.held s member),working.place⟩,manager⟩
      · rw [bothRest atOwn atChild,kept k atChild atOwn]
        exact h.settled k
  · rintro c' ⟨⟩
    exact ⟨rfl,rfl,clear⟩
  · rw [stage,free]
    exact ⟨Stage.owesEq rfl rfl,Stage.owesEq rfl rfl⟩

/-! Capabilities. -/

/- Init grants a capability to the program it is about to release. -/
theorem Pact.endow (h : Pact stray φ prog table) {n : Nat} {t' : CTable} (stage : φ 0 = .grant n c t) (own : table' c = t')
    (kept : ∀ k, k ≠ c → table' k = table k) : Pact stray (one φ 0 (.grant n c t')) prog table' := by
  have root := h.settled 0
  rw [stage] at root
  have parent : (φ 0).child = some c := by rw [stage]; rfl
  have told : φ c = .told := by
    have raised := h.children 0 c parent
    rwa [stage] at raised
  have child := h.settled c
  rw [told,stage] at child
  obtain ⟨_,same,serves,placed⟩ := child
  cases same
  have other : (0 : Slot) ≠ c := by rintro rfl; cases stage.symm.trans told
  have same : one φ 0 (.grant n c t') = both φ 0 (.grant n c t') c .told := by
    funext k
    by_cases atChild : k = c
    · subst atChild
      rw [bothPeer,oneRest (Ne.symm other),told]
    · exact (oneRest atChild).symm
  rw [same]
  refine h.raise (fun k => ?_) (by rw [bothOwn other]; trivial) (fun k parent' => h.onlyParent parent parent') (by rw [stage]; exact id)
    ?_ rfl other (fun k _ atChild => kept k atChild) (h.debts.sameBoth other (by rw [stage,told]; exact ⟨rfl,rfl⟩) (by rw [stage,told]; exact ⟨rfl,rfl⟩))
  · rw [bothOwn other]
    by_cases atChild : k = c
    · subst atChild
      rw [bothPeer,own]
      exact ⟨n,rfl,serves,placed⟩
    · by_cases zero : k = 0
      · subst zero
        rw [bothOwn other]
        exact root
      · have before := h.settled k
        rw [bothRest zero atChild,kept k atChild]
        rw [stage] at before
        exact before.advance le_rfl zero (fun same => atChild (Option.some.inj same).symm) fun _ _ => .inl le_rfl
  · rintro c' ⟨⟩
    exact ⟨rfl,rfl⟩

/- The process manager lets its child print. -/
theorem Pact.enable (h : Pact stray φ prog table) {y : Slot} (stage : φ i = .hatch y c false)
    (granted : (table' c).hasEndpoint 1) (kept : ∀ k, k ≠ c → table' k = table k) :
    Pact stray (one φ i (.hatch y c true)) prog table' := by
  have parent : (φ i).child = some c := by rw [stage]; rfl
  have unborn : φ c = .unborn := by
    have raised := h.children i c parent
    rw [stage] at raised
    exact raised.1
  have other : i ≠ c := by rintro rfl; cases stage.symm.trans unborn
  have same : one φ i (.hatch y c true) = both φ i (.hatch y c true) c .unborn := by
    funext k
    by_cases atChild : k = c
    · subst atChild
      rw [bothPeer,oneRest (Ne.symm other),unborn]
    · exact (oneRest atChild).symm
  have rest : both φ i (.hatch y c true) c .unborn 0 = φ 0 :=
    bothRest (Ne.symm (h.notRoot (by rw [stage]; exact id))) (Ne.symm (h.notRoot (by rw [unborn]; exact id)))
  rw [same]
  refine h.raise (fun k => ?_) (by rw [rest]; exact h.root) (fun k parent' => h.onlyParent parent parent') (by rw [stage]; exact id)
    ?_ rfl other (fun k _ atChild => kept k atChild) (h.debts.sameBoth other ?_ (by rw [stage,unborn]; exact ⟨rfl,rfl⟩))
  · rw [rest]
    have before := h.settled k
    by_cases atChild : k = c
    · subst atChild
      rw [unborn] at before
      rwa [bothPeer]
    · rw [kept k atChild]
      by_cases atOwn : k = i
      · subst atOwn
        rw [stage] at before
        rwa [bothOwn other]
      · rwa [bothRest atOwn atChild]
  · rintro c' ⟨⟩
    exact ⟨rfl,rfl,granted⟩
  · rw [stage,unborn]
    exact ⟨Stage.owesEq rfl rfl,Stage.owesEq rfl rfl⟩

/- The pager registers before it announces itself. -/
theorem Pact.register (h : Pact stray φ prog table) {ready ready' : Bool} (stage : φ i = .fresh ready) :
    Pact stray (one φ i (.fresh ready')) prog table := by
  have notRoot : (0 : Slot) ≠ i := Ne.symm (h.notRoot (by rw [stage]; exact id))
  refine ⟨fun k => ?_,by rw [oneRest notRoot]; exact h.root,fun k c parent => ?_,
    h.debts.sameOne (by rw [stage]; rfl) (by rw [stage]; rfl)⟩
  · rw [oneRest notRoot]
    have before := h.settled k
    by_cases atOwn : k = i
    · subst atOwn
      rw [stage] at before
      rw [oneOwn]
      exact before
    · rwa [oneRest atOwn]
  · have atParent : k ≠ i := by
      rintro rfl
      rw [oneOwn] at parent
      cases parent
    rw [oneRest atParent] at parent ⊢
    have raised := h.children k c parent
    by_cases atOwn : c = i
    · subst atOwn
      rw [oneOwn]
      rw [stage] at raised
      cases stage' : φ k with
      | expect => exact ⟨ready',rfl⟩
      | grant =>
        rw [stage'] at raised
        cases raised
      | hatch =>
        rw [stage'] at raised
        cases raised.1
      | _ =>
        rw [stage'] at parent
        cases parent
    · rwa [oneRest atOwn]

end
end Mukern
