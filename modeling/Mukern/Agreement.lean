import Mukern.Protocol

/-! What holds between all the threads of the booted system: where each program
runs, how far init has come with it, and that every debt of a server is a reply
that its client awaits. -/
namespace Mukern
open Kernel

namespace Stage

def index : Stage → Nat
  | .boot n _ | .expect n _ | .grant n _ _ => n
  | .parked => 8
  | _ => 0

/- The slots that init has filled while it has released no shell: these, from 0 on. -/
def born : Stage → Nat
  | .boot n _ => n + 1
  | .expect n _ | .grant n _ _ => n + 2
  | .parked => 9
  | _ => 0

def client : Stage → Option Slot
  | .work client _ _ => client
  | .hatch client _ _ => some client
  | _ => none

def reader : Stage → Option Slot
  | .work _ reader _ => reader
  | _ => none

def asked : Stage → Option Outstanding
  | .work _ _ asked | .boot _ asked => asked
  | _ => none

/- Who awaits what a server owes. -/
def owes (a : Stage) : Outstanding → Option Slot
  | .plain _ => a.client
  | .line _ => a.reader

theorem owesEq {a b : Stage} (client : a.client = b.client) (reader : a.reader = b.reader) : a.owes = b.owes := by
  funext o
  cases o with
  | plain s => exact client
  | line s => exact reader

def child : Stage → Option Slot
  | .expect _ c | .grant _ c _ | .hatch _ c _ => some c
  | _ => none

def boots : Stage → Prop
  | .boot _ _ | .expect _ _ | .grant _ _ _ | .parked => True
  | _ => False

def serves : Stage → Prop
  | .work _ _ _ | .hatch _ _ _ => True
  | _ => False

def young : Stage → Prop
  | .fresh _ | .told | .unborn => True
  | _ => False

/- The stages of a thread whose start is behind it. -/
def adult : Stage → Prop
  | .work _ _ _ | .lost _ _ | .gone => True
  | _ => False

end Stage

/- Only a shell asks for lines, and only a terminal is asked. -/
def Outstanding.fits (p : Fin 12) : Outstanding → Prop
  | .plain s => s ∈ asks p
  | .line s => s ∈ asks p ∧ IsShell p ∧ (s = 1 ∨ s = 6)

/- Servers sit where `syscall.h` says; hello and the shells come after them. -/
structure Working (σ : Stage) (i : Slot) (p : Fin 12) (table : CTable) : Prop where
  held : ∀ s ∈ endpoints p, table.hasEndpoint (tid s)
  place : home p = some i ∧ i.val ≤ σ.index ∨ (p = progHello ∨ IsShell p) ∧ 7 ≤ σ.index ∧ 7 ≤ i.val

/- Where init puts the program it starts after `n` others. -/
def Seated (n : Nat) (i : Slot) : Prop := n < 6 ∧ i.val = n + 1 ∨ 6 ≤ n ∧ 7 ≤ i.val

/- What holds of thread `i` by its stage, when init is at `σ`. `stray` says whether
a shell may have sent a request that the kernel refused. -/
def Settled (stray : Prop) (σ : Stage) (i : Slot) (p : Fin 12) (table : CTable) : Stage → Prop
  | .gone => σ.born ≤ i.val ∨ 7 ≤ i.val
  | .fresh _ => ∃ n, σ = .expect n i ∧ p = service n ∧ table = capClear ∧ Seated n i
  | .told => ∃ n, σ = .grant n i table ∧ p = service n ∧ Seated n i
  | .unborn => p = progHello ∧ 7 ≤ σ.index ∧ 7 ≤ i.val
  | .work _ _ asked => Working σ i p table ∧ ∀ o, asked = some o → o.fits p
  | .hatch _ _ _ => Working σ i p table ∧ p = progPm
  | .lost d r => Working σ i p table ∧ IsShell p ∧ (stray ∧ r = -1 ∨ r = 0 ∧ d = 6)
  | .boot n asked => i = 0 ∧ p = progInit ∧ n ≤ 8 ∧ ∀ o, asked = some o → o.fits p
  | .expect n _ | .grant n _ _ => i = 0 ∧ p = progInit ∧ n < 8
  | .parked => i = 0 ∧ p = progInit

/- What a thread relies on in the child it brings up. -/
def Raised (a child : Stage) (table : CTable) : Prop :=
  match a with
  | .expect _ _ => ∃ ready, child = .fresh ready
  | .grant _ _ _ => child = .told
  | .hatch _ _ granted => child = .unborn ∧ if granted = true then table.hasEndpoint 1 = true else table = capClear
  | _ => True

/- A server owes what is awaited of it, and nothing else; only a line may be forgotten. -/
structure Debts (φ : Slot → Stage) : Prop where
  owed : ∀ o y, (φ o.server).owes o = some y → (φ y).asked = some o
  works : ∀ s y, (φ y).asked = some (.plain s) → (φ s).client = some y

structure Pact (stray : Prop) (φ : Slot → Stage) (prog : Slot → Fin 12) (table : Slot → CTable) : Prop where
  settled : ∀ i, Settled stray (φ 0) i (prog i) (table i) (φ i)
  root : (φ 0).boots
  children : ∀ i c, (φ i).child = some c → Raised (φ i) (φ c) (table c)
  debts : Debts φ

/- Thread `i` takes the stage `a`. -/
def one (φ : Slot → Stage) (i : Slot) (a : Stage) : Slot → Stage := fun k => if k = i then a else φ k

/- Both threads of a rendezvous, or of a birth, take a new stage. -/
def both (φ : Slot → Stage) (i : Slot) (a : Stage) (j : Slot) (b : Stage) : Slot → Stage := one (one φ i a) j b

section
variable {stray : Prop} {φ ψ : Slot → Stage} {prog prog' : Slot → Fin 12} {table table' : Slot → CTable} {i j k : Slot}
  {σ σ' a b : Stage} {p : Fin 12} {t : CTable} {o : Outstanding}

@[simp] theorem oneOwn : one φ i a i = a := if_pos rfl
theorem oneRest (other : k ≠ i) : one φ i a k = φ k := if_neg other

@[simp] theorem bothPeer : both φ i a j b j = b := oneOwn
theorem bothOwn (other : i ≠ j) : both φ i a j b i = a := (oneRest other).trans oneOwn
theorem bothRest (notOwn : k ≠ i) (notPeer : k ≠ j) : both φ i a j b k = φ k := (oneRest notPeer).trans (oneRest notOwn)

/-! The debts. -/

theorem Debts.same (h : Debts φ) (owes : ∀ k, (ψ k).owes = (φ k).owes) (asked : ∀ k, (ψ k).asked = (φ k).asked) : Debts ψ := by
  constructor
  · intro o y owed
    rw [asked]
    exact h.owed o y (owes o.server ▸ owed)
  · intro s y awaited
    have same : (ψ s).client = (φ s).client := congrFun (owes s) (.plain s)
    rw [same]
    exact h.works s y (asked y ▸ awaited)

theorem Debts.sameOne (h : Debts φ) (owes : a.owes = (φ i).owes) (asked : a.asked = (φ i).asked) : Debts (one φ i a) := by
  refine h.same ?_ ?_
  all_goals
    intro k
    by_cases own : k = i
    · subst own
      simpa
    · rw [oneRest own]

theorem Debts.sameBoth (h : Debts φ) (other : i ≠ j) (owes : a.owes = (φ i).owes ∧ b.owes = (φ j).owes)
    (asked : a.asked = (φ i).asked ∧ b.asked = (φ j).asked) : Debts (both φ i a j b) := by
  refine (h.sameOne owes.1 asked.1).sameOne ?_ ?_
  · rw [oneRest (Ne.symm other)]
    exact owes.2
  · rw [oneRest (Ne.symm other)]
    exact asked.2

/- A request is taken: the client awaits from now on what the server owes. -/
theorem Debts.request (h : Debts φ) (idle : (φ i).asked = none) (free : ∀ s, o = .plain s → (φ s).client = none)
    (owes : ∀ o', (ψ o'.server).owes o' = if o' = o then some i else (φ o'.server).owes o')
    (asked : ∀ y, (ψ y).asked = if y = i then some o else (φ y).asked) : Debts ψ := by
  constructor
  · intro o' y owed
    rw [owes] at owed
    rw [asked]
    split at owed
    · simp_all
    · have before := h.owed o' y owed
      rw [if_neg (fun same => by simp [same,idle] at before)]
      exact before
  · intro s y awaited
    rw [asked] at awaited
    have now := owes (.plain s)
    split at awaited
    · cases awaited
      simp_all [Outstanding.server,Stage.owes]
    · have before := h.works s y awaited
      rw [if_neg (fun same => by simp [free s same.symm] at before)] at now
      exact now.trans before

/- A reply is taken: the debt is gone on both sides. -/
theorem Debts.reply (h : Debts φ) (owed : (φ o.server).owes o = some j)
    (owes : ∀ o', (ψ o'.server).owes o' = if o' = o then none else (φ o'.server).owes o')
    (asked : ∀ y, (ψ y).asked = if y = j then none else (φ y).asked) : Debts ψ := by
  have awaited := h.owed o j owed
  constructor
  · intro o' y owed'
    rw [owes] at owed'
    rw [asked]
    split at owed'
    · cases owed'
    · rename_i other
      have before := h.owed o' y owed'
      rw [if_neg (fun same => by simp_all)]
      exact before
  · intro s y awaited'
    rw [asked] at awaited'
    split at awaited'
    · cases awaited'
    · rename_i other
      have before := h.works s y awaited'
      have now := owes (.plain s)
      rw [if_neg (fun same => by subst same; exact other (Option.some.inj (before.symm.trans owed)))] at now
      exact now.trans before

/- What the two sides of a rendezvous leave behind. -/
theorem Debts.requestBoth (h : Debts φ) (other : i ≠ j) (server : o.server = j) (idle : (φ i).asked = none)
    (free : ∀ s, o = .plain s → (φ j).client = none) (own : a.owes = (φ i).owes ∧ a.asked = some o)
    (peer : (∀ o', o'.server = j → b.owes o' = if o' = o then some i else (φ j).owes o') ∧ b.asked = (φ j).asked) :
    Debts (both φ i a j b) := by
  refine h.request (i := i) (o := o) idle (fun s plain => ?_) (fun o' => ?_) fun y => ?_
  · subst plain
    obtain rfl : s = j := server
    exact free s rfl
  · by_cases atPeer : o'.server = j
    · rw [atPeer,bothPeer]
      exact peer.1 o' atPeer
    · rw [if_neg (show o' ≠ o from fun same => atPeer (same ▸ server))]
      by_cases atOwn : o'.server = i
      · rw [atOwn,bothOwn other,own.1]
      · rw [bothRest atOwn atPeer]
  · by_cases atPeer : y = j
    · subst atPeer
      rw [bothPeer,if_neg (Ne.symm other),peer.2]
    · by_cases atOwn : y = i
      · subst atOwn
        rw [bothOwn other,if_pos rfl,own.2]
      · rw [bothRest atOwn atPeer,if_neg atOwn]

theorem Debts.replyBoth (h : Debts φ) (other : i ≠ j) (server : o.server = i) (owed : (φ i).owes o = some j)
    (own : (∀ o', o'.server = i → a.owes o' = if o' = o then none else (φ i).owes o') ∧ a.asked = (φ i).asked)
    (peer : b.owes = (φ j).owes ∧ b.asked = none) : Debts (both φ i a j b) := by
  refine h.reply (o := o) (j := j) (by rwa [server]) (fun o' => ?_) fun y => ?_
  · by_cases atPeer : o'.server = j
    · rw [atPeer,bothPeer,peer.1,if_neg]
      rintro rfl
      exact other (server.symm.trans atPeer)
    · by_cases atOwn : o'.server = i
      · rw [atOwn,bothOwn other]
        exact own.1 o' atOwn
      · rw [bothRest atOwn atPeer,if_neg]
        rintro rfl
        exact atOwn server
  · by_cases atPeer : y = j
    · subst atPeer
      rw [bothPeer,if_pos rfl,peer.2]
    · rw [if_neg atPeer]
      by_cases atOwn : y = i
      · subst atOwn
        rw [bothOwn other,own.2]
      · rw [bothRest atOwn atPeer]

/-! Where the programs are. -/

theorem Working.advance (h : Working σ i p t) (grow : σ.index ≤ σ'.index) : Working σ' i p t := by
  refine ⟨h.held,?_⟩
  obtain ⟨home,below⟩ | ⟨client,late,above⟩ := h.place
  · exact .inl ⟨home,by omega⟩
  · exact .inr ⟨client,by omega,above⟩

/- Init goes on; a thread that is not its child stays as it is. -/
theorem Settled.advance (h : Settled stray σ i p t a) (grow : σ.index ≤ σ'.index) (other : i ≠ 0) (child : σ.child ≠ some i)
    (empty : a = .gone → i.val < 7 → σ'.born ≤ σ.born ∨ σ'.born ≤ i.val) : Settled stray σ' i p t a := by
  cases a with
  | gone =>
    obtain unborn | high := h
    · by_cases low : i.val < 7
      · have := empty rfl low
        exact .inl (by omega)
      · exact .inr (by omega)
    · exact .inr high
  | fresh ready =>
    obtain ⟨n,same,_⟩ := h
    rw [same] at child
    exact absurd rfl child
  | told =>
    obtain ⟨n,same,_⟩ := h
    rw [same] at child
    exact absurd rfl child
  | unborn => exact ⟨h.1,h.2.1.trans grow,h.2.2⟩
  | work client reader asked => exact ⟨h.1.advance grow,h.2⟩
  | hatch client child granted => exact ⟨h.1.advance grow,h.2⟩
  | lost server sent => exact ⟨h.1.advance grow,h.2⟩
  | boot | expect | grant | parked => exact absurd h.1 other

theorem Settled.rootOnly (h : Settled stray σ i p t a) (boots : a.boots) : i = 0 := by
  cases a <;> first | exact h.1 | exact absurd boots id

theorem Stage.indexBorn (boots : σ.boots) : σ.index < σ.born := by
  cases σ <;> simp_all [Stage.boots,Stage.index,Stage.born]

theorem Pact.working (h : Pact stray φ prog table) (serves : (φ i).serves) : Working (φ 0) i (prog i) (table i) := by
  have settled := h.settled i
  cases stage : φ i with
  | work | hatch =>
    rw [stage] at settled
    exact settled.1
  | _ =>
    rw [stage] at serves
    exact absurd serves id

theorem Pact.workingAt (h : Pact stray φ prog table) {client reader asked} (stage : φ i = .work client reader asked) :
    Working (φ 0) i (prog i) (table i) := h.working (by rw [stage]; trivial)

theorem Pact.notRoot (h : Pact stray φ prog table) (young : ¬ (φ i).boots) : i ≠ 0 := fun zero => young (zero ▸ h.root)

theorem Pact.rootOnly (h : Pact stray φ prog table) (boots : (φ i).boots) : i = 0 := (h.settled i).rootOnly boots

theorem Working.notInit (h : Working σ i p t) : p ≠ progInit := by
  rintro rfl
  obtain ⟨home,_⟩ | ⟨hello | shell,_⟩ := h.place
  · cases home
  · cases hello
  · exact absurd shell (by decide)

theorem Working.shell (h : Working σ i p t) (shell : IsShell p) : 7 ≤ σ.index ∧ 7 ≤ i.val := by
  obtain ⟨home,_⟩ | ⟨_,late⟩ := h.place
  · obtain rfl | rfl := shell <;> cases home
  · exact late

theorem Working.server (h : Working σ i p t) (low : i.val ≤ 6) : home p = some i := by
  obtain ⟨home,_⟩ | ⟨_,_,late⟩ := h.place
  · exact home
  · omega

theorem Pact.manager (h : Pact stray φ prog table) {y c granted} (stage : φ i = .hatch y c granted) : i = 4 := by
  have settled := h.settled i
  rw [stage] at settled
  obtain ⟨working,manages⟩ := settled
  rw [manages] at working
  obtain ⟨home,_⟩ | ⟨hello | shell,_⟩ := working.place
  · exact (Option.some.inj home).symm
  · cases hello
  · exact absurd shell (by decide)

/- A server that init has released is in service. -/
theorem Pact.serving (h : Pact stray φ prog table) (low : 1 ≤ i.val) (high : i.val ≤ 6) (released : i.val ≤ (φ 0).index) :
    (φ i).serves ∧ home (prog i) = some i := by
  have settled := h.settled i
  have born := Stage.indexBorn h.root
  have notRoot : i ≠ 0 := fun same => by simp [same] at low
  cases stage : φ i with
  | gone =>
    rw [stage] at settled
    obtain unborn | late := settled <;> omega
  | fresh ready =>
    rw [stage] at settled
    obtain ⟨n,at',_,_,placed⟩ := settled
    rw [at'] at released
    simp only [Stage.index] at released
    simp only [Seated] at placed
    omega
  | told =>
    rw [stage] at settled
    obtain ⟨n,at',_,placed⟩ := settled
    rw [at'] at released
    simp only [Stage.index] at released
    simp only [Seated] at placed
    omega
  | unborn =>
    rw [stage] at settled
    have late := settled.2.2
    omega
  | work client reader asked =>
    rw [stage] at settled
    exact ⟨trivial,settled.1.server high⟩
  | hatch client child granted =>
    rw [stage] at settled
    exact ⟨trivial,settled.1.server high⟩
  | lost server sent =>
    rw [stage] at settled
    have late := (settled.1.shell settled.2.1).2
    omega
  | boot | expect | grant | parked =>
    rw [stage] at settled
    exact absurd settled.1 notRoot

theorem asksServer {s : Slot} (member : s ∈ asks p) : 1 ≤ s.val ∧ s.val ≤ 6 := by
  revert s p
  decide

/- A server only sends requests to servers that come before it. -/
theorem asksBelow {s : Slot} (place : home p = some i) (member : s ∈ asks p) : s.val < i.val := by
  revert s i p
  decide +kernel

theorem asksManager (member : 4 ∈ asks p) : IsShell p := by
  revert p
  decide

theorem Outstanding.fits.member (fits : o.fits p) : o.server ∈ asks p := by
  cases o with
  | plain s => exact fits
  | line s => exact fits.1

/- Whoever a working thread sends a request to is in service. -/
theorem Pact.asked (h : Pact stray φ prog table) {s : Slot} (working : Working (φ 0) i (prog i) t) (member : s ∈ asks (prog i)) :
    (φ s).serves ∧ home (prog s) = some s := by
  obtain ⟨low,high⟩ := asksServer member
  refine h.serving low high ?_
  obtain ⟨home,released⟩ | ⟨_,late,_⟩ := working.place
  · have below := asksBelow home member
    omega
  · omega

theorem askedStage (asked : a.asked = some o) :
    (∃ client reader, a = .work client reader (some o)) ∨ ∃ n, a = .boot n (some o) := by
  cases a <;> simp_all [Stage.asked]

theorem Pact.fits (h : Pact stray φ prog table) (asked : (φ i).asked = some o) : o.fits (prog i) := by
  have settled := h.settled i
  obtain ⟨client,reader,stage⟩ | ⟨n,stage⟩ := askedStage asked
  · rw [stage] at settled
    exact settled.2 o rfl
  · rw [stage] at settled
    exact settled.2.2.2 o rfl

/-! Parents and children. -/

theorem parentStage {c : Slot} (parent : a.child = some c) : a.boots ∨ ∃ y granted, a = .hatch y c granted := by
  cases a <;> simp_all [Stage.child,Stage.boots]

theorem raisedYoung {c : Slot} (parent : a.child = some c) (raised : Raised a b t) : b.young := by
  cases a with
  | expect =>
    obtain ⟨ready,rfl⟩ := raised
    trivial
  | grant =>
    cases raised
    trivial
  | hatch =>
    cases raised.1
    trivial
  | _ => cases parent

theorem Stage.young.quiet (young : a.young) : ¬ a.boots ∧ ¬ a.serves ∧ ¬ a.adult ∧ a.child = none := by
  cases a <;> simp_all [Stage.young,Stage.boots,Stage.serves,Stage.adult,Stage.child]

theorem Pact.childYoung (h : Pact stray φ prog table) (parent : (φ i).child = some j) : (φ j).young :=
  raisedYoung parent (h.children i j parent)

theorem Pact.onlyParent (h : Pact stray φ prog table) (parent : (φ i).child = some j) (parent' : (φ k).child = some j) :
    k = i := by
  have raised := h.children i j parent
  have raised' := h.children k j parent'
  have mixed : ∀ {σ τ : Stage}, σ.child = some j → σ.boots → (∃ y granted, τ = .hatch y j granted) →
      Raised σ (φ j) (table j) → Raised τ (φ j) (table j) → False := by
    rintro σ _ parent boots ⟨y,granted,rfl⟩ raised ⟨unborn,_⟩
    rw [unborn] at raised
    cases σ <;> simp_all [Stage.boots,Stage.child,Raised]
  obtain boots | hatches := parentStage parent
  · obtain boots' | hatches' := parentStage parent'
    · exact (h.rootOnly boots').trans (h.rootOnly boots).symm
    · exact (mixed parent boots hatches' raised raised').elim
  · obtain boots' | hatches' := parentStage parent'
    · exact (mixed parent' boots' hatches raised' raised).elim
    · obtain ⟨_,_,stage⟩ := hatches
      obtain ⟨_,_,stage'⟩ := hatches'
      exact (h.manager stage').trans (h.manager stage).symm

/- A parent and its child take a new stage; the other threads bring up no one of the two. -/
theorem Pact.raise (h : Pact stray φ prog table) (settled : ∀ k, Settled stray (both φ i a j b 0) k (prog' k) (table' k) (both φ i a j b k))
    (root : (both φ i a j b 0).boots) (sole : ∀ k, (φ k).child = some j → k = i) (grown : ¬ (φ i).young)
    (raised : ∀ c, a.child = some c → c = j ∧ Raised a b (table' j)) (childless : b.child = none) (other : i ≠ j)
    (kept : ∀ k, k ≠ i → k ≠ j → table' k = table k) (debts : Debts (both φ i a j b)) : Pact stray (both φ i a j b) prog' table' := by
  refine ⟨settled,root,fun k c parent => ?_,debts⟩
  by_cases atPeer : k = j
  · subst atPeer
    rw [bothPeer,childless] at parent
    cases parent
  · by_cases atOwn : k = i
    · subst atOwn
      rw [bothOwn other] at parent ⊢
      obtain ⟨rfl,raised⟩ := raised c parent
      rwa [bothPeer]
    · rw [bothRest atOwn atPeer] at parent ⊢
      have notOwn : c ≠ i := by
        rintro rfl
        exact grown (h.childYoung parent)
      have notPeer : c ≠ j := by
        rintro rfl
        exact atOwn (sole k parent)
      rw [bothRest notOwn notPeer,kept c notOwn notPeer]
      exact h.children k c parent

/-! Threads at work. -/

/- Init sends a request, or has its answer. -/
def Prints (a b : Stage) : Prop := ∃ n x y, a = .boot n x ∧ b = .boot n y ∧ ∀ o, y = some o → o.fits progInit

/- A thread that has started goes on at work; init at most prints. -/
def GrowsUp (stray : Prop) (φ : Slot → Stage) (prog : Slot → Fin 12) (table : Slot → CTable) (k : Slot) (b : Stage) : Prop :=
  ((φ k).adult ∨ (φ k).serves) ∧ b.adult ∧ Settled stray (φ 0) k (prog k) (table k) b ∨ k = 0 ∧ Prints (φ 0) b

theorem Pact.grown (h : Pact stray φ prog table) (debts : Debts ψ) (step : ∀ k, ψ k = φ k ∨ GrowsUp stray φ prog table k (ψ k)) :
    Pact stray ψ prog table := by
  have root : ψ 0 = φ 0 ∨ Prints (φ 0) (ψ 0) := by
    obtain same | ⟨adult,_⟩ | ⟨_,prints⟩ := step 0
    · exact .inl same
    · have boots := h.root
      cases stage : φ 0 <;> simp_all [Stage.boots,Stage.adult,Stage.serves]
    · exact .inr prints
  have young : ∀ k, (φ k).young → ψ k = φ k := by
    intro k young
    obtain ⟨notRoot,notServes,notAdult,_⟩ := young.quiet
    obtain same | ⟨adult | serves,_⟩ | ⟨zero,_⟩ := step k
    · exact same
    · exact absurd adult notAdult
    · exact absurd serves notServes
    · exact absurd (zero ▸ h.root) notRoot
  refine ⟨fun k => ?_,?_,fun k c parent => ?_,debts⟩
  · obtain same | ⟨n,x,y,old,new,fits⟩ := root
    · rw [same]
      obtain same | ⟨_,_,settled⟩ | ⟨zero,n,x,y,old,new,fits⟩ := step k
      · exact same ▸ h.settled k
      · exact settled
      · subst zero
        exact same ▸ h.settled 0
    · by_cases zero : k = 0
      · subst zero
        have settled := h.settled 0
        rw [old] at settled
        rw [new]
        exact ⟨rfl,settled.2.1,settled.2.2.1,fun o same => settled.2.1 ▸ fits o same⟩
      · have settled : Settled stray (φ 0) k (prog k) (table k) (ψ k) := by
          obtain same | ⟨_,_,settled⟩ | ⟨zero',_⟩ := step k
          · exact same ▸ h.settled k
          · exact settled
          · exact absurd zero' zero
        rw [old] at settled
        rw [new]
        exact settled.advance le_rfl zero nofun fun _ _ => .inl le_rfl
  · obtain same | ⟨n,x,y,_,new,_⟩ := root
    · exact same ▸ h.root
    · rw [new]
      trivial
  · have same : ψ k = φ k := by
      obtain same | ⟨_,adult,_⟩ | ⟨zero,n,x,y,_,new,_⟩ := step k
      · exact same
      · cases stage : ψ k <;> simp_all [Stage.child,Stage.adult]
      · rw [new] at parent
        cases parent
    rw [same] at parent ⊢
    rw [young c (h.childYoung parent)]
    exact h.children k c parent

theorem Pact.grownOne (h : Pact stray φ prog table) (grows : GrowsUp stray φ prog table i a) (debts : Debts (one φ i a)) :
    Pact stray (one φ i a) prog table := by
  refine h.grown debts fun k => ?_
  by_cases own : k = i
  · subst own
    exact .inr (by rwa [oneOwn])
  · exact .inl (oneRest own)

theorem Pact.grownBoth (h : Pact stray φ prog table) (other : i ≠ j) (own : GrowsUp stray φ prog table i a)
    (peer : GrowsUp stray φ prog table j b) (debts : Debts (both φ i a j b)) : Pact stray (both φ i a j b) prog table := by
  refine h.grown debts fun k => ?_
  by_cases atPeer : k = j
  · subst atPeer
    exact .inr (by rwa [bothPeer])
  · by_cases atOwn : k = i
    · subst atOwn
      exact .inr (by rwa [bothOwn other])
    · exact .inl (bothRest atOwn atPeer)

theorem Pact.worksOn (h : Pact stray φ prog table) {client client' reader reader' : Option Slot} {asked asked' : Option Outstanding}
    (stage : φ i = .work client reader asked) (fits : ∀ o, asked' = some o → o.fits (prog i)) :
    GrowsUp stray φ prog table i (.work client' reader' asked') :=
  .inl ⟨.inr (by rw [stage]; trivial),trivial,h.workingAt stage,fits⟩

end
end Mukern
