import Mukern.Compliance

/-! Who still waits when no thread can run: nobody sleeps in a send, and the process
manager owes nobody an answer. -/
namespace Mukern
open Kernel Rendezvous

/- Every thread that lives is asleep, and no sender's receiver would take its message. -/
structure Still (c : Config) : Prop where
  asleep : ∀ i, (c.face i).presence = .live → (∃ dest m, (c.face i).wire = .sending dest m) ∨ ∃ src, (c.face i).wire = .receiving src
  apart : ∀ {i j m src}, (c.face i).presence = .live → (c.face j).presence = .live → (c.face i).wire = .sending (tid j) m →
    (c.face j).wire = .receiving src → src = -1 ∨ src = tid i → False

section
variable {stray : Prop} {ok : Word → Prop} {φ : Slot → Stage} {c : Config} {k : Kernel} {i j y z : Slot} {a : Stage} {p : Fin 12}
  {dest src : Int} {m : IpcMsg} {mark : Option Int} {o : Outstanding} {refused : Option Stage}

/- What the stage of a thread says of the call it sleeps in. -/
theorem Sound.sleeps (h : Sound ok stray φ c) (still : Still c) (present : φ i ≠ .gone) :
    (∃ dest m taken refused, (c.face i).wire = .sending dest m ∧ Sends ok (c.prog i) (φ i) dest m taken refused) ∨
      ∃ src mark, (c.face i).wire = .receiving src ∧ Listens (c.prog i) (φ i) src mark := by
  have live := h.present present
  obtain ⟨_,linked⟩ := h.linked live
  obtain ⟨dest,m,sending⟩ | ⟨src,receiving⟩ := still.asleep i live
  · obtain ⟨taken,refused,sends,_⟩ := linked.offers sending
    exact .inl ⟨dest,m,taken,refused,sending,sends⟩
  · obtain ⟨mark,listens⟩ := linked.listens receiving
    exact .inr ⟨src,mark,receiving,listens⟩

theorem Listens.answers (listens : Listens p a src mark) (asked : a.asked = some o) : src = tid o.server := by
  cases listens <;> cases asked <;> rfl

/- A reply is never late: its client listens for it. -/
theorem Sound.replies (h : Sound ok stray φ c) (still : Still c) (present : φ o.server ≠ .gone) (asked : (φ y).asked = some o)
    (sending : (c.face o.server).wire = .sending (tid y) m) : False := by
  have waits : φ y ≠ .gone := by
    intro gone
    rw [gone] at asked
    cases asked
  obtain ⟨_,_,_,_,_,sends⟩ | ⟨src,mark,receiving,listens⟩ := h.sleeps still waits
  · cases sends.idle.symm.trans asked
  · exact still.apart (h.present present) (h.present waits) sending receiving (.inr (listens.answers asked))

/- The child of the process manager listens for the word to go. -/
theorem Sound.hatches (h : Sound ok stray φ c) (still : Still c) {y child granted} (stage : φ i = .hatch y child granted)
    (sending : (c.face i).wire = .sending (tid child) m) : False := by
  have unborn : φ child = .unborn := by
    have raised := h.pact.children i child (by rw [stage]; rfl)
    rw [stage] at raised
    exact raised.1
  have manager := h.pact.manager stage
  have own : φ i ≠ .gone := by
    rw [stage]
    exact nofun
  have waits : φ child ≠ .gone := by
    rw [unborn]
    exact nofun
  obtain ⟨_,_,_,_,_,sends⟩ | ⟨src,mark,receiving,listens⟩ := h.sleeps still waits
  · rw [unborn] at sends
    cases sends
  · rw [unborn] at listens
    cases listens
    exact still.apart (h.present own) (h.present waits) sending receiving (.inr (by rw [manager]; rfl))

theorem clientServes (client : a.client = some y) : a.serves := by
  cases a <;> trivial

theorem homeShell (place : home p = some i) : ¬ IsShell p := by
  rintro (rfl | rfl) <;> cases place

/- By induction along the servers: a server at its loop takes what comes, and one that
waits does so for a server before it. -/
theorem Sound.served (h : Sound ok stray φ c) (still : Still c) (j : Slot) (serves : (φ j).serves) (place : home (c.prog j) = some j) :
    (∀ z m, φ z ≠ .gone → (c.face z).wire ≠ .sending (tid j) m) ∧ ∀ z, (φ z).asked ≠ some (.plain j) := by
  induction j using WellFoundedLT.induction with
  | ind j before =>
  have working := h.pact.working serves
  have below : ∀ s ∈ asks (c.prog j), (φ s).serves ∧ home (c.prog s) = some s ∧ s < j := fun s member =>
    ⟨(h.pact.asked working member).1,(h.pact.asked working member).2,asksBelow place member⟩
  have notGone : φ j ≠ .gone := serves.present
  generalize stage : φ j = σ at serves
  obtain ⟨dest,m,taken,refused,sending,sends⟩ | ⟨src,mark,receiving,listens⟩ := h.sleeps still notGone
  · exfalso
    rw [stage] at sends
    cases sends with
    | hatch => exact h.hatches still stage sending
    | reply => exact h.replies (o := .plain j) still notGone (h.pact.debts.owed (.plain j) _ (by rw [Outstanding.server,stage]; rfl)) sending
    | line => exact h.replies (o := .line j) still notGone (h.pact.debts.owed (.line j) _ (by rw [Outstanding.server,stage]; rfl)) sending
    | plain member =>
      obtain ⟨serves',place',less⟩ := below _ member
      exact (before _ less serves' place').1 j _ notGone sending
    | askLine member shell => exact homeShell place shell
    | vputs shell | probe shell => exact homeShell place shell
    | _ => exact serves
  · rw [stage] at listens
    cases listens with
    | @answer client reader a =>
      have fits := h.pact.fits (i := j) (o := a) (by rw [stage]; rfl)
      cases a with
      | plain s =>
        obtain ⟨serves',place',less⟩ := below s fits
        exact absurd (by rw [stage]; rfl) ((before s less serves' place').2 j)
      | line s => exact absurd fits.2.1 (homeShell place)
    | serve =>
      refine ⟨fun z m present sending => still.apart (h.present present) (h.present notGone) sending receiving (.inl rfl),fun z asked => ?_⟩
      have client := h.pact.debts.works j z asked
      rw [stage] at client
      cases client
    | _ => exact absurd serves id

/- Nobody sleeps in a send. -/
theorem Sound.listening (h : Sound ok stray φ c) (still : Still c) (present : φ i ≠ .gone) :
    ∃ src mark, (c.face i).wire = .receiving src ∧ Listens (c.prog i) (φ i) src mark := by
  refine (h.sleeps still present).resolve_left ?_
  rintro ⟨dest,m,taken,refused,sending,sends⟩
  have taken : ∀ {s : Slot}, (φ s).serves → home (c.prog s) = some s → dest ≠ tid s := by
    rintro s serves place rfl
    exact (h.served still s serves place).1 i m present sending
  have released : ∀ {s : Slot}, 1 ≤ s.val → s.val ≤ 6 → s.val ≤ (φ 0).index → dest ≠ tid s := by
    intro s low high up
    obtain ⟨serves,place⟩ := h.pact.serving low high up
    exact taken serves place
  have root : φ 0 ≠ .gone := by
    intro gone
    have boots := h.pact.root
    rw [gone] at boots
    exact boots
  generalize stage : φ i = σ at sends
  cases sends with
  | announce =>
    have settled := h.pact.settled i
    rw [stage] at settled
    obtain ⟨n,expects,_⟩ := settled
    obtain ⟨_,_,_,_,_,sends⟩ | ⟨src,mark,receiving,listens⟩ := h.sleeps still root
    · rw [expects] at sends
      cases sends
    · rw [expects] at listens
      cases listens
      exact still.apart (j := 0) (h.present present) (h.present root) sending receiving (.inl rfl)
  | @release n child table m granted =>
    obtain rfl := h.pact.rootOnly (i := i) (by rw [stage]; trivial)
    have told : φ child = .told := by
      have raised := h.pact.children 0 child (by rw [stage]; rfl)
      rwa [stage] at raised
    have waits : φ child ≠ .gone := by
      rw [told]
      exact nofun
    obtain ⟨_,_,_,_,_,sends⟩ | ⟨src,mark,receiving,listens⟩ := h.sleeps still waits
    · rw [told] at sends
      cases sends
    · rw [told] at listens
      cases listens
      exact still.apart (h.present present) (h.present waits) sending receiving (.inr rfl)
  | hatch => exact h.hatches still stage sending
  | reply => exact h.replies (o := .plain i) still present (h.pact.debts.owed (.plain i) _ (by rw [Outstanding.server,stage]; rfl)) sending
  | line => exact h.replies (o := .line i) still present (h.pact.debts.owed (.line i) _ (by rw [Outstanding.server,stage]; rfl)) sending
  | plain member | askLine member =>
    have asked := h.pact.asked (h.pact.workingAt stage) member
    exact taken asked.1 asked.2 rfl
  | boot member up =>
    obtain rfl := h.pact.rootOnly (i := i) (by rw [stage]; trivial)
    exact released (asksServer member).1 (asksServer member).2 (by rw [stage]; exact up) rfl
  | vputs shell => exact released (s := 6) (by decide) (by decide) (le_trans (by decide) ((h.pact.workingAt stage).shell shell).1) rfl
  | probe shell => exact released (s := 2) (by decide) (by decide) (le_trans (by decide) ((h.pact.workingAt stage).shell shell).1) rfl

/- Nobody awaits a plain answer, of whichever server. -/
theorem Sound.answersAll (h : Sound ok stray φ c) (still : Still c) (s : Slot) : (φ i).asked ≠ some (.plain s) := by
  intro asked
  have serves : (φ s).serves := clientServes (h.pact.debts.works s i asked)
  have place := (h.pact.working serves).server (asksServer (h.pact.fits asked).member).2
  exact (h.served still s serves place).2 i asked

/- Nobody listens for an answer of the process manager. -/
theorem Sound.answeredFor (h : Sound ok stray φ c) (still : Still c) (listens : Listens (c.prog i) (φ i) pmTid (some 0)) : False := by
  have settled := h.pact.settled i
  have owed : ∀ o : Outstanding, pmTid = tid o.server → (φ i).asked ≠ some o := by
    intro o manager asked
    have server : 4 = o.server := tidInj manager
    cases o with
    | plain s => exact h.answersAll still s asked
    | line s =>
      obtain rfl : 4 = s := server
      exact absurd (h.pact.fits asked).2.2 (by decide)
  generalize stage : φ i = σ at listens
  generalize manager : pmTid = src at listens
  generalize taken : some (0 : Int) = mark at listens
  cases listens with
  | answer | root => exact owed _ manager (by rw [stage]; rfl)
  | @lost d r =>
    cases taken
    have server : 4 = d := tidInj manager
    rw [stage,← server] at settled
    obtain ⟨_,_,⟨_,refused⟩ | ⟨_,vga⟩⟩ := settled
    · exact absurd refused (by decide)
    · exact absurd vga (by decide)
  | _ => cases taken

end

namespace Code

/- A call that asks the process manager for a program, or listens for its answer. -/
def asksManager : Code → Bool
  | .send dest m _ => dest = pmTid && m.label = msgSpawn
  | .recv src (some sent) _ => src = pmTid && sent = 0
  | _ => false

end Code

namespace Kernel

/- No thread runs or could run. -/
def Quiet (k : Kernel) : Prop := ∀ i, (k.threads i).state ≠ .runnable ∧ (k.threads i).state ≠ .running
instance (k : Kernel) : Decidable k.Quiet := by unfold Quiet; infer_instance

end Kernel

namespace Booted

/- Thread `x` sleeps in its request to the process manager, or waits for the answer. -/
def awaitsManager (s : Booted) (x : Slot) : Bool := (s.kernel.threads x).state = .blocked && (s.code x).asksManager

/- The process manager is about to start a program other than hello. -/
def breedsOther (s : Booted) : Act → Bool
  | .run _ _ =>
    match s.kernel.current with
    | none => false
    | some i =>
      match s.code i with
      | .spawn program _ => s.prog i = progPm && s.kernel.freeThread ≠ none &&
          match progById (cint program) with
          | some p => p ≠ progHello
          | none => false
      | _ => false
  | _ => false

end Booted

section
variable {named : Word → Word} {s : Booted} {x : Slot}

theorem wireReceiving {t : Thread} {src : Int} (phase : wire t = .receiving src) : t.ipcState = .receiving ∧ t.ipcPeer = src := by
  unfold wire at phase
  cases point : t.saved <;> simp only [point] at phase
  case send => split at phase <;> cases phase
  case recv =>
    split at phase
    · rename_i receiving
      cases phase
      exact ⟨receiving,rfl⟩
    · cases phase
  all_goals cases phase

theorem quietStill (coherent : Coherent s.kernel) (quiet : s.kernel.Quiet) : Still s.config := by
  have blocked : ∀ i, (s.config.face i).presence = .live → (s.kernel.threads i).state = .blocked := by
    intro i live
    have live : presence (s.kernel.threads i) = .live := live
    obtain ⟨waits,runs⟩ := quiet i
    unfold presence at live
    cases state : (s.kernel.threads i).state <;> simp_all
  refine ⟨fun i live => wireBlocked coherent (blocked i live),fun {i j m src} live live' sending receiving accepts => ?_⟩
  obtain ⟨sends,peer,_⟩ := wireSending sending
  obtain ⟨receives,wants⟩ := wireReceiving receiving
  refine coherent.apart i j ⟨⟨blocked i live,sends,peer⟩,blocked j live',receives,?_⟩
  rw [wants]
  exact accepts

/- Nobody is asleep in a call to the process manager. -/
theorem Sound.unasked {stray : Prop} {ok : Word → Prop} {φ : Slot → Stage} {c : Config} {i : Slot} (h : Sound ok stray φ c) (still : Still c)
    (live : (c.face i).presence = .live) (asks : (c.code i).asksManager) : False := by
  obtain ⟨present,linked⟩ := h.linked live
  obtain ⟨src,_,receiving,_⟩ := h.listening still present
  unfold Code.asksManager at asks
  split at asks
  · rename_i dest m next calls
    cases linked with
    | faulted wire fault stage go =>
      have settled := h.pact.settled i
      rw [stage] at settled
      rw [calls,settled.2.1] at go
      obtain ⟨taken,refused,sends,_⟩ := go
      cases sends with
      | @boot _ s m member =>
        obtain ⟨manager,_⟩ : tid s = pmTid ∧ m.label = msgSpawn := by simpa using asks
        have server : s = 4 := tidInj (j := 4) manager
        rw [server] at member
        exact absurd member (by decide)
    | receiving wire outside calls' => cases calls.symm.trans calls'
    | idle wire | sending wire | sent wire | received wire | faulting wire | pardoned wire => cases receiving.symm.trans wire
  · rename_i src sent next calls
    obtain ⟨rfl,rfl⟩ : src = pmTid ∧ sent = 0 := by simpa using asks
    cases linked with
    | faulted wire fault stage go =>
      rw [calls] at go
      exact nomatch go.1
    | receiving wire outside calls' listens =>
      cases calls.symm.trans calls'
      exact h.answeredFor still listens
    | idle wire | sending wire | sent wire | received wire | faulting wire | pardoned wire => cases receiving.symm.trans wire
  · cases asks

/- In a run in which the process manager starts no program but hello it answers every
request: as long as a client waits for it, some thread can run. -/
theorem managerAnswers (h : Transition.Reach (bootedWith named) (fun s act => s.breedsOther act = false) s) (quiet : s.kernel.Quiet) (x : Slot) :
    s.awaitsManager x = false := by
  obtain ⟨φ,sound⟩ : ∃ φ, Sound (fun _ => True) True φ s.config := by
    refine runSound (fun _ => trivial) (fun s ptr junk i straight current => ?_) h
    refine ⟨fun _ _ _ _ => .inl trivial,fun program next calls manager free _ p named => ?_⟩
    have numbered : progById (cint program) = some p := by rw [named,progByIdVal]
    simpa [Booted.breedsOther,current,calls,manager,free,numbered] using straight
  refine Bool.eq_false_iff.mpr fun awaits => ?_
  obtain ⟨blocked,asks⟩ : (s.kernel.threads x).state = .blocked ∧ (s.code x).asksManager = true := by
    simpa [Booted.awaitsManager] using awaits
  exact sound.unasked (quietStill (bootedCoherent h) quiet) (faceBlocked blocked) asks

/- The boot, until both shells wait for good. -/
theorem managerAnswersBooted : (Booted.drive (fun _ => 2) 0 0 (fun s act => !s.breedsOther act) 238
    (Booted.start Script.memory 0x110000)).awaitsManager 7 = false := by
  have reach : Transition.Reach (bootedWith fun _ => 2) (fun s act => (!s.breedsOther act) = true) (Booted.start Script.memory 0x110000) :=
    .start ⟨_,_,rfl⟩
  exact managerAnswers ((Booted.driveReach 0 0 (fun s act => !s.breedsOther act) 238 reach).mono fun s act keeps => by simpa using keeps)
    (by decide +kernel) 7

/- The shell asks for app, which asks the file server for its file before it listens to
the process manager: its send is refused, it waits for the reply, and the manager waits for it. -/
theorem managerStuck : ¬ ∀ s, Transition.Reach (bootedWith id) (fun _ _ => True) s → s.kernel.Quiet → ∀ x, s.awaitsManager x = false := by
  intro never
  have reach : Transition.Reach (bootedWith id) (fun _ _ => true = true) (Booted.start Script.memory 0x110000) := .start ⟨_,_,rfl⟩
  let stuck := Booted.drive id 4 7 (fun _ _ => true) 251 (Booted.start Script.memory 0x110000)
  have sleeps : stuck.kernel.Quiet ∧ stuck.awaitsManager 7 = true := by decide +kernel
  have reached : Transition.Reach (bootedWith id) (fun _ _ => True) stuck :=
    (Booted.driveReach 4 7 (fun _ _ => true) 251 reach).mono fun _ _ _ => trivial
  exact absurd sleeps.2 (Bool.eq_false_iff.mp (never stuck reached sleeps.1 7))

end
end Mukern
