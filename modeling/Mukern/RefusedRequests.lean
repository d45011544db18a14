import Mukern.Compliance

/-! Who waits for the reply to a request that the kernel has refused. -/
namespace Mukern
open Kernel Rendezvous

/- The receive of a reply whose request was refused. -/
def Code.refused : Code → Bool
  | .recv _ (some sent) _ => sent = -1
  | _ => false

namespace Booted

/- Thread `x` sleeps in such a receive. -/
def strands (s : Booted) (x : Slot) : Bool := (s.kernel.threads x).state = .blocked && (s.code x).refused

/- A shell is about to ask the terminal of the other session. -/
def goesAstray (s : Booted) : Act → Bool
  | .run _ _ =>
    match s.kernel.current with
    | none => false
    | some i =>
      match s.code i with
      | .send dest _ _ => Astray (s.prog i) dest
      | _ => false
  | _ => false

end Booted

section
variable {ok : Word → Prop} {φ : Slot → Stage} {k : Kernel} {s : Booted} {i x : Slot} {f : Face} {code : Code} {a : Stage} {p : Fin 12}

/- Only a stage of waiting for nobody listens for a refused reply. -/
theorem Listens.refused {src : Int} {sent : Int} (listens : Listens p a src (some sent)) (refused : sent = -1) :
    ∃ d, a = .lost d (-1) := by
  cases listens with
  | lost => exact ⟨_,by rw [refused]⟩
  | answer | root => cases refused

theorem Linked.refused (linked : Linked ok p f code a) (refused : code.refused) (asleep : (∃ dest m, f.wire = .sending dest m) ∨ ∃ src, f.wire = .receiving src) :
    ∃ d, a = .lost d (-1) := by
  unfold Code.refused at refused
  split at refused
  · rename_i src sent next
    have refused : sent = -1 := by simpa using refused
    cases linked with
    | receiving wire outside calls listens =>
      cases calls
      exact listens.refused refused
    | sending wire outside call calls | sent wire outside calls => cases calls
    | idle wire | received wire =>
      obtain ⟨dest,m,sending⟩ | ⟨src,receiving⟩ := asleep
      · cases sending.symm.trans wire
      · cases receiving.symm.trans wire
    | faulting wire fault stage sends go | pardoned wire fault stage pardon go => exact go.1.refused refused
    | faulted wire fault stage go => exact nomatch go.1.refused refused
  · cases refused

/- In a run in which no shell asks for the terminal of the other session, nobody
waits for the reply to a refused request. -/
theorem noneStranded (h : Transition.Reach booted (fun s act => s.goesAstray act = false) s) (x : Slot) : s.strands x = false := by
  obtain ⟨φ,sound⟩ : ∃ φ, Sound (· = BitVec.ofNat 64 progHello.val) False φ s.config := by
    refine runSound (fun _ => rfl) (fun s ptr junk i straight current => ?_) h
    refine ⟨fun dest m next calls => .inr ?_,fun program next _ _ _ asked p named => ?_⟩
    · simpa [Booted.goesAstray,current,calls] using straight
    · have hello : cint program = 2 := by
        rw [asked]
        decide
      have second : p.val = 2 := by omega
      exact Fin.ext second
  refine Bool.eq_false_iff.mpr fun strands => ?_
  obtain ⟨blocked,refused⟩ : (s.kernel.threads x).state = .blocked ∧ (s.code x).refused = true := by
    simpa [Booted.strands] using strands
  obtain ⟨_,linked⟩ := sound.linked (faceBlocked blocked)
  obtain ⟨d,lost⟩ := linked.refused refused (wireBlocked (bootedCoherent h) blocked)
  have settled := sound.pact.settled x
  rw [lost] at settled
  obtain ⟨_,_,⟨stray,_⟩ | ⟨taken,_⟩⟩ := settled
  · exact stray
  · exact absurd taken (by decide)

end

/- A hundred steps of the boot. -/
theorem noneStrandedBooting : (Booted.drive (fun _ => 2) 0 0 (fun s act => !s.goesAstray act) 100
    (Booted.start Script.memory 0x110000)).strands 8 = false := by
  have reach : Transition.Reach booted (fun s act => (!s.goesAstray act) = true) (Booted.start Script.memory 0x110000) :=
    .start ⟨_,_,rfl⟩
  exact noneStranded ((Booted.driveReach 0 0 (fun s act => !s.goesAstray act) 100 reach).mono fun s act straight => by simpa using straight) 8

/- The second shell, whose terminal is the VGA server, prints its banner through the
console: the send is refused, and it waits for the reply. -/
theorem strandedSession : ¬ ∀ s, Transition.Reach booted (fun _ _ => True) s → ∀ x, s.strands x = false := by
  intro never
  have reach : Transition.Reach booted (fun _ _ => true = true) (Booted.start Script.memory 0x110000) := .start ⟨_,_,rfl⟩
  have driven := never _ ((Booted.driveReach 0 0 (fun _ _ => true) 239 reach).mono fun _ _ _ => trivial) 8
  exact absurd driven (by decide +kernel)

end Mukern
