import Mukern.Library.Coroutines

/-! Traps on one processor: the entry code puts what a trap interrupts into a frame on a
stack and calls a handler, and the exit code takes it back from there. A few bytes of the
frame are the handler's, for an answer to the interrupted program. -/
namespace Coroutines
open Buffers LittleEndian

structure Traps (isa : Isa) where
  Core : Type                                              -- the processor with its system registers
  Cause : Type
  View : Type                                              -- what a program can tell of the processor
  cpu : Core → isa.Cpu
  view : Core → View
  top : (kernel : BitVec 64) → Core → BitVec 64            -- where the frame ends
  frameBytes : Nat
  below : Nat                                              -- what the entry code pushes under the frame
  Answer : Nat → Prop                                      -- the bytes of the frame that are the handler's
  answered : View → Bytes → (base : Nat) → View
  enter : Cause → (kernel : BitVec 64) → Core × Bytes → Core × Bytes
  leave : Core × Bytes → Core × Bytes

namespace Traps
variable {isa : Isa} (traps : Traps isa)

def base (kernel : BitVec 64) (c : traps.Core) : Nat := (traps.top kernel c).toNat - traps.frameBytes

/- The program goes on where the trap has interrupted it. -/
structure Lawful : Prop where
  enters : ∀ {cause kernel c m} {c' : traps.Core} {m' : Bytes}, traps.enter cause kernel (c,m) = (c',m') →
    traps.frameBytes + traps.below ≤ (traps.top kernel c).toNat →
    ∀ i, i < traps.base kernel c - traps.below ∨ (traps.top kernel c).toNat ≤ i → m' i = m i
  leaves : ∀ {cause kernel c m d} {c' : traps.Core} {m' m'' : Bytes}, traps.enter cause kernel (c,m) = (c',m') →
    traps.frameBytes + traps.below ≤ (traps.top kernel c).toNat → isa.Code (isa.pc (traps.cpu c)) →
    (isa.sp (traps.cpu d)).toNat = traps.base kernel c →
    (∀ i, traps.base kernel c ≤ i → i < (traps.top kernel c).toNat → ¬ traps.Answer (i - traps.base kernel c) → m'' i = m' i) →
    traps.view (traps.leave (d,m'')).1 = traps.answered (traps.view c) m'' (traps.base kernel c) ∧ (traps.leave (d,m'')).2 = m''

end Traps

namespace Arena
variable {isa : Isa} {τ : Type} {A : Arena isa τ} {s : Running isa τ} {t u : τ} {i : Nat}

/- The frame of a trap fits on the stack of the current task. -/
def TrapRoom (A : Arena isa τ) (traps : Traps isa) (s : Running isa τ) (kernel : BitVec 64) (c : traps.Core) : Prop :=
  A.lo s.current + (traps.frameBytes + traps.below) ≤ (traps.top kernel c).toNat ∧ (traps.top kernel c).toNat ≤ (A.top s.current).toNat

/- The entry of a trap is work of the current task. -/
theorem trapRespects {traps : Traps isa} (lawful : traps.Lawful) {c c' : traps.Core} {memory : Bytes} {cause : traps.Cause}
    {kernel : BitVec 64} (room : A.TrapRoom traps s kernel c) (entered : traps.enter cause kernel (c,s.memory) = (c',memory)) : A.Respects s memory := by
  obtain ⟨low,high⟩ := room
  have outside := lawful.enters entered (by omega)
  rintro t i (⟨other,above,below⟩ | ⟨above,below⟩)
  · have apart := A.stacksApart _ _ other
    exact outside i (by unfold Traps.base; omega)
  · have apart := A.cellOutside t s.current
    exact outside i (by unfold Traps.base; omega)

/- Planting a frame leaves the other stacks as they are. -/
theorem plantApart (lawful : isa.Lawful) (other : u ≠ t) (fn arg : BitVec 64) (low : A.lo t ≤ i) (high : i < (A.top t).toNat) :
    (A.plant s u fn arg).memory i = s.memory i := by
  rcases planted : isa.plant A.entry (A.top u) fn arg s.memory with ⟨memory,sp⟩
  have room := A.room u
  obtain ⟨_,_,outside⟩ := lawful.plants planted (by omega)
  have apart := A.stacksApart _ _ other
  have cell := A.cellOutside u t
  have after : (A.plant s u fn arg).memory = putWord memory (A.cell u).toNat sp := by simp only [plant,planted]
  rw [after,putWordOther (by omega),outside i (by omega)]

/- A switch writes below the stack pointer of the task that leaves. -/
theorem switchApart (lawful : isa.Lawful) (room : A.Room s) (next : τ) (ret : BitVec 64) (low : A.lo t ≤ i) (high : i < (A.top t).toNat)
    (own : s.current = t → (isa.sp s.cpu).toNat ≤ i) : (A.switch s next ret).memory i = s.memory i := by
  rcases switched : isa.switch (A.cell s.current) (word s.memory (A.cell next).toNat) ret (s.cpu,s.memory) with ⟨cpu,memory⟩
  obtain ⟨bottom,below⟩ := room
  have place := A.cellOutside s.current s.current
  have cell := A.cellOutside s.current t
  obtain ⟨_,_,outside⟩ := lawful.saves switched (by omega) (by omega)
  have after : (A.switch s next ret).memory = memory := by simp only [switch,switched]
  have apart : i < (isa.sp s.cpu).toNat - isa.frameBytes ∨ (isa.sp s.cpu).toNat ≤ i := by
    by_cases same : s.current = t
    · exact .inr (own same)
    · have lies := A.stacksApart _ _ same
      omega
  rw [after,outside i apart (by omega)]

end Arena
end Coroutines
