import Mukern.PhysicalMemory

/-! `kernel/vm.c`: the bitmap frame allocator. Frame numbers and counts are
natural numbers: `total_frames` is `ram_top >> 12`, so no sum of them wraps. -/
namespace Mukern

structure Pmm where
  bitmap : Nat → BitVec 8
  totalFrames : Nat
  freeFrames : Nat
  allocHint : Nat

namespace Pmm

def bmSet (p : Pmm) (f : Nat) : Pmm :=
  { p with bitmap := fun j => if j = f / 8 then p.bitmap j ||| ((1 : BitVec 8) <<< (f % 8)) else p.bitmap j }

def bmClear (p : Pmm) (f : Nat) : Pmm :=
  { p with bitmap := fun j => if j = f / 8 then p.bitmap j &&& ~~~((1 : BitVec 8) <<< (f % 8)) else p.bitmap j }

def bmTest (p : Pmm) (f : Nat) : Bool := (p.bitmap (f / 8)).getLsbD (f % 8)

def markUsed (p : Pmm) (f : Nat) : Pmm :=
  if f < p.totalFrames ∧ ¬ p.bmTest f then
    { p.bmSet f with freeFrames := p.freeFrames - 1 }
  else p

def markFree (p : Pmm) (f : Nat) : Pmm :=
  if f < p.totalFrames ∧ p.bmTest f then
    { p.bmClear f with freeFrames := p.freeFrames + 1 }
  else p

/- The search loop of `pmm_alloc_frame` from its counter `i` on. -/
def scan (p : Pmm) : (fuel i : Nat) → Option Nat
  | 0, _ => none
  | fuel + 1, i =>
    let f := (p.allocHint + i) % p.totalFrames
    if p.bmTest f then p.scan fuel (i + 1) else some f

/- A result of 0 is "out of memory". -/
def allocFrame (p : Pmm) : Pmm × Word :=
  match p.scan p.totalFrames 0 with
  | some f => ({ p.bmSet f with freeFrames := p.freeFrames - 1, allocHint := f + 1 },
      BitVec.ofNat 64 (f <<< 12))
  | none => (p, 0)

def freeFrame (p : Pmm) (frame : Word) : Pmm := p.markFree (frame.toNat >>> 12)

end Pmm
end Mukern
