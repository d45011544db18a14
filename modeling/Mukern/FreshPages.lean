import Mukern.ProgramImages
import Mukern.MemorySteps
import Mukern.SyscallFailure

/-! What a page holds when `SYS_MAP` has mapped it: whatever was in the frame that
`pmm_alloc_frame` handed out, for neither clears it. -/
namespace Mukern
open Kernel RadixTree Layout

namespace Kernel

end Kernel

section
variable {m m' : Memory} {va va' pa flags : Word} {f g n a : Nat}

theorem takeRoom {k : Nat} (tree : PageTree m) (frontier : Frontier m va k n) (enough : 4 ≤ m.pmm.freeSet.card) : Room m.takeFrame va := by
  have free : m.pmm.freeSet ≠ ∅ := by
    intro empty
    rw [empty] at enough
    exact absurd enough (by decide)
  obtain ⟨g,member,_,_,_,set⟩ := takeFree tree free
  have left : m.takeFrame.pmm.freeSet.card + 1 = m.pmm.freeSet.card := by rw [set,Finset.card_erase_add_one member]
  exact .inr ⟨k,n,⟨frontier.level,frontier.here,frontier.absent⟩,by omega⟩

theorem alignedPage (x : Word) : pageNumber (pageAlignDown x) = pageNumber x := by
  have shifts : (pageAlignDown x >>> 12).toNat = (x >>> 12).toNat := congrArg BitVec.toNat (Pmm.clearedShift x)
  simp only [BitVec.toNat_ushiftRight,Nat.shiftRight_eq_div_pow] at shifts
  rw [pageNumber,pageNumber]
  omega

end

section
variable {k : Kernel} {i : Slot} {tf : Trapframe} {f : Nat}

end

/- The kernel after boot on the small machine, with any earlier contents of memory. -/
def smallBoot (words : Words) : Kernel := Kernel.boot (bootMemory smallTables Pmm.smallInfo words fun _ => 0) 0x110000

/- No free frame lies in the loader's tables. -/
theorem notLoader {words : Words} {f : Nat} (free : f ∈ (smallBoot words).memory.pmm.freeSet) :
    ¬ (smallTables.pml4 ≤ f ∧ f < smallTables.pml4 + 3) := by
  intro within
  have tree : PageTree (smallBoot words).memory := bootTree (by decide)
  have there : (smallBoot words).memory.layout.table (smallBoot words).memory.words (List.replicate (f - smallTables.pml4) (0 : Fin 512)) =
      some (smallTables.pml4 + (f - smallTables.pml4)) := bootLink (by omega)
  rw [show smallTables.pml4 + (f - smallTables.pml4) = f by omega] at there
  exact tree.live _ _ there free

end Mukern
