import Mukern.FrameReferences
import Mukern.UserPointers

/-! `kernel/proc.c`: the loader of the flat binaries. It maps the pages of every program,
zeroes them and copies the image, all through the address space that it builds. A copy is
translated by the tables that stand when it starts; `none` is a fault in the kernel. -/
namespace Mukern
open RadixTree Layout

/- `*(uint8_t *)(va + j) = bytes[j]`, in kernel mode. -/
def Memory.writeBytes (m : Memory) (va : Word) (bytes : List (BitVec 8)) : Option Memory :=
  (m.kernelSpan va bytes.length).map fun span => { m with words := m.words.store (span.zip bytes) }

/- One turn of `map_zeroed`. Neither result of the two calls is looked at. -/
def Memory.mapZeroedPage (m : Memory) (va : Word) : Option Memory :=
  (m.takeFrame.vmmMap va m.pmm.allocFrame.2 vmUserRw).1.writeBytes va (List.replicate 4096 0)

def Memory.mapZeroed (m : Memory) (va : Word) : (pages : Nat) → Option Memory
  | 0 => some m
  | pages + 1 => do
    let m ← m.mapZeroedPage va
    m.mapZeroed (va + 4096) pages

structure Prog where
  image : List (BitVec 8)
  base : Word
  stackTop : Word

/- `IMG_BYTES` is 16 pages, `STK_BYTES` is 4. -/
def Memory.loadOne (m : Memory) (pr : Prog) : Option Memory := do
  let m ← m.mapZeroed pr.base 16
  let m ← m.mapZeroed (pr.stackTop - 0x4000) 4
  m.writeBytes pr.base pr.image

/- `INIT_BASE` to `SHELL2_BASE`, by program number. -/
def progBases : List Word := [0x400000000000,0x400000100000,0x400000200000,0x400000300000,0x400000500000,0x400000600000,
  0x400000700000,0x400000800000,0x400000900000,0x400000a00000,0x400000c00000,0x400000d00000]

/- The table `progs`; `STK_OFFSET` is 0x80000. -/
def progs (images : List (List (BitVec 8))) : List Prog := List.zipWith (fun image base => ⟨image,base,base + 0x80000⟩) images progBases

def Memory.rootfsLoadAll (m : Memory) (images : List (List (BitVec 8))) : Option Memory := (progs images).foldlM Memory.loadOne m

/- The page of `va` is mapped to a frame that is neither a table nor free. -/
def DataPage (m : Memory) (va : Word) : Prop :=
  ∃ above e, m.trace va = some (above ++ [e]) ∧ above.length = 3 ∧ (∀ p, m.layout.table m.words p ≠ some (entryFrame e)) ∧
    entryFrame e ∉ m.pmm.freeSet

section
variable {m m' : Memory} {va va' e : Word} {above : List Word} {n k : Nat} {bytes : List (BitVec 8)}

/- A walk of one entry for each level ends in the frame of the last. -/
theorem walkLeaf {words : Words} {level : Nat} {table : Word} (trace : traceFrom words va (level + 1) table = some (above ++ [e]))
    (size : above.length = level) (w u : Bool) :
    ∃ w' u', Memory.walkFrom words va (level + 1) table w u = some ⟨(e &&& addrMask).toNat + va.toNat % 2 ^ 12,w',u'⟩ := by
  induction level generalizing table above w u with
  | zero =>
    obtain rfl := List.eq_nil_of_length_eq_zero size
    rw [traceFrom] at trace
    rw [Memory.walkFrom]
    dsimp only at trace ⊢
    split at trace
    · cases trace
    · rename_i present
      simp only [ne_eq,not_true_eq_false,and_false,if_false,traceFrom,Option.map_some,List.nil_append,Option.some.injEq,
        List.cons.injEq,and_true] at trace
      rw [if_neg present,if_neg (fun large => large.2 rfl),Memory.walkFrom,trace]
      exact ⟨_,_,rfl⟩
  | succ level ih =>
    rw [traceFrom] at trace
    rw [Memory.walkFrom]
    dsimp only at trace ⊢
    split at trace
    · cases trace
    · rename_i present
      split at trace
      · split at trace
        · cases trace
        · have single := congrArg List.length (Option.some.inj trace)
          rw [List.length_append,size] at single
          simp at single
      · rename_i small
        obtain ⟨rest,below,joined⟩ := Option.map_eq_some_iff.mp trace
        cases above with
        | nil => cases size
        | cons first above =>
          obtain ⟨rfl,rfl⟩ := List.cons.inj joined
          rw [if_neg present,if_neg small]
          exact ih below (Nat.succ.inj size) _ _

theorem walkMapped (trace : m.trace va = some (above ++ [e])) (size : above.length = 3) :
    ∃ w u, m.walk va = some ⟨entryFrame e * 4096 + va.toNat % 4096,w,u⟩ := by
  obtain ⟨w,u,found⟩ := walkLeaf trace size true true
  have frame : (e &&& addrMask).toNat = entryFrame e * 4096 := by
    rw [← frameOfEntry,frameAddrNat (entryFrameLow e)]
  rw [frame] at found
  exact ⟨w,u,found⟩

theorem walkUnmapped (trace : m.trace va = none) : m.walk va = none := by
  rw [Memory.trace] at trace
  rw [Memory.walk,walkReplay,trace,Option.bind_none]

theorem accessMapped (trace : m.trace va = some (above ++ [e])) (size : above.length = 3) {pa : Nat} (access : m.kernelAccess va = some pa) :
    pa = entryFrame e * 4096 + va.toNat % 4096 := by
  obtain ⟨w,u,found⟩ := walkMapped trace size
  rw [Memory.kernelAccess,found] at access
  split at access
  · exact (Option.some.inj access).symm
  · cases access

/- A copy that the kernel makes touches each of its addresses. -/
theorem spanAccess {span : List Nat} (found : m.kernelSpan va n = some span) :
    span.length = n ∧ ∀ j < n, m.kernelAccess (va + BitVec.ofNat 64 j) = span[j]? ∧ (span[j]?).isSome := by
  induction n generalizing va span with
  | zero =>
    cases found
    exact ⟨rfl,fun j low => absurd low (Nat.not_lt_zero j)⟩
  | succ n ih =>
    simp only [Memory.kernelSpan,bind,Option.bind_eq_some_iff] at found
    obtain ⟨first,mapped,rest,found,same⟩ := found
    cases same
    obtain ⟨length,each⟩ := ih found
    refine ⟨by rw [List.length_cons,length],fun j low => ?_⟩
    cases j with
    | zero =>
      rw [BitVec.add_zero,mapped]
      exact ⟨rfl,rfl⟩
    | succ j =>
      rw [← nextByte]
      exact each j (by omega)

/- Words that are not written stay. -/
theorem storeWord {words : Words} {writes : List (Nat × BitVec 8)} {a : Nat} (apart : ∀ pa ∈ writes.map Prod.fst, pa / 8 ≠ a) :
    words.store writes a = words a := by
  induction writes generalizing words with
  | nil => rfl
  | cons first rest ih =>
    obtain ⟨here,later⟩ := List.forall_mem_cons.mp apart
    exact (ih later).trans (Words.setByteWord (Ne.symm here))

/- What is written to data pages changes no word of a table. -/
theorem writeApart (data : ∀ j < bytes.length, DataPage m (va + BitVec.ofNat 64 j)) (written : m.writeBytes va bytes = some m') :
    ∃ words, m' = { m with words := words } ∧
      ∀ p n i, m.layout.table m.words p = some n → words (m.layout.cell n i) = m.words (m.layout.cell n i) := by
  obtain ⟨span,found,rfl⟩ := Option.map_eq_some_iff.mp written
  obtain ⟨length,each⟩ := spanAccess found
  refine ⟨_,rfl,fun p n i here => storeWord fun pa member => ?_⟩
  rw [List.map_fst_zip (by rw [length])] at member
  obtain ⟨j,inSpan,rfl⟩ := List.mem_iff_getElem.mp member
  have low : j < bytes.length := length ▸ inSpan
  obtain ⟨access,_⟩ := each j low
  obtain ⟨above,e,trace,size,notTable,_⟩ := data j low
  have place := accessMapped trace size (access.trans (List.getElem?_eq_getElem inSpan))
  have cell : m.layout.cell n i = n * 512 + i.val := rfl
  have inside : i.val < 512 := i.isLt
  rw [place,cell]
  intro same
  have frame : entryFrame e = n := by omega
  exact notTable p (frame ▸ here)

end
end Mukern
