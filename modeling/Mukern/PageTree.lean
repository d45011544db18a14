import Mukern.FrameAllocator
import Mukern.Paging
import Mukern.Library.RadixTree

/-! The page tables of `paging.c` as a radix tree in physical memory, and what
`next_table`, `vmm_map` and `vmm_unmap` do to the translations that the hardware
walk reads off them. -/
namespace Mukern
open RadixTree Layout

/- The entries that the walk reads, root first, if it ends in a mapping. -/
def traceFrom (m : Words) (va : Word) : (level : Nat) → (table : Word) → Option (List Word)
  | 0, _ => some []
  | level + 1, table =>
    let e := Memory.entry m table (Memory.index va (level + 1))
    if e &&& ptePresent = 0 then none
    else if e &&& ptePs ≠ 0 ∧ level ≠ 0 then
      if level = 3 then none else some [e]
    else (traceFrom m va level (e &&& addrMask)).map (e :: ·)

/- The frame number in an entry. -/
def entryFrame (e : Word) : Nat := (e &&& addrMask).toNat / 4096

/- The table below: none under an absent entry or a large page, and none at level 1. -/
def childTable (level : Nat) (e : Word) : Option Nat :=
  if level ≤ 1 ∨ e &&& ptePresent = 0 ∨ e &&& ptePs ≠ 0 then none else some (entryFrame e)

namespace Memory

def trace (m : Memory) (va : Word) : Option (List Word) := traceFrom m.words va 4 (m.cr3 &&& addrMask)

abbrev layout (m : Memory) : Layout Word := ⟨512,entryFrame m.cr3,4,childTable⟩

end Memory

/- What a leaf entry says: the frame that the page is mapped to, and its own bits. -/
structure Leaf where
  pa : Nat
  write : Bool
  user : Bool
  deriving DecidableEq, Repr

/- A walk of four entries ends in a 4 KiB page; a shorter one in a large page. -/
def leafOf (va : Word) (entries : List Word) : Option Leaf :=
  entries.getLast?.map fun e =>
    let span := 2 ^ (12 + 9 * (4 - entries.length))
    ⟨(e &&& addrMask).toNat / span * span + va.toNat % span,e &&& pteWrite != 0,e &&& pteUser != 0⟩

namespace Memory

/- The 4-level walk on the low 48 bits of `va`, with the bits of the leaf. -/
def tr (m : Memory) (va : Word) : Option Leaf := (m.trace va).bind (leafOf va)

/- `va` is mapped by a 4 KiB page, or lies in a large one. -/
def Small (m : Memory) (va : Word) : Prop := ∃ entries, m.trace va = some entries ∧ entries.length = 4

def Large (m : Memory) (va : Word) : Prop := ∃ entries, m.trace va = some entries ∧ entries.length < 4

end Memory

/- Bits 12 to 47. -/
def pageNumber (va : Word) : Nat := va.toNat / 4096 % 2 ^ 36

def slotOf (va : Word) (level : Nat) : Fin 512 := ⟨va.toNat / 2 ^ (12 + 9 * (level - 1)) % 512,Nat.mod_lt _ (by decide)⟩

/- The first `n` indices of the walk of `va`, the last of them first. -/
def pathOf (va : Word) : Nat → List (Fin 512)
  | 0 => []
  | n + 1 => slotOf va (4 - n) :: pathOf va n

section
variable {m m' : Memory} {va va' e : Word} {p : List (Fin 512)} {n k : Nat}

theorem indexSlot (va : Word) (level : Nat) : Memory.index va level = (slotOf va level).val := by
  rw [Memory.index,slotOf,BitVec.toNat_and,BitVec.toNat_ushiftRight,Nat.shiftRight_eq_div_pow]
  exact Nat.and_two_pow_sub_one_eq_mod _ 9

/- Two addresses with the same four indices lie in one page. -/
theorem pathPage (same : pathOf va 4 = pathOf va' 4) : pageNumber va = pageNumber va' := by
  simp only [pathOf,slotOf,List.cons.injEq,Fin.mk.injEq,and_true] at same
  unfold pageNumber
  omega

theorem pagePath (same : pageNumber va = pageNumber va') : pathOf va 4 = pathOf va' 4 := by
  unfold pageNumber at same
  simp only [pathOf,slotOf,List.cons.injEq,Fin.mk.injEq,and_true]
  omega

/- The address of frame `n`. -/
def frameAddr (n : Nat) : Word := BitVec.ofNat 64 (n * 4096)

theorem frameAddrNat (low : n < 2 ^ 40) : (frameAddr n).toNat = n * 4096 := by
  rw [frameAddr,BitVec.toNat_ofNat]
  omega

theorem entryFrameLow (e : Word) : entryFrame e < 2 ^ 40 := by
  have most : (e &&& addrMask).toNat ≤ addrMask.toNat := by
    rw [BitVec.toNat_and]
    exact Nat.and_le_right
  have value : addrMask.toNat = 0x000FFFFFFFFFF000 := by decide
  unfold entryFrame
  omega

theorem maskLow (e : Word) : (e &&& addrMask).toNat % 4096 = 0 := by
  have clear : addrMask.toNat % 2 ^ 12 = 0 := by decide
  have low := Nat.and_mod_two_pow (a := e.toNat) (b := addrMask.toNat) (n := 12)
  rwa [clear,Nat.and_zero,← BitVec.toNat_and] at low

theorem frameOfEntry (e : Word) : frameAddr (entryFrame e) = e &&& addrMask := by
  refine BitVec.eq_of_toNat_eq ?_
  rw [frameAddrNat (entryFrameLow e),entryFrame]
  have := maskLow e
  omega

theorem entryCell (low : n < 2 ^ 40) (i : Fin 512) :
    Memory.entry m.words (frameAddr n) i.val = m.words (m.layout.cell n i) := by
  have place : m.layout.cell n i = n * 512 + i.val := rfl
  rw [place,Memory.entry,frameAddrNat low]
  congr 1
  omega

theorem tableLow (here : m.layout.table m.words p = some n) : n < 2 ^ 40 := by
  cases p with
  | nil =>
    cases here
    exact entryFrameLow m.cr3
  | cons i p =>
    obtain ⟨parent,_,child⟩ := Layout.tableParent here
    simp only [Memory.layout,childTable] at child
    split at child
    · cases child
    · cases child
      exact entryFrameLow _

theorem pathLength : (pathOf va k).length = k := by
  induction k with
  | zero => rfl
  | succ k ih => rw [pathOf,List.length_cons,ih]

variable (m va) in
/- One entry of the walk. -/
theorem traceSucc (low : n < 2 ^ 40) (k : Nat) : traceFrom m.words va (k + 1) (frameAddr n) =
    (let e := m.words (m.layout.cell n (slotOf va (k + 1)))
    if e &&& ptePresent = 0 then none
    else if e &&& ptePs ≠ 0 ∧ k ≠ 0 then if k = 3 then none else some [e]
    else (traceFrom m.words va k (frameAddr (entryFrame e))).map (e :: ·)) := by
  rw [traceFrom,indexSlot,entryCell low]
  simp only [frameOfEntry]

theorem childSome {level : Nat} (child : childTable level e = some n) :
    1 < level ∧ e &&& ptePresent ≠ 0 ∧ e &&& ptePs = 0 ∧ n = entryFrame e := by
  unfold childTable at child
  split at child
  · cases child
  · rename_i table
    simp only [not_or,not_le,ne_eq,not_not] at table
    exact ⟨table.1,table.2.1,table.2.2,(Option.some.inj child).symm⟩

/- The entries above a table on the path of `va`, one of each table that leads to it, and
the rest of the walk below it. -/
theorem traceThrough (here : m.layout.table m.words (pathOf va k) = some n) (short : k ≤ 3) :
    ∃ above : List Word, above.length = k ∧
      m.trace va = (traceFrom m.words va (4 - k) (frameAddr n)).map (above ++ ·) ∧
      ∀ j < k, ∃ n', m.layout.table m.words (pathOf va j) = some n' ∧
        above[j]? = some (m.words (m.layout.cell n' (slotOf va (4 - j)))) := by
  induction k generalizing n with
  | zero =>
    cases here
    refine ⟨[],rfl,?_,fun j low => absurd low (Nat.not_lt_zero j)⟩
    rw [Memory.trace,← frameOfEntry]
    simp only [List.nil_append,Option.map_id']
  | succ k ih =>
    obtain ⟨parent,there,child⟩ := Layout.tableParent here
    obtain ⟨above,size,rest,links⟩ := ih there (by omega)
    obtain ⟨_,present,small,rfl⟩ := childSome child
    have level : 4 - k = 4 - (k + 1) + 1 := by omega
    have step := traceSucc m va (tableLow there) (4 - (k + 1))
    rw [← level] at step
    simp only [if_neg present,small,ne_eq,not_true_eq_false,false_and,if_false] at step
    refine ⟨above ++ [m.words (m.layout.cell parent (slotOf va (4 - k)))],by simp [size],?_,fun j low => ?_⟩
    · rw [rest,step,Option.map_map]
      congr 1
      funext below
      simp
    · rcases Nat.lt_or_eq_of_le (Nat.le_of_lt_succ low) with earlier | rfl
      · obtain ⟨n',table,entry⟩ := links j earlier
        exact ⟨n',table,by rw [List.getElem?_append_left (by omega),entry]⟩
      · exact ⟨parent,there,by rw [← size,List.getElem?_concat_length]⟩

theorem traceTo (here : m.layout.table m.words (pathOf va k) = some n) (short : k ≤ 3) :
    ∃ above : List Word, above.length = k ∧
      m.trace va = (traceFrom m.words va (4 - k) (frameAddr n)).map (above ++ ·) := by
  obtain ⟨above,size,rest,_⟩ := traceThrough here short
  exact ⟨above,size,rest⟩

/- A walk that meets an absent entry ends in no mapping. -/
theorem traceAbsent (here : m.layout.table m.words (pathOf va k) = some n) (short : k ≤ 3)
    (absent : m.words (m.layout.cell n (slotOf va (4 - k))) &&& ptePresent = 0) : m.trace va = none := by
  obtain ⟨above,_,rest⟩ := traceTo here short
  have level : 4 - k = 4 - (k + 1) + 1 := by omega
  have step := traceSucc m va (tableLow here) (4 - (k + 1))
  rw [← level] at step
  simp only [if_pos absent] at step
  rw [rest,step,Option.map_none]

/- Two memories whose tables agree in the entries that the walk of `va` reads. -/
theorem traceSame (root : m'.cr3 = m.cr3)
    (same : ∀ k n, k ≤ 3 → m.layout.table m.words (pathOf va k) = some n →
      m'.words (m.layout.cell n (slotOf va (4 - k))) = m.words (m.layout.cell n (slotOf va (4 - k)))) :
    m'.trace va = m.trace va := by
  have below : ∀ l k n, l + k = 4 → m.layout.table m.words (pathOf va k) = some n →
      traceFrom m'.words va l (frameAddr n) = traceFrom m.words va l (frameAddr n) := by
    intro l
    induction l with
    | zero => exact fun _ _ _ _ => rfl
    | succ l ih =>
      intro k n depth here
      have low := tableLow here
      have level : 4 - k = l + 1 := by omega
      have entry := same k n (by omega) here
      rw [level] at entry
      have step := traceSucc m va low l
      have step' := traceSucc m' va low l
      have cell : m'.layout.cell n (slotOf va (l + 1)) = m.layout.cell n (slotOf va (l + 1)) := rfl
      rw [step,step',cell,entry]
      dsimp only
      split
      · rfl
      · split
        · rfl
        · rename_i present small
          by_cases bottom : l = 0
          · subst bottom
            rfl
          · have notLarge : m.words (m.layout.cell n (slotOf va (l + 1))) &&& ptePs = 0 := by
              by_contra large
              exact small ⟨large,bottom⟩
            have next : m.layout.table m.words (pathOf va (k + 1)) =
                some (entryFrame (m.words (m.layout.cell n (slotOf va (l + 1))))) := by
              have depth' : m.layout.level (pathOf va k) = l + 1 := by
                rw [Layout.level,pathLength]
                exact level
              rw [pathOf,level,Layout.tableCons here,depth']
              refine if_neg ?_
              rintro (low | absent | large)
              · omega
              · exact present absent
              · exact large notLarge
            rw [ih (k + 1) _ (by omega) next]
  have start := below 4 0 (entryFrame m.cr3) rfl rfl
  rw [Memory.trace,Memory.trace,root,← frameOfEntry]
  exact start

end

/- The tables form a tree, and no frame of it is free. Frame 0 is never free, so
`pmm_alloc_frame` returns 0 only when it fails. -/
structure PageTree (m : Memory) : Prop where
  separated : m.layout.Separated m.words
  live : ∀ p n, m.layout.table m.words p = some n → n ∉ m.pmm.freeSet
  frames : m.pmm.totalFrames ≤ 2 ^ 40
  zero : 0 ∉ m.pmm.freeSet

/- What `next_table` may do on its way: hang empty tables, taken from the free frames,
under entries that were absent. -/
structure Grown (m m' : Memory) : Prop where
  tree : PageTree m'
  root : m'.cr3 = m.cr3
  trace : ∀ va, m'.trace va = m.trace va
  table : ∀ p n, m.layout.table m.words p = some n → m'.layout.table m'.words p = some n
  kept : ∀ p n i, m.layout.table m.words p = some n → m.words (m.layout.cell n i) &&& ptePresent ≠ 0 →
    m'.words (m.layout.cell n i) = m.words (m.layout.cell n i)
  total : m'.pmm.totalFrames = m.pmm.totalFrames
  free : m'.pmm.freeSet ⊆ m.pmm.freeSet
  taken : ∀ f ∈ m.pmm.freeSet, f ∈ m'.pmm.freeSet ∨ ∃ p, m'.layout.table m'.words p = some f
  outside : ∀ a, (∀ p n i, m'.layout.table m'.words p = some n → a ≠ m.layout.cell n i) → m'.words a = m.words a

/- What a call of `next_table` comes to. -/
inductive NextTable (m : Memory) (p : List (Fin 512)) (n : Nat) (i : Fin 512) (create : Bool) : Memory × Option Word → Prop where
  | there (t : Nat) (here : m.layout.table m.words (i :: p) = some t) : NextTable m p n i create (m,some (frameAddr t))
  | stopped (missing : m.layout.table m.words (i :: p) = none) : NextTable m p n i create (m,none)
  | created {m'} (t : Nat) (creates : create = true) (grown : Grown m m')
      (here : m'.layout.table m'.words (i :: p) = some t) : NextTable m p n i create (m',some (frameAddr t))

section
variable {m m' m'' : Memory} {va va' e : Word} {p : List (Fin 512)} {n k : Nat} {i : Fin 512}

theorem Grown.refl (tree : PageTree m) : Grown m m :=
  ⟨tree,rfl,fun _ => rfl,fun _ _ => id,fun _ _ _ _ _ => rfl,rfl,fun _ => id,fun _ => .inl,fun _ _ => rfl⟩

theorem Grown.layout (grown : Grown m m') : m'.layout = m.layout := by
  rw [Memory.layout,Memory.layout,grown.root]

theorem Grown.trans (first : Grown m m') (second : Grown m' m'') : Grown m m'' := by
  have same := first.layout
  refine ⟨second.tree,second.root.trans first.root,fun va => (second.trace va).trans (first.trace va),
    fun p n here => second.table p n (first.table p n here),?_,second.total.trans first.total,
    fun f member => first.free (second.free member),?_,?_⟩
  · intro p n i here present
    have kept := first.kept p n i here present
    have again := second.kept p n i (first.table p n here) (kept ▸ present)
    exact again.trans kept
  · intro f member
    rcases first.taken f member with free | ⟨p,here⟩
    · exact second.taken f free
    · exact .inr ⟨p,second.table p f here⟩
  · intro a apart
    have first' := first.outside a fun p n i here => apart p n i (second.table p n here)
    exact (second.outside a apart).trans first'

theorem maskBit {j : Nat} (low : j < 64) : addrMask.getLsbD j = decide (12 ≤ j ∧ j < 52) := by
  have all : ∀ j : Fin 64, addrMask.getLsbD j = decide (12 ≤ j.val ∧ j.val < 52) := by decide
  exact all ⟨j,low⟩

theorem smallBit {x : Word} (small : x.toNat < 4096) {j : Nat} (high : 12 ≤ j) : x.getLsbD j = false := by
  rw [BitVec.getLsbD,Nat.testBit_lt_two_pow]
  exact Nat.lt_of_lt_of_le small (Nat.pow_le_pow_right Nat.two_pos high)

theorem frameBit (low : n < 2 ^ 40) (j : Nat) :
    (j < 12 → (frameAddr n).getLsbD j = false) ∧ (52 ≤ j → (frameAddr n).getLsbD j = false) := by
  have value := frameAddrNat low
  constructor
  · intro small
    have shift : n * 4096 = n <<< 12 := by rw [Nat.shiftLeft_eq]
    rw [BitVec.getLsbD,value,shift,Nat.testBit_shiftLeft]
    simp
    omega
  · intro high
    rw [BitVec.getLsbD,value,Nat.testBit_lt_two_pow]
    have top : n * 4096 < 2 ^ 52 := by omega
    exact Nat.lt_of_lt_of_le top (Nat.pow_le_pow_right Nat.two_pos high)

/- An entry is a frame address with flags in the low bits. -/
theorem entryFlags {flags mask : Word} (low : n < 2 ^ 40) (small : mask.toNat < 4096) :
    (frameAddr n ||| flags) &&& mask = flags &&& mask := by
  refine BitVec.eq_of_getLsbD_eq fun j inside => ?_
  rw [BitVec.getLsbD_and,BitVec.getLsbD_and,BitVec.getLsbD_or]
  by_cases bottom : j < 12
  · rw [(frameBit low j).1 bottom,Bool.false_or]
  · rw [smallBit small (by omega),Bool.and_false,Bool.and_false]

theorem entryAddr {flags : Word} (low : n < 2 ^ 40) (small : flags.toNat < 4096) :
    (frameAddr n ||| flags) &&& addrMask = frameAddr n := by
  refine BitVec.eq_of_getLsbD_eq fun j inside => ?_
  rw [BitVec.getLsbD_and,BitVec.getLsbD_or,maskBit inside]
  by_cases bottom : j < 12
  · rw [(frameBit low j).1 bottom]
    simp [bottom]
  · rw [smallBit small (by omega),Bool.or_false]
    by_cases top : 52 ≤ j
    · rw [(frameBit low j).2 top,Bool.false_and]
    · have mid : 12 ≤ j ∧ j < 52 := by omega
      simp [mid]

theorem entryFrameOf {flags : Word} (low : n < 2 ^ 40) (small : flags.toNat < 4096) :
    entryFrame (frameAddr n ||| flags) = n := by
  rw [entryFrame,entryAddr low small,frameAddrNat low]
  omega

/- The entry that `next_table` writes for a new table. -/
theorem linkEntry (low : n < 2 ^ 40) : (frameAddr n ||| ptePresent ||| pteWrite ||| pteUser) &&& ptePresent ≠ 0 ∧
    (frameAddr n ||| ptePresent ||| pteWrite ||| pteUser) &&& ptePs = 0 ∧
      entryFrame (frameAddr n ||| ptePresent ||| pteWrite ||| pteUser) = n := by
  have joined : frameAddr n ||| ptePresent ||| pteWrite ||| pteUser = frameAddr n ||| (ptePresent ||| pteWrite ||| pteUser) := by
    rw [BitVec.or_assoc,BitVec.or_assoc,BitVec.or_assoc]
  rw [joined,entryFlags low (by decide),entryFlags low (by decide),entryFrameOf low (by decide)]
  exact ⟨by decide,by decide,rfl⟩

theorem zeroTableCell (low : n < 2 ^ 40) (words : Words) (j : Fin 512) :
    Memory.zeroTable words (frameAddr n) (m.layout.cell n j) = 0 := by
  have place : m.layout.cell n j = n * 512 + j.val := rfl
  have inside := j.isLt
  rw [Memory.zeroTable,frameAddrNat low,place,if_pos (by omega)]

theorem zeroTableOther (low : n < 2 ^ 40) {words : Words} {a : Nat} (apart : ∀ j, a ≠ m.layout.cell n j) :
    Memory.zeroTable words (frameAddr n) a = words a := by
  rw [Memory.zeroTable,frameAddrNat low]
  refine if_neg fun inside => ?_
  have low' : a - n * 512 < 512 := by omega
  have place : m.layout.cell n ⟨a - n * 512,low'⟩ = n * 512 + (a - n * 512) := rfl
  refine apart ⟨a - n * 512,low'⟩ ?_
  rw [place]
  omega

theorem setEntryCell (low : n < 2 ^ 40) {words : Words} {v : Word} :
    Memory.setEntry words (frameAddr n) i.val v (m.layout.cell n i) = v := by
  have place : (frameAddr n).toNat / 8 + i.val = m.layout.cell n i := by
    have cell : m.layout.cell n i = n * 512 + i.val := rfl
    rw [frameAddrNat low,cell]
    omega
  rw [Memory.setEntry,place,Words.setSame]

theorem setEntryOther (low : n < 2 ^ 40) {words : Words} {v : Word} {a : Nat} (apart : a ≠ m.layout.cell n i) :
    Memory.setEntry words (frameAddr n) i.val v a = words a := by
  have place : (frameAddr n).toNat / 8 + i.val = m.layout.cell n i := by
    have cell : m.layout.cell n i = n * 512 + i.val := rfl
    rw [frameAddrNat low,cell]
    omega
  rw [Memory.setEntry,place,Words.setOther apart]

theorem rootTable (root : m'.cr3 = m.cr3) (words : Words) : m'.layout.table words p = m.layout.table words p := by
  unfold Memory.layout
  rw [root]

theorem rootSeparated (root : m'.cr3 = m.cr3) {words : Words} (separated : m.layout.Separated words) :
    m'.layout.Separated words := by
  intro p q n first second
  rw [rootTable root] at first second
  exact separated p q n first second

/- A new table is empty: no walk ends differently because of it. -/
theorem linkGrown {t : Nat} (tree : PageTree m) (linked : m.layout.Linked m.words p i n t m'.words)
    (short : p.length ≤ 2) (absent : m.words (m.layout.cell n i) &&& ptePresent = 0)
    (zero : ∀ j, m'.words (m.layout.cell t j) = 0) (root : m'.cr3 = m.cr3)
    (total : m'.pmm.totalFrames = m.pmm.totalFrames) (erased : m'.pmm.freeSet = m.pmm.freeSet.erase t) : Grown m m' := by
  have tables : ∀ q, m'.layout.table m'.words q = if q = i :: p then some t else m.layout.table m.words q :=
    fun q => (rootTable root _).trans (linked.table tree.separated)
  have kept : ∀ q n' j, m.layout.table m.words q = some n' → m'.layout.table m'.words q = some n' ∧
      (q ≠ p ∨ j ≠ i → m'.words (m.layout.cell n' j) = m.words (m.layout.cell n' j)) := by
    intro q n' j there
    have held := linked.kept (j := j) tree.separated there
    exact ⟨(rootTable root _).trans held.1,held.2⟩
  refine ⟨⟨rootSeparated root (linked.separated tree.separated),?_,total ▸ tree.frames,?_⟩,root,?_,
    fun q n' there => (kept q n' i there).1,?_,total,?_,?_,?_⟩
  · intro q u there
    rw [tables] at there
    rw [erased,Finset.mem_erase,not_and_or,not_not]
    split at there
    · cases there
      exact .inl rfl
    · exact .inr (tree.live q u there)
  · rw [erased]
    exact fun member => tree.zero (Finset.mem_of_mem_erase member)
  · intro va
    by_cases reads : ∃ k, k ≤ 3 ∧ pathOf va k = p ∧ slotOf va (4 - k) = i
    · -- the walk met an absent entry here, and meets one in the new table
      obtain ⟨k,low,path,slot⟩ := reads
      have size : k = p.length := by rw [← path,pathLength]
      have before : m.trace va = none := traceAbsent (path ▸ linked.here) low (slot ▸ absent)
      have below : m'.layout.table m'.words (pathOf va (k + 1)) = some t := by
        rw [tables,pathOf,path,slot,if_pos rfl]
      have empty : m'.words (m'.layout.cell t (slotOf va (4 - (k + 1)))) &&& ptePresent = 0 := by
        have nothing : m'.words (m'.layout.cell t (slotOf va (4 - (k + 1)))) = 0 := zero _
        rw [nothing]
        decide
      rw [before,traceAbsent below (by omega) empty]
    · refine traceSame root fun k n' low there => (kept _ _ _ there).2 ?_
      by_contra here
      simp only [ne_eq,not_or,not_not] at here
      exact reads ⟨k,low,here⟩
  · intro q n' j there present
    refine (kept q n' j there).2 ?_
    by_contra here
    simp only [ne_eq,not_or,not_not] at here
    obtain ⟨rfl,rfl⟩ := here
    cases linked.here.symm.trans there
    exact present absent
  · rw [erased]
    exact Finset.erase_subset t _
  · intro f member
    by_cases new : f = t
    · subst new
      exact .inr ⟨i :: p,(tables _).trans (if_pos rfl)⟩
    · left
      rw [erased]
      exact Finset.mem_erase.mpr ⟨new,member⟩
  · intro a apart
    refine linked.rest a (apart p n i (kept p n i linked.here).1) fun j => ?_
    exact apart (i :: p) t j ((tables _).trans (if_pos rfl))

theorem allocFrames {p : Pmm} : p.allocFrame.1.totalFrames = p.totalFrames := by
  have outcome := Pmm.allocOutcome p
  generalize p.allocFrame = result at outcome
  cases outcome <;> rfl

/- The memory in which `next_table` has hung the empty table `t` under an absent entry. -/
def hungTable (words : Words) (n : Nat) (i : Fin 512) (t : Nat) : Words :=
  Memory.setEntry (Memory.zeroTable words (frameAddr t)) (frameAddr n) i.val (frameAddr t ||| ptePresent ||| pteWrite ||| pteUser)

theorem hungZero {t : Nat} (tree : PageTree m) (here : m.layout.table m.words p = some n) (free : t ∈ m.pmm.freeSet) (j : Fin 512) :
    hungTable m.words n i t (m.layout.cell t j) = 0 := by
  have apart : m.layout.cell t j ≠ m.layout.cell n i := by
    intro same
    exact tree.live p n here ((Layout.cellInj same).1 ▸ free)
  have inside : t < 2 ^ 40 := Nat.lt_of_lt_of_le (Pmm.memFree.mp free).1 tree.frames
  rw [hungTable,setEntryOther (tableLow here) apart,zeroTableCell inside]

theorem hungLinked {t : Nat} (tree : PageTree m) (here : m.layout.table m.words p = some n) (short : p.length ≤ 2)
    (absent : m.words (m.layout.cell n i) &&& ptePresent = 0) (free : t ∈ m.pmm.freeSet) :
    m.layout.Linked m.words p i n t (hungTable m.words n i t) := by
  have low := tableLow here
  have inside : t < 2 ^ 40 := Nat.lt_of_lt_of_le (Pmm.memFree.mp free).1 tree.frames
  have tall : ¬ 4 - p.length ≤ 1 := by omega
  obtain ⟨present,small,frame⟩ := linkEntry inside
  refine ⟨here,if_pos (.inr (.inl absent)),fun q there => tree.live q t there free,?_,?_,?_⟩
  · have edge : childTable (4 - p.length) (hungTable m.words n i t (m.layout.cell n i)) = some t := by
      rw [hungTable,setEntryCell low,childTable,frame]
      refine if_neg ?_
      rintro (bottom | missing | large)
      · exact tall bottom
      · exact present missing
      · exact large small
    exact edge
  · intro l j
    rw [hungZero tree here free]
    exact if_pos (.inr (.inl (by decide)))
  · intro a other apart
    rw [hungTable,setEntryOther low other,zeroTableOther inside apart]

/- The free frame `t` is taken and hung as an empty table under entry `i` of table `n`. -/
def Memory.hang (m : Memory) (n : Nat) (i : Fin 512) (t : Nat) : Memory :=
  ⟨hungTable m.words n i t,{ m.pmm.bmSet t with freeFrames := m.pmm.freeFrames - 1, allocHint := t + 1 },m.cr3⟩

theorem hangGrown {t : Nat} (tree : PageTree m) (here : m.layout.table m.words p = some n) (short : p.length ≤ 2)
    (absent : m.words (m.layout.cell n i) &&& ptePresent = 0) (free : t ∈ m.pmm.freeSet) : Grown m (m.hang n i t) := by
  have linked : m.layout.Linked m.words p i n t (m.hang n i t).words := hungLinked tree here short absent free
  exact linkGrown tree linked short absent (hungZero tree here free) rfl rfl Pmm.freeSetSet

/- How `next_table` goes when it may create. -/
inductive NextOutcome (m : Memory) (p : List (Fin 512)) (n : Nat) (i : Fin 512) : Memory × Option Word → Prop where
  | there (t : Nat) (below : m.layout.table m.words (i :: p) = some t) : NextOutcome m p n i (m,some (frameAddr t))
  | large (present : m.words (m.layout.cell n i) &&& ptePresent ≠ 0) (single : m.words (m.layout.cell n i) &&& ptePs ≠ 0) :
      NextOutcome m p n i (m,none)
  | full (absent : m.words (m.layout.cell n i) &&& ptePresent = 0) (empty : m.pmm.freeSet = ∅) : NextOutcome m p n i (m,none)
  | hung (t : Nat) (absent : m.words (m.layout.cell n i) &&& ptePresent = 0) (free : t ∈ m.pmm.freeSet) :
      NextOutcome m p n i (m.hang n i t,some (frameAddr t))

theorem nextBelow (here : m.layout.table m.words p = some n) (short : p.length ≤ 2) : m.layout.table m.words (i :: p) =
    if m.words (m.layout.cell n i) &&& ptePresent = 0 ∨ m.words (m.layout.cell n i) &&& ptePs ≠ 0 then none
    else some (entryFrame (m.words (m.layout.cell n i))) := by
  have tall : ¬ 4 - p.length ≤ 1 := by omega
  have next : m.layout.table m.words (i :: p) = childTable (4 - p.length) (m.words (m.layout.cell n i)) := Layout.tableCons here
  rw [next,childTable]
  simp only [tall,false_or]

variable (m p n i) in
theorem nextOutcome (tree : PageTree m) (here : m.layout.table m.words p = some n) (short : p.length ≤ 2) :
    NextOutcome m p n i (m.nextTable (frameAddr n) i.val true) := by
  have low := tableLow here
  have below := nextBelow (i := i) here short
  unfold Memory.nextTable
  simp only [entryCell low]
  split
  · rename_i absent
    have outcome := Pmm.allocOutcome m.pmm
    generalize m.pmm.allocFrame = result at outcome
    cases outcome with
    | full empty => exact .full absent empty
    | taken t free =>
      have shift : BitVec.ofNat 64 (t <<< 12) = frameAddr t := by rw [frameAddr,Nat.shiftLeft_eq]
      have inside : t < 2 ^ 40 := Nat.lt_of_lt_of_le (Pmm.memFree.mp free).1 tree.frames
      have nonzero : frameAddr t ≠ 0 := by
        intro zero
        have value := frameAddrNat inside
        rw [zero] at value
        have start : t = 0 := by
          simp at value
          omega
        exact tree.zero (start ▸ free)
      rw [shift]
      simp only [nonzero,if_true,if_false]
      exact .hung t absent free
  · rename_i present
    split
    · rename_i large
      exact .large present large
    · rename_i small
      rw [← frameOfEntry]
      refine .there _ (below.trans (if_neg ?_))
      rintro (absent | large)
      · exact present absent
      · exact small large

variable (m p n i) in
theorem nextTableSpec (create : Bool) (tree : PageTree m) (here : m.layout.table m.words p = some n) (short : p.length ≤ 2) :
    NextTable m p n i create (m.nextTable (frameAddr n) i.val create) := by
  have below := nextBelow (i := i) here short
  cases create with
  | true =>
    have outcome := nextOutcome m p n i tree here short
    generalize m.nextTable (frameAddr n) i.val true = result at outcome
    cases outcome with
    | there t next => exact .there t next
    | large present single => exact .stopped (below.trans (if_pos (.inr single)))
    | full absent empty => exact .stopped (below.trans (if_pos (.inl absent)))
    | hung t absent free =>
      have linked := hungLinked tree here short absent free
      exact .created t rfl (hangGrown tree here short absent free) ((linked.table tree.separated).trans (if_pos rfl))
  | false =>
    unfold Memory.nextTable
    simp only [entryCell (tableLow here)]
    split
    · rename_i absent
      exact .stopped (below.trans (if_pos (.inl absent)))
    · rename_i present
      split
      · rename_i large
        exact .stopped (below.trans (if_pos (.inr large)))
      · rename_i small
        rw [← frameOfEntry]
        refine .there _ (below.trans (if_neg ?_))
        rintro (absent | large)
        · exact present absent
        · exact small large

/- A call of `next_table` leaves the memory grown, and its table is the child. -/
theorem nextGrown {create : Bool} {r : Memory × Option Word} (tree : PageTree m) (next : NextTable m p n i create r) :
    Grown m r.1 ∧ (create = false → r.1 = m) ∧
      (r.2 = none ∨ ∃ t, r.2 = some (frameAddr t) ∧ r.1.layout.table r.1.words (i :: p) = some t) := by
  cases next with
  | there t here => exact ⟨.refl tree,fun _ => rfl,.inr ⟨t,rfl,here⟩⟩
  | stopped missing => exact ⟨.refl tree,fun _ => rfl,.inl rfl⟩
  | created t creates grown here => exact ⟨grown,fun kept => absurd (creates.symm.trans kept) (by decide),.inr ⟨t,rfl,here⟩⟩

/- The descent of `vmm_map` and `vmm_unmap` to the level-1 table. -/
def Memory.descend (m : Memory) (va : Word) (create : Bool) : Memory × Option Word :=
  match m.nextTable (m.cr3 &&& addrMask) (Memory.index va 4) create with
  | (m, none) => (m,none)
  | (m, some pdpt) =>
    match m.nextTable pdpt (Memory.index va 3) create with
    | (m, none) => (m,none)
    | (m, some pd) => m.nextTable pd (Memory.index va 2) create

variable (va) in
theorem descendSpec (create : Bool) (tree : PageTree m) : Grown m (m.descend va create).1 ∧
    (create = false → (m.descend va create).1 = m) ∧
      ((m.descend va create).2 = none ∨ ∃ t, (m.descend va create).2 = some (frameAddr t) ∧
        (m.descend va create).1.layout.table (m.descend va create).1.words (pathOf va 3) = some t) := by
  have root : m.layout.table m.words (pathOf va 0) = some (entryFrame m.cr3) := rfl
  have first := nextGrown tree (nextTableSpec m _ _ (slotOf va 4) create tree root (by simp [pathLength]))
  rw [frameOfEntry,← indexSlot] at first
  unfold Memory.descend
  generalize m.nextTable (m.cr3 &&& addrMask) (Memory.index va 4) create = top at first ⊢
  rcases top with ⟨m₁,none | pdpt⟩
  · exact ⟨first.1,first.2.1,.inl rfl⟩
  obtain ⟨grown,same,missing | ⟨t,value,here⟩⟩ := first
  · cases missing
  cases value
  have second := nextGrown grown.tree (nextTableSpec m₁ (pathOf va 1) t (slotOf va 3) create grown.tree here (by simp [pathLength]))
  rw [← indexSlot] at second
  dsimp only at second ⊢
  generalize m₁.nextTable (frameAddr t) (Memory.index va 3) create = middle at second ⊢
  rcases middle with ⟨m₂,none | pd⟩
  · exact ⟨grown.trans second.1,fun kept => (second.2.1 kept).trans (same kept),.inl rfl⟩
  obtain ⟨grown₂,same₂,missing | ⟨t₂,value,here₂⟩⟩ := second
  · cases missing
  cases value
  have third := nextGrown grown₂.tree (nextTableSpec m₂ (pathOf va 2) t₂ (slotOf va 2) create grown₂.tree here₂ (by simp [pathLength]))
  rw [← indexSlot] at third
  dsimp only
  exact ⟨(grown.trans grown₂).trans third.1,fun kept => (third.2.1 kept).trans ((same₂ kept).trans (same kept)),third.2.2⟩

theorem mapDescend (m : Memory) (va pa flags : Word) : m.vmmMap va pa flags =
    match m.descend va true with
    | (m, none) => (m,-1)
    | (m, some pt) =>
      ({ m with words := Memory.setEntry m.words pt (Memory.index va 1) ((pa &&& addrMask) ||| Memory.flagsToPte flags) },0) := by
  unfold Memory.vmmMap Memory.descend
  dsimp only
  rcases m.nextTable (m.cr3 &&& addrMask) (Memory.index va 4) true with ⟨m₁,none | pdpt⟩
  · rfl
  dsimp only
  rcases m₁.nextTable pdpt (Memory.index va 3) true with ⟨m₂,none | pd⟩
  · rfl
  rfl

theorem unmapDescend (m : Memory) (va : Word) : m.vmmUnmap va =
    match m.descend va false with
    | (m, none) => m
    | (m, some pt) => { m with words := Memory.setEntry m.words pt (Memory.index va 1) 0 } := by
  unfold Memory.vmmUnmap Memory.descend
  dsimp only
  rcases m.nextTable (m.cr3 &&& addrMask) (Memory.index va 4) false with ⟨m₁,none | pdpt⟩
  · rfl
  dsimp only
  rcases m₁.nextTable pdpt (Memory.index va 3) false with ⟨m₂,none | pd⟩
  · rfl
  rfl

/- `pt[i1] = v`. -/
abbrev Memory.putLeaf (m : Memory) (va : Word) (n : Nat) (v : Word) : Memory :=
  { m with words := Memory.setEntry m.words (frameAddr n) (Memory.index va 1) v }

section
variable {v : Word}

theorem putCell (low : n < 2 ^ 40) : (m.putLeaf va n v).words (m.layout.cell n (slotOf va 1)) = v := by
  dsimp only
  rw [indexSlot]
  exact setEntryCell low

theorem putOther (low : n < 2 ^ 40) {a : Nat} (apart : a ≠ m.layout.cell n (slotOf va 1)) :
    (m.putLeaf va n v).words a = m.words a := by
  dsimp only
  rw [indexSlot]
  exact setEntryOther low apart

variable (here : m.layout.table m.words (pathOf va 3) = some n)
include here

theorem leafTable (tree : PageTree m) : (m.putLeaf va n v).layout.table (m.putLeaf va n v).words p = m.layout.table m.words p := by
  have bottom : ∀ w, childTable 1 w = none := fun w => if_pos (.inl (by decide))
  have low := tableLow here
  exact Layout.tablePut tree.separated here (bottom (m.words (m.layout.cell n (slotOf va 1)))) (bottom v) (putCell low) fun a apart => putOther low apart

theorem leafTree (tree : PageTree m) : PageTree (m.putLeaf va n v) := by
  refine ⟨tree.separated.same fun q => leafTable here tree,fun q t there => ?_,tree.frames,tree.zero⟩
  rw [leafTable here tree] at there
  exact tree.live q t there

/- Only the entry of the page itself is written. -/
theorem leafOther (tree : PageTree m) (other : pageNumber va' ≠ pageNumber va) : (m.putLeaf va n v).trace va' = m.trace va' := by
  refine traceSame rfl fun k t low there => putOther (tableLow here) fun same => other (pathPage ?_)
  obtain ⟨path,slot⟩ := tree.separated.word there here same
  have size : (pathOf va' k).length = k := pathLength
  have depth : k = 3 := by rw [← size,path,pathLength]
  subst depth
  exact List.cons_eq_cons.mpr ⟨slot,path⟩

theorem leafTrace : ∃ above : List Word, above.length = 3 ∧ m.trace va =
    (if m.words (m.layout.cell n (slotOf va 1)) &&& ptePresent = 0 then none
      else some (above ++ [m.words (m.layout.cell n (slotOf va 1))])) := by
  obtain ⟨above,size,rest⟩ := traceTo here (Nat.le_refl 3)
  refine ⟨above,size,?_⟩
  rw [rest,traceSucc m va (tableLow here) 0]
  have bottom : ¬ (m.words (m.layout.cell n (slotOf va 1)) &&& ptePs ≠ 0 ∧ 0 ≠ 0) := fun large => large.2 rfl
  simp only [Nat.zero_add,if_neg bottom,traceFrom,Option.map_some,apply_ite (Option.map (above ++ ·)),Option.map_none]

theorem leafOwn (tree : PageTree m) : ∃ above : List Word, above.length = 3 ∧
    (m.putLeaf va n v).trace va = if v &&& ptePresent = 0 then none else some (above ++ [v]) := by
  have there : (m.putLeaf va n v).layout.table (m.putLeaf va n v).words (pathOf va 3) = some n := (leafTable here tree).trans here
  obtain ⟨above,size,trace⟩ := leafTrace there
  have cell : (m.putLeaf va n v).words ((m.putLeaf va n v).layout.cell n (slotOf va 1)) = v := putCell (tableLow here)
  rw [cell] at trace
  exact ⟨above,size,trace⟩

end

theorem leafSame (same : pageNumber va' = pageNumber va) : m.trace va' = m.trace va := by
  have path := pagePath same
  simp only [pathOf,List.cons.injEq,and_true] at path
  obtain ⟨one,two,three,four⟩ := path
  have rest : ∀ l ≤ 4, ∀ t, traceFrom m.words va' l t = traceFrom m.words va l t := by
    intro l
    induction l with
    | zero => exact fun _ _ => rfl
    | succ l ih =>
      intro low t
      have slot : slotOf va' (l + 1) = slotOf va (l + 1) := by
        match l,low with
        | 0,_ => exact one
        | 1,_ => exact two
        | 2,_ => exact three
        | 3,_ => exact four
      rw [traceFrom,traceFrom,indexSlot,indexSlot,slot,ih (by omega)]
  exact rest 4 (by omega) _

end
end Mukern
