import Mathlib.Data.Finset.Card
import Mukern.FrameBitmap

/-! `pmm_init` and the contract of the frame allocator. What the bitmap, the cursor
and the counter stand for is one set, the free frames: `pmm_alloc_frame` takes an
element out of it and `pmm_free_frame` puts it back. -/
namespace Mukern

def pageAlignUp (x : Word) : Word := (x + 0xFFF) &&& ~~~(0xFFF : Word)

structure MemRegion where
  base : Word
  len : Word
  deriving DecidableEq, Repr

/- One entry of the Multiboot map, in the order in which the loop visits them. -/
structure MmapEntry where
  base : Word
  len : Word
  type : BitVec 32
  deriving DecidableEq, Repr

/- What `mb_info` offers. -/
inductive BootInfo where
  | mmap (entries : List MmapEntry)
  | memUpper (kib : BitVec 32)
  | nothing
  deriving DecidableEq, Repr

/- The loop over the map; `room` is `max - n`. -/
def detectMmap : List MmapEntry → (room : Nat) → (top : Word) → List MemRegion × Word
  | [], _, top => ([],top)
  | _ :: _, 0, top => ([],top)
  | e :: rest, room + 1, top =>
    if e.type = 1 ∧ e.len ≠ 0 then
      let (regions,top) := detectMmap rest room (if e.base + e.len > top then e.base + e.len else top)
      (⟨e.base,e.len⟩ :: regions,top)
    else detectMmap rest (room + 1) top

def archMemDetect : BootInfo → (max : Nat) → List MemRegion × Word
  | .mmap entries, max => detectMmap entries max 0
  | .memUpper kib, max =>
    if 0 < max then
      let len : Word := kib.setWidth 64 * 1024
      ([⟨0x100000,len⟩],0x100000 + len)
    else ([],0)
  | .nothing, _ => ([],0)

def maxRegions : Nat := 32

/- The image is linked from 1 MiB on and the 32-bit boot code addresses all of it. -/
structure KernelImage where
  kernelEnd : Nat
  above : 0x100000 ≤ kernelEnd
  below : kernelEnd < 2 ^ 32

namespace Pmm

def bitmapAddr (image : KernelImage) : Word := pageAlignUp (BitVec.ofNat 64 image.kernelEnd)

def markRegion (p : Pmm) (r : MemRegion) : Pmm :=
  let start := (pageAlignUp r.base >>> 12).toNat
  let stop := ((r.base + r.len) >>> 12).toNat
  (List.range' start (stop - start)).foldl markFree p

/- The end of the bitmap. -/
def reservedTop (image : KernelImage) (ramTop : Word) : Word :=
  bitmapAddr image + BitVec.ofNat 64 (((ramTop >>> 12).toNat + 7) / 8)

def reservedFrames (image : KernelImage) (ramTop : Word) : Nat := (pageAlignUp (reservedTop image ramTop) >>> 12).toNat

/- `bitmap[i] = 0xFF` for all its bytes; `before` is what the memory held there. -/
def allUsed (before : Nat → BitVec 8) (totalFrames : Nat) : Pmm :=
  { bitmap := fun j => if j < (totalFrames + 7) / 8 then 0xFF else before j
    totalFrames := totalFrames
    freeFrames := 0
    allocHint := 0 }

def pmmInit (image : KernelImage) (info : BootInfo) (before : Nat → BitVec 8) : Pmm :=
  let (regions,ramTop) := archMemDetect info maxRegions
  let p := allUsed before (ramTop >>> 12).toNat
  let p := regions.foldl markRegion p
  let p := (List.range (reservedFrames image ramTop)).foldl markUsed p
  { p with allocHint := reservedFrames image ramTop }

/- The allocator as a set: the frames whose bit is clear. -/
def freeSet (p : Pmm) : Finset Nat := (Finset.range p.totalFrames).filter fun f => p.bmTest f = false

/- The counter agrees with the bitmap. -/
def Counted (p : Pmm) : Prop := p.freeFrames = p.freeSet.card

section
variable {p : Pmm} {f g : Nat}

theorem memFree : f ∈ p.freeSet ↔ f < p.totalFrames ∧ p.bmTest f = false := by
  simp [freeSet]

theorem bitIndex {n : Nat} (low : n < 8) (m : Nat) : ((1 : BitVec 8) <<< m).getLsbD n = decide (n = m) := by
  by_cases same : n = m
  · subst same
    simp [low]
  · simp only [BitVec.getLsbD_shiftLeft,same,decide_false]
    by_cases below : n < m
    · simp [below]
    · have other : n - m ≠ 0 := by omega
      simp [other]

theorem bmSetTest : (p.bmSet f).bmTest g = (decide (g = f) || p.bmTest g) := by
  have low : g % 8 < 8 := Nat.mod_lt _ (by decide)
  simp only [bmTest,bmSet]
  split
  · rename_i word
    have same : g = f ↔ g % 8 = f % 8 := by omega
    rw [BitVec.getLsbD_or,bitIndex low]
    simp [same,Bool.or_comm]
  · rename_i word
    have other : g ≠ f := fun same => word (by rw [same])
    simp [other]

theorem bmClearTest : (p.bmClear f).bmTest g = (!decide (g = f) && p.bmTest g) := by
  have low : g % 8 < 8 := Nat.mod_lt _ (by decide)
  simp only [bmTest,bmClear]
  split
  · rename_i word
    have same : g = f ↔ g % 8 = f % 8 := by omega
    rw [BitVec.getLsbD_and,BitVec.getLsbD_not,bitIndex low]
    simp [low,same,Bool.and_comm]
  · rename_i word
    have other : g ≠ f := fun same => word (by rw [same])
    simp [other]

theorem freeSetSet : (p.bmSet f).freeSet = p.freeSet.erase f := by
  ext g
  simp only [memFree,Finset.mem_erase,bmSetTest]
  simp [bmSet]
  tauto

theorem freeSetClear (inside : f < p.totalFrames) : (p.bmClear f).freeSet = insert f p.freeSet := by
  ext g
  simp only [memFree,Finset.mem_insert,bmClearTest]
  by_cases same : g = f
  · simp [same,inside,bmClear]
  · simp [same,bmClear]

@[simp] theorem markUsedTotal : (p.markUsed f).totalFrames = p.totalFrames := by
  unfold markUsed
  split <;> rfl

@[simp] theorem markFreeTotal : (p.markFree f).totalFrames = p.totalFrames := by
  unfold markFree
  split <;> rfl

theorem freeSetUsed : (p.markUsed f).freeSet = p.freeSet.erase f := by
  unfold markUsed
  split
  · exact freeSetSet
  · rename_i taken
    have missing : f ∉ p.freeSet := by simpa [memFree] using taken
    exact (Finset.erase_eq_of_notMem missing).symm

theorem freeSetFreed (inside : f < p.totalFrames) : (p.markFree f).freeSet = insert f p.freeSet := by
  unfold markFree
  split
  · exact freeSetClear inside
  · rename_i clear
    have there : f ∈ p.freeSet := by simpa [memFree,inside] using clear
    exact (Finset.insert_eq_self.mpr there).symm

theorem freeSetOutside (outside : ¬ f < p.totalFrames) : p.markFree f = p := by
  simp [markFree,outside]

theorem countedUsed (counted : Counted p) : Counted (p.markUsed f) := by
  have free := freeSetUsed (p := p) (f := f)
  unfold markUsed at free ⊢
  split
  · rename_i clear
    have there : f ∈ p.freeSet := by simpa [memFree] using clear
    rw [if_pos clear] at free
    rw [Counted,free,Finset.card_erase_of_mem there,← counted]
  · exact counted

theorem countedFreed (counted : Counted p) : Counted (p.markFree f) := by
  by_cases inside : f < p.totalFrames
  · have free := freeSetFreed inside
    unfold markFree at free ⊢
    split
    · rename_i taken
      have missing : f ∉ p.freeSet := by simp [memFree,taken.2]
      rw [if_pos taken] at free
      rw [Counted,free,Finset.card_insert_of_notMem missing,← counted]
    · exact counted
  · rwa [freeSetOutside inside]

/- The search looks at every frame once, from the cursor on and around. -/
theorem scanSome {fuel i} (found : p.scan fuel i = some f) (frames : 0 < p.totalFrames) : f ∈ p.freeSet := by
  induction fuel generalizing i with
  | zero => cases found
  | succ fuel ih =>
    simp only [scan] at found
    split at found
    · exact ih found
    · rename_i clear
      cases found
      exact memFree.mpr ⟨Nat.mod_lt _ frames,by simpa using clear⟩

theorem scanNone {fuel i} (missing : p.scan fuel i = none) :
    ∀ n < fuel, p.bmTest ((p.allocHint + (i + n)) % p.totalFrames) = true := by
  induction fuel generalizing i with
  | zero =>
    intro n low
    omega
  | succ fuel ih =>
    simp only [scan] at missing
    split at missing
    · rename_i taken
      intro n low
      cases n with
      | zero => exact taken
      | succ n =>
        have rest := ih missing n (by omega)
        rwa [show i + (n + 1) = i + 1 + n by omega]
    · cases missing

theorem scanEmpty (missing : p.scan p.totalFrames 0 = none) : p.freeSet = ∅ := by
  ext f
  simp only [memFree,Finset.notMem_empty,iff_false,not_and,Bool.not_eq_false]
  intro inside
  -- the step of the search at which the cursor stands at `f`
  have split := Nat.div_add_mod p.allocHint p.totalFrames
  have cursor : p.allocHint % p.totalFrames < p.totalFrames := Nat.mod_lt _ (by omega)
  have reached : ∃ n < p.totalFrames, (p.allocHint + (0 + n)) % p.totalFrames = f := by
    by_cases before : p.allocHint % p.totalFrames ≤ f
    · refine ⟨f - p.allocHint % p.totalFrames,by omega,?_⟩
      have sum : p.allocHint + (0 + (f - p.allocHint % p.totalFrames)) =
          p.totalFrames * (p.allocHint / p.totalFrames) + f := by omega
      rw [sum,Nat.mul_add_mod,Nat.mod_eq_of_lt inside]
    · refine ⟨f + p.totalFrames - p.allocHint % p.totalFrames,by omega,?_⟩
      have sum : p.allocHint + (0 + (f + p.totalFrames - p.allocHint % p.totalFrames)) =
          p.totalFrames * (p.allocHint / p.totalFrames) + (f + p.totalFrames) := by omega
      rw [sum,Nat.mul_add_mod,Nat.add_mod_right,Nat.mod_eq_of_lt inside]
  obtain ⟨n,low,same⟩ := reached
  exact same ▸ scanNone missing n low

inductive AllocOutcome (p : Pmm) : Pmm × Word → Prop where
  | full (empty : p.freeSet = ∅) : AllocOutcome p (p,0)
  | taken (f : Nat) (free : f ∈ p.freeSet) : AllocOutcome p
      ({ p.bmSet f with freeFrames := p.freeFrames - 1, allocHint := f + 1 },BitVec.ofNat 64 (f <<< 12))

variable (p) in
theorem allocOutcome : AllocOutcome p p.allocFrame := by
  unfold allocFrame
  cases found : p.scan p.totalFrames 0 with
  | none => exact .full (scanEmpty found)
  | some f =>
    have frames : 0 < p.totalFrames := by
      by_contra none
      have zero : p.totalFrames = 0 := by omega
      rw [zero] at found
      cases found
    exact .taken f (scanSome found frames)

/- The frame that the next `pmm_alloc_frame` hands out: the first free one from the cursor on. -/
def NextFree (p : Pmm) (f : Nat) : Prop :=
  f ∈ p.freeSet ∧ ∃ n, (p.allocHint + n) % p.totalFrames = f ∧ ∀ l < n, (p.allocHint + l) % p.totalFrames ∉ p.freeSet

theorem NextFree.unique (first : p.NextFree f) (second : p.NextFree g) : f = g := by
  obtain ⟨member,n,rfl,before⟩ := first
  obtain ⟨member',n',rfl,before'⟩ := second
  rcases Nat.lt_trichotomy n n' with earlier | rfl | later
  · exact absurd member (before' n earlier)
  · rfl
  · exact absurd member' (before n' later)

theorem scanNext {fuel i : Nat} (found : p.scan fuel i = some f) (frames : 0 < p.totalFrames)
    (before : ∀ l < i, (p.allocHint + l) % p.totalFrames ∉ p.freeSet) : p.NextFree f := by
  induction fuel generalizing i with
  | zero => cases found
  | succ fuel ih =>
    simp only [scan] at found
    split at found
    · rename_i taken
      refine ih found fun l low => ?_
      rcases Nat.lt_or_eq_of_le (Nat.le_of_lt_succ low) with earlier | rfl
      · exact before l earlier
      · rw [memFree,taken]
        exact fun free => absurd free.2 (by decide)
    · rename_i clear
      cases found
      exact ⟨memFree.mpr ⟨Nat.mod_lt _ frames,by simpa using clear⟩,i,rfl,before⟩

theorem allocNext (free : p.freeSet ≠ ∅) : ∃ f, p.NextFree f ∧ p.allocFrame =
    ({ p.bmSet f with freeFrames := p.freeFrames - 1, allocHint := f + 1 },BitVec.ofNat 64 (f <<< 12)) := by
  unfold allocFrame
  cases found : p.scan p.totalFrames 0 with
  | none => exact absurd (scanEmpty found) free
  | some f =>
    have frames : 0 < p.totalFrames := by
      by_contra none
      have zero : p.totalFrames = 0 := by omega
      rw [zero] at found
      cases found
    exact ⟨f,scanNext found frames fun l low => absurd low (Nat.not_lt_zero l),rfl⟩

theorem allocFewer : p.allocFrame.1.freeSet ⊆ p.freeSet := by
  have outcome := allocOutcome p
  generalize p.allocFrame = result at outcome
  cases outcome with
  | full empty => exact Finset.Subset.refl _
  | taken f free =>
    have erased : ({ p.bmSet f with freeFrames := p.freeFrames - 1, allocHint := f + 1 } : Pmm).freeSet = p.freeSet.erase f :=
      freeSetSet
    rw [erased]
    exact Finset.erase_subset f _

theorem frameWord (low : f < 2 ^ 40) : (BitVec.ofNat 64 (f <<< 12)).toNat = f * 4096 := by
  have size : f <<< 12 = f * 4096 := by rw [Nat.shiftLeft_eq]
  rw [size,BitVec.toNat_ofNat]
  omega

theorem freeSetFold {l : List Nat} : f ∈ (l.foldl markFree p).freeSet ↔ f ∈ p.freeSet ∨ f ∈ l ∧ f < p.totalFrames := by
  induction l generalizing p with
  | nil => simp
  | cons g l ih =>
    rw [List.foldl_cons,ih,markFreeTotal]
    by_cases inside : g < p.totalFrames
    · rw [freeSetFreed inside,Finset.mem_insert,List.mem_cons]
      constructor
      · rintro ((rfl | free) | ⟨member,low⟩)
        · exact .inr ⟨.inl rfl,inside⟩
        · exact .inl free
        · exact .inr ⟨.inr member,low⟩
      · rintro (free | ⟨rfl | member,low⟩)
        · exact .inl (.inr free)
        · exact .inl (.inl rfl)
        · exact .inr ⟨member,low⟩
    · rw [freeSetOutside inside,List.mem_cons]
      constructor
      · rintro (free | ⟨member,low⟩)
        · exact .inl free
        · exact .inr ⟨.inr member,low⟩
      · rintro (free | ⟨rfl | member,low⟩)
        · exact .inl free
        · exact absurd low inside
        · exact .inr ⟨member,low⟩

theorem usedFold {l : List Nat} : f ∈ (l.foldl markUsed p).freeSet ↔ f ∈ p.freeSet ∧ f ∉ l := by
  induction l generalizing p with
  | nil => simp
  | cons g l ih =>
    rw [List.foldl_cons,ih,freeSetUsed,Finset.mem_erase,List.mem_cons]
    tauto

theorem foldTotal {α : Type} {step : Pmm → α → Pmm} (keeps : ∀ p a, (step p a).totalFrames = p.totalFrames) {l : List α} :
    (l.foldl step p).totalFrames = p.totalFrames := by
  induction l generalizing p with
  | nil => rfl
  | cons a l ih => exact ih.trans (keeps p a)

theorem foldCounted {α : Type} {step : Pmm → α → Pmm} (keeps : ∀ p a, Counted p → Counted (step p a)) {l : List α}
    (counted : Counted p) : Counted (l.foldl step p) := by
  induction l generalizing p with
  | nil => exact counted
  | cons a l ih => exact ih (keeps p a counted)

theorem regionTotal {r : MemRegion} : (p.markRegion r).totalFrames = p.totalFrames := foldTotal fun _ _ => markFreeTotal

theorem regionCounted {r : MemRegion} (counted : Counted p) : Counted (p.markRegion r) :=
  foldCounted (fun _ _ => countedFreed) counted

theorem clearedShift (x : Word) : (x &&& ~~~(0xFFF : Word)) >>> 12 = x >>> 12 := by
  refine BitVec.eq_of_getLsbD_eq fun n high => ?_
  have clear : (0xFFF : Word).getLsbD (12 + n) = false := by
    have wide : (0xFFF : Word) = (0xFFF#12).setWidth 64 := by decide
    rw [wide,BitVec.getLsbD_setWidth,BitVec.getLsbD_of_ge _ _ (by omega),Bool.and_false]
  simp only [BitVec.getLsbD_ushiftRight,BitVec.getLsbD_and,BitVec.getLsbD_not,clear]
  by_cases inside : 12 + n < 64
  · simp [inside]
  · rw [BitVec.getLsbD_of_ge _ (12 + n) (by omega)]
    simp

theorem alignedShift (x : Word) : pageAlignUp x >>> 12 = (x + 0xFFF) >>> 12 := clearedShift (x + 0xFFF)

theorem alignedFrame {x : Word} (low : x.toNat ≤ 2 ^ 52) : (pageAlignUp x >>> 12).toNat = (x.toNat + 4095) / 4096 := by
  rw [alignedShift,BitVec.toNat_ushiftRight,BitVec.toNat_add,Nat.shiftRight_eq_div_pow]
  simp
  omega

end

/- The region holds the whole frame at `w`. -/
def Holds (r : MemRegion) (w : Nat) : Prop := r.base.toNat ≤ w ∧ w + 4096 ≤ r.base.toNat + r.len.toNat

/- No region reaches over the physical address space. -/
def Bounded (info : BootInfo) : Prop :=
  ∀ r ∈ (archMemDetect info maxRegions).1, r.base.toNat + r.len.toNat ≤ 2 ^ 52

instance (info : BootInfo) : Decidable (Bounded info) := by unfold Bounded; infer_instance

section
variable {image : KernelImage} {info : BootInfo} {before : Nat → BitVec 8} {p : Pmm} {f : Nat} {r : MemRegion}

theorem memRegion (bounded : r.base.toNat + r.len.toNat ≤ 2 ^ 52) :
    f ∈ (p.markRegion r).freeSet ↔ f ∈ p.freeSet ∨ Holds r (f * 4096) ∧ f < p.totalFrames := by
  have start := alignedFrame (x := r.base) (by omega)
  have stop : ((r.base + r.len) >>> 12).toNat = (r.base.toNat + r.len.toNat) / 4096 := by
    rw [BitVec.toNat_ushiftRight,BitVec.toNat_add,Nat.shiftRight_eq_div_pow]
    omega
  have inside : f ∈ List.range' ((pageAlignUp r.base >>> 12).toNat)
      (((r.base + r.len) >>> 12).toNat - (pageAlignUp r.base >>> 12).toNat) ↔ Holds r (f * 4096) := by
    rw [List.mem_range'_1,start,stop,Holds]
    omega
  unfold markRegion
  rw [freeSetFold,inside]

theorem memRegions {regions : List MemRegion} (bounded : ∀ r ∈ regions, r.base.toNat + r.len.toNat ≤ 2 ^ 52) :
    f ∈ (regions.foldl markRegion p).freeSet ↔
      f ∈ p.freeSet ∨ (∃ r ∈ regions, Holds r (f * 4096)) ∧ f < p.totalFrames := by
  induction regions generalizing p with
  | nil => simp
  | cons r regions ih =>
    obtain ⟨first,rest⟩ := List.forall_mem_cons.mp bounded
    rw [List.foldl_cons,ih rest,regionTotal,memRegion first,List.exists_mem_cons_iff]
    tauto

/- The highest end of a region is the end of one. -/
theorem detectTop (entries : List MmapEntry) (room : Nat) (top : Word) :
    (detectMmap entries room top).2 = top ∨
      ∃ r ∈ (detectMmap entries room top).1, (detectMmap entries room top).2 = r.base + r.len := by
  induction entries generalizing room top with
  | nil => exact .inl rfl
  | cons e entries ih =>
    cases room with
    | zero => exact .inl rfl
    | succ room =>
      simp only [detectMmap]
      split
      · dsimp only
        rcases ih room (if e.base + e.len > top then e.base + e.len else top) with same | ⟨r,member,same⟩
        · rw [same]
          split
          · exact .inr ⟨_,List.mem_cons_self,rfl⟩
          · exact .inl rfl
        · exact .inr ⟨r,List.mem_cons_of_mem _ member,same⟩
      · exact ih (room + 1) top

theorem ramTopBound (bounded : Bounded info) : (archMemDetect info maxRegions).2.toNat ≤ 2 ^ 52 := by
  have ends : ∀ r ∈ (archMemDetect info maxRegions).1, (r.base + r.len).toNat ≤ 2 ^ 52 := by
    intro r member
    have bound := bounded r member
    rw [BitVec.toNat_add]
    omega
  cases info with
  | mmap entries =>
    rcases detectTop entries maxRegions 0 with same | ⟨r,member,same⟩
    · rw [archMemDetect,same]
      decide
    · rw [archMemDetect,same]
      exact ends r member
  | memUpper kib => exact ends _ List.mem_cons_self
  | nothing => decide

/- The frame at `w` is RAM behind the bitmap. -/
def Usable (image : KernelImage) (info : BootInfo) (w : Nat) : Prop :=
  (∃ r ∈ (archMemDetect info maxRegions).1, Holds r w) ∧
    (reservedTop image (archMemDetect info maxRegions).2).toNat ≤ w

variable (image) in
theorem bitmapAddrBound : 0x100000 ≤ (bitmapAddr image).toNat ∧ (bitmapAddr image).toNat ≤ 2 ^ 33 := by
  have above := image.above
  have below := image.below
  have size : (BitVec.ofNat 64 image.kernelEnd).toNat = image.kernelEnd := by
    rw [BitVec.toNat_ofNat]
    omega
  have frame := alignedFrame (x := BitVec.ofNat 64 image.kernelEnd) (by omega)
  rw [size,BitVec.toNat_ushiftRight,Nat.shiftRight_eq_div_pow] at frame
  have most : (bitmapAddr image).toNat ≤ (BitVec.ofNat 64 image.kernelEnd + 0xFFF).toNat := by
    rw [bitmapAddr,pageAlignUp,BitVec.toNat_and]
    exact Nat.and_le_left
  rw [BitVec.toNat_add,size] at most
  simp only [bitmapAddr] at most ⊢
  simp at most
  omega

variable (image) in
theorem reservedBound (bounded : Bounded info) :
    0 < (reservedTop image (archMemDetect info maxRegions).2).toNat ∧
      (reservedTop image (archMemDetect info maxRegions).2).toNat ≤ 2 ^ 52 := by
  have addr := bitmapAddrBound image
  have top := ramTopBound bounded
  have frames : ((archMemDetect info maxRegions).2 >>> 12).toNat ≤ 2 ^ 40 := by
    rw [BitVec.toNat_ushiftRight,Nat.shiftRight_eq_div_pow]
    omega
  unfold reservedTop
  rw [BitVec.toNat_add,BitVec.toNat_ofNat]
  omega

variable (image) in
/- The bitmap starts behind the kernel image. -/
theorem imageBelow : image.kernelEnd ≤ (bitmapAddr image).toNat := by
  have below := image.below
  have size : (BitVec.ofNat 64 image.kernelEnd).toNat = image.kernelEnd := by
    rw [BitVec.toNat_ofNat]
    omega
  have frame := alignedFrame (x := BitVec.ofNat 64 image.kernelEnd) (by omega)
  rw [size,BitVec.toNat_ushiftRight,Nat.shiftRight_eq_div_pow] at frame
  unfold bitmapAddr
  omega

theorem reservedAbove (bounded : Bounded info) : image.kernelEnd ≤ (reservedTop image (archMemDetect info maxRegions).2).toNat := by
  have addr := bitmapAddrBound image
  have start := imageBelow image
  have top := ramTopBound bounded
  have frames : ((archMemDetect info maxRegions).2 >>> 12).toNat ≤ 2 ^ 40 := by
    rw [BitVec.toNat_ushiftRight,Nat.shiftRight_eq_div_pow]
    omega
  unfold reservedTop
  rw [BitVec.toNat_add,BitVec.toNat_ofNat]
  omega

theorem initTotal : (pmmInit image info before).totalFrames = ((archMemDetect info maxRegions).2 >>> 12).toNat := by
  unfold pmmInit
  dsimp only
  rw [foldTotal fun _ _ => markUsedTotal,foldTotal fun _ _ => regionTotal]
  rfl

/- All frames count as used before the regions are read. -/
theorem allUsedFree {total : Nat} : (allUsed before total).freeSet = ∅ := by
  ext f
  simp only [memFree,Finset.notMem_empty,iff_false,not_and,Bool.not_eq_false]
  intro inside
  have frames : f < total := inside
  have byte : f / 8 < (total + 7) / 8 := by omega
  have ones : (0xFF : BitVec 8) = BitVec.allOnes 8 := by decide
  have low : f % 8 < 8 := Nat.mod_lt _ (by decide)
  simp only [bmTest,allUsed,if_pos byte,ones,BitVec.getLsbD_allOnes,low,decide_true]

/- After `pmm_init` exactly the usable frames are free. -/
theorem initFree (bounded : Bounded info) : f ∈ (pmmInit image info before).freeSet ↔
    f < (pmmInit image info before).totalFrames ∧ Usable image info (f * 4096) := by
  have reserved := alignedFrame (reservedBound image bounded).2
  rw [initTotal]
  unfold pmmInit
  dsimp only
  have top : (∃ r ∈ (archMemDetect info maxRegions).1, Holds r (f * 4096)) →
      (f ∉ List.range (reservedFrames image (archMemDetect info maxRegions).2) ↔
        (reservedTop image (archMemDetect info maxRegions).2).toNat ≤ f * 4096) := by
    intro _
    rw [List.mem_range,reservedFrames,reserved]
    omega
  have same : ∀ (q : Pmm) hint, ({ q with allocHint := hint } : Pmm).freeSet = q.freeSet := fun _ _ => rfl
  rw [same,usedFold,memRegions bounded,allUsedFree]
  simp only [Finset.notMem_empty,false_or,allUsed]
  constructor
  · rintro ⟨⟨inside,low⟩,above⟩
    exact ⟨low,inside,(top inside).mp above⟩
  · rintro ⟨low,inside,above⟩
    exact ⟨⟨inside,low⟩,(top inside).mpr above⟩

theorem initCounted : Counted (pmmInit image info before) := by
  have start : Counted (allUsed before ((archMemDetect info maxRegions).2 >>> 12).toNat) := by
    rw [Counted,allUsedFree]
    rfl
  have marked : Counted ((archMemDetect info maxRegions).1.foldl markRegion _) :=
    foldCounted (fun _ _ => regionCounted) start
  exact foldCounted (fun _ _ => countedUsed) (l := List.range (reservedFrames image (archMemDetect info maxRegions).2)) marked

/- The allocator after `pmm_init` and any calls, with the frames that are held:
handed out and not freed. -/
inductive Runs (image : KernelImage) (info : BootInfo) (before : Nat → BitVec 8) : Pmm → List Word → Prop where
  | init : Runs image info before (pmmInit image info before) []
  | alloc {p held} (earlier : Runs image info before p held) :
      Runs image info before p.allocFrame.1 (if p.allocFrame.2 = 0 then held else p.allocFrame.2 :: held)
  | free {p held w} (earlier : Runs image info before p held) (member : w ∈ held) :
      Runs image info before (p.freeFrame w) (held.erase w)

structure Sound (image : KernelImage) (info : BootInfo) (p : Pmm) (held : List Word) : Prop where
  frames : p.totalFrames ≤ 2 ^ 40
  counted : Counted p
  free : ∀ f ∈ p.freeSet, Usable image info (f * 4096)
  taken : ∀ w ∈ held, ∃ f, w.toNat = f * 4096 ∧ f < p.totalFrames ∧ f ∉ p.freeSet ∧ Usable image info (f * 4096)
  nodup : held.Nodup

variable (image before) in
theorem initSound (bounded : Bounded info) : Sound image info (pmmInit image info before) [] := by
  refine ⟨?_,initCounted,fun f free => ((initFree bounded).mp free).2,by simp,List.nodup_nil⟩
  have top := ramTopBound bounded
  rw [initTotal,BitVec.toNat_ushiftRight,Nat.shiftRight_eq_div_pow]
  omega

/- 8 MiB of RAM from 1 MiB on, behind an image of 128 KiB. -/
def smallInfo : BootInfo := .mmap [⟨0x100000,0x800000,1⟩]

def smallImage : KernelImage := ⟨0x120000,by decide,by decide⟩

end
end Pmm
end Mukern
