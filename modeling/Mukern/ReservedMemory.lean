import Mukern.FrameAllocator

/-! Which frames a Multiboot map puts into the hands of `pmm_alloc_frame`, whatever its
entries overlap. -/
namespace Mukern
namespace Pmm

/- The region frees the frame: the rounded bounds of `pmm_init`, in 64 bits. -/
def Frees (r : MemRegion) (f : Nat) : Prop := (pageAlignUp r.base >>> 12).toNat ≤ f ∧ f < ((r.base + r.len) >>> 12).toNat

/- The frame is within one of the regions and neither reserved nor beyond the highest of them. -/
def Offered (image : KernelImage) (info : BootInfo) (f : Nat) : Prop :=
  (∃ r ∈ (archMemDetect info maxRegions).1, Frees r f) ∧ reservedFrames image (archMemDetect info maxRegions).2 ≤ f ∧
    f < ((archMemDetect info maxRegions).2 >>> 12).toNat

/- The entry and the frame at `w` have a byte in common. -/
def Touches (e : MmapEntry) (w : Nat) : Prop := ∃ a, e.base.toNat ≤ a ∧ a < e.base.toNat + e.len.toNat ∧ w ≤ a ∧ a < w + 4096

section
variable {image : KernelImage} {info : BootInfo} {before : Nat → BitVec 8} {p : Pmm} {held : List Word} {f : Nat} {r : MemRegion}
  {entries : List MmapEntry} {w : Word}

theorem memRegionFrees : f ∈ (p.markRegion r).freeSet ↔ f ∈ p.freeSet ∨ Frees r f ∧ f < p.totalFrames := by
  have inside : f ∈ List.range' ((pageAlignUp r.base >>> 12).toNat)
      (((r.base + r.len) >>> 12).toNat - (pageAlignUp r.base >>> 12).toNat) ↔ Frees r f := by
    rw [List.mem_range'_1,Frees]
    omega
  unfold markRegion
  rw [freeSetFold,inside]

theorem memRegionsFree {regions : List MemRegion} :
    f ∈ (regions.foldl markRegion p).freeSet ↔ f ∈ p.freeSet ∨ (∃ r ∈ regions, Frees r f) ∧ f < p.totalFrames := by
  induction regions generalizing p with
  | nil => simp
  | cons r regions ih =>
    rw [List.foldl_cons,ih,regionTotal,memRegionFrees,List.exists_mem_cons_iff,or_assoc,← or_and_right]

/- After `pmm_init` exactly the offered frames are free, for every map. -/
theorem initOffered : f ∈ (pmmInit image info before).freeSet ↔ Offered image info f := by
  have same : ∀ (q : Pmm) hint, ({ q with allocHint := hint } : Pmm).freeSet = q.freeSet := fun _ _ => rfl
  unfold pmmInit Offered
  dsimp only
  rw [same,usedFold,memRegionsFree,allUsedFree,List.mem_range]
  simp only [Finset.notMem_empty,false_or,allUsed]
  constructor
  · rintro ⟨⟨inside,low⟩,above⟩
    exact ⟨inside,Nat.not_lt.mp above,low⟩
  · rintro ⟨inside,above,low⟩
    exact ⟨⟨inside,low⟩,Nat.not_lt.mpr above⟩

/- The word that stands for a frame, in the whole address space. -/
theorem frameAddress (low : f < 2 ^ 52) : (BitVec.ofNat 64 (f <<< 12)).toNat = f * 4096 := by
  rw [BitVec.toNat_ofNat,Nat.shiftLeft_eq]
  omega

variable (image) in
/- The end of the bitmap does not wrap, however high the memory reaches. -/
theorem reservedPositive (ramTop : Word) : 0 < reservedFrames image ramTop := by
  have addr := bitmapAddrBound image
  have frames : (ramTop >>> 12).toNat < 2 ^ 52 := by
    rw [BitVec.toNat_ushiftRight,Nat.shiftRight_eq_div_pow]
    omega
  have top : (reservedTop image ramTop).toNat = (bitmapAddr image).toNat + ((ramTop >>> 12).toNat + 7) / 8 := by
    unfold reservedTop
    rw [BitVec.toNat_add,BitVec.toNat_ofNat]
    omega
  rw [reservedFrames,alignedFrame (by omega)]
  omega

theorem offeredRange (offered : Offered image info f) : 0 < f ∧ f < 2 ^ 52 := by
  obtain ⟨_,above,below⟩ := offered
  have positive := reservedPositive image (archMemDetect info maxRegions).2
  rw [BitVec.toNat_ushiftRight,Nat.shiftRight_eq_div_pow] at below
  omega

/- Only offered frames circulate. -/
structure Circulates (image : KernelImage) (info : BootInfo) (p : Pmm) (held : List Word) : Prop where
  free : ∀ f ∈ p.freeSet, Offered image info f
  taken : ∀ w ∈ held, ∃ f, w = BitVec.ofNat 64 (f <<< 12) ∧ Offered image info f

theorem allocOffered (circulates : Circulates image info p held) :
    p.allocFrame.2 = 0 ∨ ∃ f, p.allocFrame.2 = BitVec.ofNat 64 (f <<< 12) ∧ Offered image info f := by
  have outcome := allocOutcome p
  generalize p.allocFrame = result at outcome
  cases outcome with
  | full empty => exact .inl rfl
  | taken f free => exact .inr ⟨f,rfl,circulates.free f free⟩

theorem runsCirculate (runs : Runs image info before p held) : Circulates image info p held := by
  induction runs with
  | init => exact ⟨fun f free => initOffered.mp free,by simp⟩
  | @alloc p held earlier ih =>
    refine ⟨fun f free => ih.free f (allocFewer free),?_⟩
    split
    · exact ih.taken
    · rename_i some'
      intro w member
      rcases List.mem_cons.mp member with rfl | before
      · exact (allocOffered ih).resolve_left some'
      · exact ih.taken w before
  | @free p held w earlier member ih =>
    refine ⟨fun f free => ?_,fun v other => ih.taken v (List.mem_of_mem_erase other)⟩
    obtain ⟨g,rfl,offered⟩ := ih.taken w member
    have frame : (BitVec.ofNat 64 (g <<< 12)).toNat >>> 12 = g := by
      rw [frameAddress (offeredRange offered).2,Nat.shiftRight_eq_div_pow]
      omega
    rw [freeFrame,frame] at free
    by_cases inside : g < p.totalFrames
    · rw [freeSetFreed inside,Finset.mem_insert] at free
      rcases free with rfl | free
      · exact offered
      · exact ih.free f free
    · rw [freeSetOutside inside] at free
      exact ih.free f free

/- No frame that is handed out has a byte in a range of another type than available memory. -/
def ReservedKept (image : KernelImage) (entries : List MmapEntry) (before : Nat → BitVec 8) : Prop :=
  ∀ p held, Runs image (.mmap entries) before p held → p.allocFrame.2 ≠ 0 →
    ∀ e ∈ entries, e.type ≠ 1 → ¬ Touches e p.allocFrame.2.toNat

theorem apartKept (apart : ∀ f, Offered image (.mmap entries) f → ∀ e ∈ entries, e.type ≠ 1 → ¬ Touches e (f * 4096)) :
    ReservedKept image entries before := by
  intro p held runs some' e member type
  obtain ⟨f,returned,offered⟩ := (allocOffered (runsCirculate runs)).resolve_left some'
  rw [returned,frameAddress (offeredRange offered).2]
  exact apart f offered e member type

/- On a map whose regions lie in the physical address space and overlap no other entry,
reserved memory stays reserved. -/
theorem disjointKept (bounded : Bounded (.mmap entries)) (disjoint : ∀ r ∈ (archMemDetect (.mmap entries) maxRegions).1, ∀ e ∈ entries, e.type ≠ 1 →
    ∀ a, r.base.toNat ≤ a → a < r.base.toNat + r.len.toNat → ¬ (e.base.toNat ≤ a ∧ a < e.base.toNat + e.len.toNat)) :
    ReservedKept image entries before := by
  refine apartKept fun f offered e member type ⟨a,low,high,within⟩ => ?_
  obtain ⟨⟨r,listed,first,last⟩,_⟩ := offered
  have bound := bounded r listed
  have start := alignedFrame (x := r.base) (by omega)
  rw [BitVec.toNat_ushiftRight,BitVec.toNat_add,Nat.shiftRight_eq_div_pow] at last
  exact disjoint r listed e member type a (by omega) (by omega) ⟨low,high⟩

end
end Pmm
end Mukern
