import Mukern.TableGrowth

/-! Which frames the page-table tree refers to: as a table, or as the frame of a 4 KiB
page. `Accounted` says that no frame of a set is lost; `vmm_map` keeps it as long as the
entry that it overwrites was not the last reference. -/
namespace Mukern
open RadixTree Layout

/- Entry `i` of the level-1 table `n`, at the end of path `p`, maps a page to frame `f`. -/
structure Maps (m : Memory) (f : Nat) (p : List (Fin 512)) (n : Nat) (i : Fin 512) : Prop where
  depth : p.length = 3
  here : m.layout.table m.words p = some n
  present : m.words (m.layout.cell n i) &&& ptePresent ≠ 0
  frame : entryFrame (m.words (m.layout.cell n i)) = f

def Referenced (m : Memory) (f : Nat) : Prop :=
  (∃ p, m.layout.table m.words p = some f) ∨ ∃ p n i, Maps m f p n i

/- Every frame of the set is free or referenced. -/
def Accounted (frames : Finset Nat) (m : Memory) : Prop := ∀ f ∈ frames, f ∉ m.pmm.freeSet → Referenced m f

/- Without the entry for `va`, the frame of the set that it maps is still referenced. -/
def Spares (frames : Finset Nat) (m : Memory) (va : Word) : Prop :=
  ∀ old n, Maps m old (pathOf va 3) n (slotOf va 1) → old ∈ frames → Referenced (m.putLeaf va n 0) old

/- No page is mapped to a free frame. -/
def LeavesLive (m : Memory) : Prop := ∀ f p n i, Maps m f p n i → f ∉ m.pmm.freeSet

section
variable {frames : Finset Nat} {m m' : Memory} {va pa flags v : Word} {p q : List (Fin 512)} {f n n' t : Nat} {i j : Fin 512}

theorem hangMaps (tree : PageTree m) (here : m.layout.table m.words p = some n) (short : p.length ≤ 2)
    (absent : m.words (m.layout.cell n i) &&& ptePresent = 0) (free : t ∈ m.pmm.freeSet) :
    Maps (m.hang n i t) f q n' j ↔ Maps m f q n' j := by
  have same (there : m.layout.table m.words q = some n') (depth : q.length = 3) :
      (m.hang n i t).words (m.layout.cell n' j) = m.words (m.layout.cell n' j) := by
    refine hangWord tree here short absent free there (.inl ?_)
    rintro rfl
    omega
  constructor
  · rintro ⟨depth,there,present,frame⟩
    rw [hangTable tree here short absent free] at there
    split at there
    · -- the new table is empty
      obtain rfl := Option.some.inj there
      have empty : (m.hang n i t).words ((m.hang n i t).layout.cell t j) = 0 := hungZero tree here free j
      rw [empty] at present
      exact absurd (by decide) present
    · have word := same there depth
      exact ⟨depth,there,word ▸ present,word ▸ frame⟩
  · rintro ⟨depth,there,present,frame⟩
    have word := same there depth
    refine ⟨depth,?_,?_,?_⟩
    · rw [hangTable tree here short absent free]
      refine (if_neg ?_).trans there
      rintro rfl
      rw [nextBelow here short,if_pos (.inl absent)] at there
      cases there
    · exact word.symm ▸ present
    · exact word.symm ▸ frame

theorem Hangs.maps (tree : PageTree m) (hangs : Hangs m m') : Maps m' f q n' j ↔ Maps m f q n' j := by
  induction hangs with
  | none => rfl
  | hang i earlier here short absent free ih => exact (hangMaps (earlier.grown tree).tree here short absent free).trans ih

/- The entry of the page itself, and all others. -/
theorem putMaps (tree : PageTree m) (here : m.layout.table m.words (pathOf va 3) = some n) : Maps (m.putLeaf va n v) f q n' j ↔
    if q = pathOf va 3 ∧ j = slotOf va 1 then n' = n ∧ v &&& ptePresent ≠ 0 ∧ entryFrame v = f else Maps m f q n' j := by
  have low := tableLow here
  have table : (m.putLeaf va n v).layout.table (m.putLeaf va n v).words q = m.layout.table m.words q := leafTable here tree
  have own : (m.putLeaf va n v).words ((m.putLeaf va n v).layout.cell n (slotOf va 1)) = v := putCell low
  split
  · rename_i same
    obtain ⟨rfl,rfl⟩ := same
    constructor
    · rintro ⟨_,there,present,frame⟩
      cases here.symm.trans (table.symm.trans there)
      rw [own] at present frame
      exact ⟨rfl,present,frame⟩
    · rintro ⟨rfl,present,frame⟩
      exact ⟨pathLength,table.trans here,by rwa [own],by rwa [own]⟩
  · rename_i other
    have word (there : m.layout.table m.words q = some n') :
        (m.putLeaf va n v).words ((m.putLeaf va n v).layout.cell n' j) = m.words (m.layout.cell n' j) :=
      putOther low fun same => other (tree.separated.word there here same)
    constructor
    · rintro ⟨depth,there,present,frame⟩
      have there' := table.symm.trans there
      rw [word there'] at present frame
      exact ⟨depth,there',present,frame⟩
    · rintro ⟨depth,there,present,frame⟩
      exact ⟨depth,table.trans there,by rwa [word there],by rwa [word there]⟩

theorem Hangs.referenced (tree : PageTree m) (hangs : Hangs m m') (ref : Referenced m f) : Referenced m' f := by
  rcases ref with ⟨p,here⟩ | ⟨p,n,i,maps⟩
  · exact .inl ⟨p,(hangs.grown tree).table p f here⟩
  · exact .inr ⟨p,n,i,(hangs.maps tree).mpr maps⟩

theorem Hangs.accounted (tree : PageTree m) (hangs : Hangs m m') (accounted : Accounted frames m) : Accounted frames m' := by
  intro f member taken
  by_cases free : f ∈ m.pmm.freeSet
  · exact .inl (((hangs.grown tree).taken f free).resolve_left taken)
  · exact hangs.referenced tree (accounted f member free)

/- An entry for the page was there already. -/
theorem Hangs.spares (tree : PageTree m) (hangs : Hangs m m') (spares : Spares frames m va) : Spares frames m' va := by
  intro old n maps member
  have before := (hangs.maps tree).mp maps
  have tree' := (hangs.grown tree).tree
  rcases spares old n before member with ⟨p,here⟩ | ⟨p,n',i,other⟩
  · rw [leafTable before.here tree] at here
    exact .inl ⟨p,(leafTable maps.here tree').trans ((hangs.grown tree).table p old here)⟩
  · refine .inr ⟨p,n',i,?_⟩
    rw [putMaps tree before.here] at other
    rw [putMaps tree' maps.here]
    split at other
    · exact absurd (by decide) other.2.1
    · rename_i apart
      rw [if_neg apart]
      exact (hangs.maps tree).mpr other

/- The frame that comes in is referenced, and the one that goes out still is. -/
theorem putAccounted (tree : PageTree m) (here : m.layout.table m.words (pathOf va 3) = some n) (present : v &&& ptePresent ≠ 0)
    (accounted : Accounted (frames.erase (entryFrame v)) m) (spares : Spares (frames.erase (entryFrame v)) m va) :
    Accounted frames (m.putLeaf va n v) := by
  have tables : ∀ p f, m.layout.table m.words p = some f →
      (m.putLeaf va n v).layout.table (m.putLeaf va n v).words p = some f := fun p f there => (leafTable here tree).trans there
  intro f member taken
  by_cases own : f = entryFrame v
  · subst own
    refine .inr ⟨pathOf va 3,n,slotOf va 1,?_⟩
    rw [putMaps tree here,if_pos ⟨rfl,rfl⟩]
    exact ⟨rfl,present,rfl⟩
  · have kept := Finset.mem_erase.mpr ⟨own,member⟩
    have other {p n' i} (maps : Maps m f p n' i) (apart : ¬ (p = pathOf va 3 ∧ i = slotOf va 1)) : Referenced (m.putLeaf va n v) f := by
      refine .inr ⟨p,n',i,?_⟩
      rw [putMaps tree here,if_neg apart]
      exact maps
    rcases accounted f kept taken with ⟨p,there⟩ | ⟨p,n',i,maps⟩
    · exact .inl ⟨p,tables p f there⟩
    · by_cases overwritten : p = pathOf va 3 ∧ i = slotOf va 1
      · obtain ⟨rfl,rfl⟩ := overwritten
        cases here.symm.trans maps.here
        rcases spares f n maps kept with ⟨p,there⟩ | ⟨p,n',i,elsewhere⟩
        · rw [leafTable here tree] at there
          exact .inl ⟨p,tables p f there⟩
        · rw [putMaps tree here] at elsewhere
          split at elsewhere
          · exact absurd (by decide) elsewhere.2.1
          · rename_i apart
            exact other elsewhere apart
      · exact other maps overwritten

theorem leafFrame (pa flags : Word) : entryFrame (leafEntry pa flags) = entryFrame pa := by
  rw [leafEntry,← frameOfEntry pa]
  exact entryFrameOf (entryFrameLow pa) (flagsBits flags).1

/- `vmm_map`, of a frame that may not be referenced before. -/
theorem mapAccounted (tree : PageTree m) (maps : (m.vmmMap va pa flags).2 = 0) (accounted : Accounted (frames.erase (entryFrame pa)) m)
    (spares : Spares (frames.erase (entryFrame pa)) m va) : Accounted frames (m.vmmMap va pa flags).1 := by
  rcases mapHangs tree va pa flags with ⟨_,fails⟩ | ⟨m₁,n,hangs,here,result⟩
  · rw [fails] at maps
    cases maps
  · rw [result]
    have tree₁ := (hangs.grown tree).tree
    refine putAccounted tree₁ here (leafPresent pa flags) ?_ ?_
    · rw [leafFrame]
      exact hangs.accounted tree accounted
    · rw [leafFrame]
      exact hangs.spares tree spares

theorem mapFailsAccounted (tree : PageTree m) (fails : (m.vmmMap va pa flags).2 ≠ 0) (accounted : Accounted frames m) :
    Accounted frames (m.vmmMap va pa flags).1 := by
  rcases mapHangs tree va pa flags with ⟨hangs,_⟩ | ⟨m₁,n,_,_,result⟩
  · exact hangs.accounted tree accounted
  · rw [result] at fails
    exact absurd rfl fails

/- A frame is taken for data. -/
def Memory.takeFrame (m : Memory) : Memory := { m with pmm := m.pmm.allocFrame.1 }

/- The work of `SYS_MAP` for the page at `va`. -/
def Memory.mapFresh (m : Memory) (va : Word) : Memory :=
  if m.pmm.allocFrame.2 ≠ 0 then (m.takeFrame.vmmMap va m.pmm.allocFrame.2 vmUserRw).1 else m.takeFrame

theorem entryFrameTaken (low : f < 2 ^ 40) : entryFrame (BitVec.ofNat 64 (f <<< 12)) = f := by
  have flagless : frameAddr f ||| 0 = frameAddr f := BitVec.or_zero
  have shift : BitVec.ofNat 64 (f <<< 12) = frameAddr f := by rw [frameAddr,Nat.shiftLeft_eq]
  rw [shift,← flagless]
  exact entryFrameOf low (by decide)

theorem takeMaps : Maps m.takeFrame f p n i ↔ Maps m f p n i :=
  ⟨fun ⟨depth,here,present,frame⟩ => ⟨depth,here,present,frame⟩,fun ⟨depth,here,present,frame⟩ => ⟨depth,here,present,frame⟩⟩

theorem takeTree (tree : PageTree m) : PageTree m.takeFrame := by
  have fewer : m.takeFrame.pmm.freeSet ⊆ m.pmm.freeSet := Pmm.allocFewer
  refine ⟨tree.separated,fun p n there free => tree.live p n there (fewer free),?_,fun free => tree.zero (fewer free)⟩
  exact allocFrames.trans_le tree.frames

/- What `pmm_alloc_frame` hands out, if a frame is free. -/
theorem takeFree (tree : PageTree m) (free : m.pmm.freeSet ≠ ∅) : ∃ f ∈ m.pmm.freeSet, m.pmm.allocFrame.2 = BitVec.ofNat 64 (f <<< 12) ∧
    m.pmm.allocFrame.2 ≠ 0 ∧ entryFrame m.pmm.allocFrame.2 = f ∧ m.takeFrame.pmm.freeSet = m.pmm.freeSet.erase f := by
  unfold Memory.takeFrame
  have outcome := Pmm.allocOutcome m.pmm
  generalize m.pmm.allocFrame = result at outcome
  cases outcome with
  | full empty => exact absurd empty free
  | taken f member =>
    have low : f < 2 ^ 40 := Nat.lt_of_lt_of_le (Pmm.memFree.mp member).1 tree.frames
    have value := Pmm.frameWord low
    refine ⟨f,member,rfl,?_,entryFrameTaken low,Pmm.freeSetSet⟩
    intro zero
    have zero' : BitVec.ofNat 64 (f <<< 12) = 0 := zero
    rw [zero'] at value
    have start : f = 0 := by
      simp at value
      omega
    exact tree.zero (start ▸ member)

theorem takeNone (empty : m.pmm.freeSet = ∅) : m.pmm.allocFrame = (m.pmm,0) := by
  have outcome := Pmm.allocOutcome m.pmm
  generalize m.pmm.allocFrame = result at outcome
  cases outcome with
  | full _ => rfl
  | taken f member =>
    rw [empty] at member
    cases member

theorem takeAccounted (tree : PageTree m) (accounted : Accounted frames m) :
    Accounted (frames.erase (entryFrame m.pmm.allocFrame.2)) m.takeFrame := by
  intro f member taken
  obtain ⟨other,inside⟩ := Finset.mem_erase.mp member
  have before : f ∉ m.pmm.freeSet := by
    intro free
    obtain ⟨g,_,_,_,frame,set⟩ := takeFree tree (Finset.ne_empty_of_mem free)
    rw [set,← frame] at taken
    exact taken (Finset.mem_erase.mpr ⟨other,free⟩)
  refine (accounted f inside before).imp id ?_
  rintro ⟨p,n,i,maps⟩
  exact ⟨p,n,i,takeMaps.mpr maps⟩

theorem freshTree (tree : PageTree m) : PageTree (m.mapFresh va) := by
  unfold Memory.mapFresh
  split
  · exact mapTree (takeTree tree)
  · exact takeTree tree

/- `SYS_MAP` loses no frame if none is free, or if there is a frame more than tables are
missing, no large page is in the way, and the page's old frame is referenced elsewhere. -/
def Keeps (frames : Finset Nat) (m : Memory) (va : Word) : Prop := m.pmm.freeSet = ∅ ∨ Room m.takeFrame va ∧ Spares frames m va

theorem freshAccounted (tree : PageTree m) (accounted : Accounted frames m) (keeps : Keeps frames m va) : Accounted frames (m.mapFresh va) := by
  by_cases empty : m.pmm.freeSet = ∅
  · have none := takeNone empty
    unfold Memory.mapFresh Memory.takeFrame
    rw [none]
    exact accounted
  · obtain ⟨room,spares⟩ := keeps.resolve_left empty
    obtain ⟨_,_,_,nonzero,_⟩ := takeFree tree empty
    obtain ⟨m₁,n,_,_,_,result⟩ := mapRoom (takeTree tree) room m.pmm.allocFrame.2 vmUserRw
    have maps : (m.takeFrame.vmmMap va m.pmm.allocFrame.2 vmUserRw).2 = 0 := by rw [result]
    rw [Memory.mapFresh,if_pos nonzero]
    refine mapAccounted (takeTree tree) maps (takeAccounted tree accounted) ?_
    intro old n maps member
    refine (spares old n (takeMaps.mp maps) (Finset.mem_of_mem_erase member)).imp id ?_
    rintro ⟨p,n',i,other⟩
    exact ⟨p,n',i,⟨other.depth,other.here,other.present,other.frame⟩⟩

end
end Mukern
