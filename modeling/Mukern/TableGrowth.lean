import Mathlib.Order.Interval.Finset.Nat
import Mukern.VmUpdates

/-! The tables that `vmm_map` hangs on its way, one after the other, and when it cannot
fail: no large page is in the way and there is a frame for each table that is missing. -/
namespace Mukern
open RadixTree Layout

/- Some empty tables have been hung. -/
inductive Hangs (m : Memory) : Memory → Prop where
  | none : Hangs m m
  | hang {m' p n t} (i : Fin 512) (earlier : Hangs m m') (here : m'.layout.table m'.words p = some n) (short : p.length ≤ 2)
      (absent : m'.words (m'.layout.cell n i) &&& ptePresent = 0) (free : t ∈ m'.pmm.freeSet) : Hangs m (m'.hang n i t)

/- The walk of `va` has come `k` levels down, and has hung what was missing on its way. -/
inductive Digs (m : Memory) (va : Word) : Nat → Memory → Prop where
  | top : Digs m va 0 m
  | there {m' k t} (earlier : Digs m va k m') (short : k ≤ 2) (below : m'.layout.table m'.words (pathOf va (k + 1)) = some t) :
      Digs m va (k + 1) m'
  | hang {m' k n t} (earlier : Digs m va k m') (here : m'.layout.table m'.words (pathOf va k) = some n) (short : k ≤ 2)
      (absent : m'.words (m'.layout.cell n (slotOf va (4 - k))) &&& ptePresent = 0) (free : t ∈ m'.pmm.freeSet) :
      Digs m va (k + 1) (m'.hang n (slotOf va (4 - k)) t)

/- Where the walk of `va` meets an absent entry: below `k` levels, in table `n`. -/
structure Frontier (m : Memory) (va : Word) (k n : Nat) : Prop where
  level : k ≤ 3
  here : m.layout.table m.words (pathOf va k) = some n
  absent : m.words (m.layout.cell n (slotOf va (4 - k))) &&& ptePresent = 0

/- All tables for `va` are there, or there are frames for those that are missing. -/
def Room (m : Memory) (va : Word) : Prop :=
  (∃ n, m.layout.table m.words (pathOf va 3) = some n) ∨ ∃ k n, Frontier m va k n ∧ 3 - k ≤ m.pmm.freeSet.card

section
variable {m m' m'' : Memory} {va va' pa flags : Word} {p q : List (Fin 512)} {n n' k t u : Nat} {i j : Fin 512}

theorem hangTable (tree : PageTree m) (here : m.layout.table m.words p = some n) (short : p.length ≤ 2)
    (absent : m.words (m.layout.cell n i) &&& ptePresent = 0) (free : t ∈ m.pmm.freeSet) :
    (m.hang n i t).layout.table (m.hang n i t).words q = if q = i :: p then some t else m.layout.table m.words q :=
  (hungLinked tree here short absent free).table tree.separated

theorem hangWord (tree : PageTree m) (here : m.layout.table m.words p = some n) (short : p.length ≤ 2)
    (absent : m.words (m.layout.cell n i) &&& ptePresent = 0) (free : t ∈ m.pmm.freeSet)
    (there : m.layout.table m.words q = some n') (other : q ≠ p ∨ j ≠ i) :
    (m.hang n i t).words (m.layout.cell n' j) = m.words (m.layout.cell n' j) :=
  ((hungLinked tree here short absent free).kept tree.separated there).2 other

theorem Hangs.trans (first : Hangs m m') (second : Hangs m' m'') : Hangs m m'' := by
  induction second with
  | none => exact first
  | hang i earlier here short absent free ih => exact .hang i ih here short absent free

theorem Hangs.grown (tree : PageTree m) (hangs : Hangs m m') : Grown m m' := by
  induction hangs with
  | none => exact .refl tree
  | hang i earlier here short absent free ih => exact ih.trans (hangGrown ih.tree here short absent free)

theorem Digs.hangs (digs : Digs m va k m') : Hangs m m' := by
  induction digs with
  | top => exact .none
  | there earlier short below ih => exact ih
  | hang earlier here short absent free ih => exact .hang _ ih here (by rw [pathLength]; exact short) absent free

/- Every table was there before, or its frame was free. -/
theorem Hangs.fresh (tree : PageTree m) (hangs : Hangs m m') (there : m'.layout.table m'.words q = some u) :
    m.layout.table m.words q = some u ∨ u ∈ m.pmm.freeSet := by
  induction hangs generalizing q u with
  | none => exact .inl there
  | hang i earlier here short absent free ih =>
    have grown := earlier.grown tree
    rw [hangTable grown.tree here short absent free] at there
    split at there
    · cases there
      exact .inr (grown.free free)
    · exact ih there

theorem nextDigs {r : Memory × Option Word} (tree : PageTree m) (digs : Digs m va k m') (short : k ≤ 2)
    (here : m'.layout.table m'.words (pathOf va k) = some n) (next : NextOutcome m' (pathOf va k) n (slotOf va (4 - k)) r) :
    (∃ j, Digs m va j r.1) ∧ (r.2 = none ∨ ∃ t, r.2 = some (frameAddr t) ∧ Digs m va (k + 1) r.1 ∧
      r.1.layout.table r.1.words (pathOf va (k + 1)) = some t) := by
  cases next with
  | there t below => exact ⟨⟨k,digs⟩,.inr ⟨t,rfl,.there digs short below,below⟩⟩
  | large present single => exact ⟨⟨k,digs⟩,.inl rfl⟩
  | full absent empty => exact ⟨⟨k,digs⟩,.inl rfl⟩
  | hung t absent free =>
    have deeper : Digs m va (k + 1) (m'.hang n (slotOf va (4 - k)) t) := .hang digs here short absent free
    have short' : (pathOf va k).length ≤ 2 := by rw [pathLength]; exact short
    exact ⟨⟨k + 1,deeper⟩,.inr ⟨t,rfl,deeper,(hangTable (digs.hangs.grown tree).tree here short' absent free).trans (if_pos rfl)⟩⟩

variable (va) in
theorem descendDigs (tree : PageTree m) : (∃ j, Digs m va j (m.descend va true).1) ∧
    ((m.descend va true).2 = none ∨ ∃ t, (m.descend va true).2 = some (frameAddr t) ∧ Digs m va 3 (m.descend va true).1 ∧
      (m.descend va true).1.layout.table (m.descend va true).1.words (pathOf va 3) = some t) := by
  have root : m.layout.table m.words (pathOf va 0) = some (entryFrame m.cr3) := rfl
  have first := nextDigs tree (.top : Digs m va 0 m) (by decide) root (nextOutcome m _ _ (slotOf va 4) tree root (by simp [pathLength]))
  rw [frameOfEntry,← indexSlot] at first
  unfold Memory.descend
  generalize m.nextTable (m.cr3 &&& addrMask) (Memory.index va 4) true = top at first ⊢
  rcases top with ⟨m₁,none | pdpt⟩
  · exact ⟨first.1,.inl rfl⟩
  obtain ⟨_,missing | ⟨t,value,digs,here⟩⟩ := first
  · cases missing
  cases value
  have second := nextDigs tree digs (by decide) here (nextOutcome m₁ (pathOf va 1) t (slotOf va 3) (digs.hangs.grown tree).tree here (by simp [pathLength]))
  rw [← indexSlot] at second
  dsimp only at second ⊢
  generalize m₁.nextTable (frameAddr t) (Memory.index va 3) true = middle at second ⊢
  rcases middle with ⟨m₂,none | pd⟩
  · exact ⟨second.1,.inl rfl⟩
  obtain ⟨_,missing | ⟨t₂,value,digs₂,here₂⟩⟩ := second
  · cases missing
  cases value
  have third := nextDigs tree digs₂ (by decide) here₂ (nextOutcome m₂ (pathOf va 2) t₂ (slotOf va 2) (digs₂.hangs.grown tree).tree here₂ (by simp [pathLength]))
  rw [← indexSlot] at third
  exact third

variable (va) in
theorem descendHangs (tree : PageTree m) : Hangs m (m.descend va true).1 ∧
    ((m.descend va true).2 = none ∨ ∃ t, (m.descend va true).2 = some (frameAddr t) ∧
      (m.descend va true).1.layout.table (m.descend va true).1.words (pathOf va 3) = some t) := by
  obtain ⟨⟨_,digs⟩,result⟩ := descendDigs va tree
  exact ⟨digs.hangs,result.imp_right fun ⟨t,value,_,here⟩ => ⟨t,value,here⟩⟩

theorem tableAbove (here : m.layout.table m.words (pathOf va k) = some n) {j : Nat} (low : j ≤ k) :
    ∃ n', m.layout.table m.words (pathOf va j) = some n' := by
  induction k generalizing n with
  | zero =>
    obtain rfl : j = 0 := by omega
    exact ⟨n,here⟩
  | succ k ih =>
    rcases Nat.lt_or_eq_of_le low with less | rfl
    · obtain ⟨parent,there,_⟩ := Layout.tableParent here
      exact ih there (by omega)
    · exact ⟨n,here⟩

theorem Frontier.below (frontier : Frontier m va k n) (short : k ≤ 2) : m.layout.table m.words (pathOf va (k + 1)) = none := by
  rw [pathOf,nextBelow frontier.here (by rw [pathLength]; exact short)]
  exact if_pos (.inl frontier.absent)

/- No table for `va` lies below the frontier. -/
theorem Frontier.last (frontier : Frontier m va k n) {j : Nat} (short : j ≤ 3) (here : m.layout.table m.words (pathOf va j) = some n') : j ≤ k := by
  by_contra deep
  obtain ⟨_,there⟩ := tableAbove here (by omega : k + 1 ≤ j)
  cases (frontier.below (by omega)).symm.trans there

theorem Frontier.trace (frontier : Frontier m va k n) : m.trace va = none := traceAbsent frontier.here frontier.level frontier.absent

/- A table that is new lies on the way. -/
theorem Digs.fresh (tree : PageTree m) (digs : Digs m va k m') (there : m'.layout.table m'.words q = some u) :
    m.layout.table m.words q = some u ∨ ∃ j ≤ k, q = pathOf va j := by
  induction digs with
  | top => exact .inl there
  | there earlier short below ih => exact (ih there).imp_right fun ⟨j,low,same⟩ => ⟨j,Nat.le_succ_of_le low,same⟩
  | @hang m' k n t earlier here short absent free ih =>
    have short' : (pathOf va k).length ≤ 2 := by rw [pathLength]; exact short
    rw [hangTable (earlier.hangs.grown tree).tree here short' absent free] at there
    split at there
    · rename_i same
      exact .inr ⟨k + 1,Nat.le_refl _,same⟩
    · exact (ih there).imp_right fun ⟨j,low,same⟩ => ⟨j,Nat.le_succ_of_le low,same⟩

/- Down to the frontier nothing is taken, and from there on a frame for each level. -/
theorem Digs.cost (tree : PageTree m) {j : Nat} (frontier : Frontier m va j n) (digs : Digs m va k m') :
    (k ≤ j → m' = m) ∧ (j ≤ k → m'.pmm.freeSet.card + (k - j) = m.pmm.freeSet.card ∧ ∃ n', Frontier m' va k n') := by
  induction digs with
  | top =>
    refine ⟨fun _ => rfl,fun low => ?_⟩
    obtain rfl : j = 0 := by omega
    exact ⟨rfl,n,frontier⟩
  | @there m' k t earlier short below ih =>
    have behind : ¬ j ≤ k := by
      intro deep
      obtain ⟨_,_,frontier'⟩ := ih.2 deep
      have := frontier'.last (by omega) below
      omega
    have same := ih.1 (by omega)
    refine ⟨fun _ => same,fun low => ?_⟩
    obtain rfl : j = k + 1 := by omega
    rw [same,Nat.sub_self]
    exact ⟨rfl,n,frontier⟩
  | @hang m' k n₁ t earlier here short absent free ih =>
    have tree' := (earlier.hangs.grown tree).tree
    have short' : (pathOf va k).length ≤ 2 := by rw [pathLength]; exact short
    have deep : j ≤ k := by
      by_contra before
      obtain rfl := ih.1 (by omega)
      obtain ⟨_,there⟩ := tableAbove frontier.here (by omega : k + 1 ≤ j)
      rw [pathOf,nextBelow here short',if_pos (.inl absent)] at there
      cases there
    have set : (m'.hang n₁ (slotOf va (4 - k)) t).pmm.freeSet = m'.pmm.freeSet.erase t := Pmm.freeSetSet
    have fewer : (m'.hang n₁ (slotOf va (4 - k)) t).pmm.freeSet.card + 1 = m'.pmm.freeSet.card := by
      rw [set,Finset.card_erase_add_one free]
    refine ⟨fun low => by omega,fun _ => ⟨?_,t,by omega,(hangTable tree' here short' absent free).trans (if_pos rfl),?_⟩⟩
    · have before := (ih.2 deep).1
      omega
    · have empty : (m'.hang n₁ (slotOf va (4 - k)) t).words ((m'.hang n₁ (slotOf va (4 - k)) t).layout.cell t (slotOf va (4 - (k + 1)))) = 0 :=
        hungZero tree' here free _
      rw [empty]
      decide

/- A call of `next_table` with room below it does not stop. -/
theorem nextRoom {r : Memory × Option Word} (tree : PageTree m) (room : Room m va) (short : k ≤ 2)
    (here : m.layout.table m.words (pathOf va k) = some n) (next : NextOutcome m (pathOf va k) n (slotOf va (4 - k)) r) :
    ∃ t, r.2 = some (frameAddr t) ∧ r.1.layout.table r.1.words (pathOf va (k + 1)) = some t ∧ Room r.1 va ∧
      m.pmm.freeSet.card ≤ r.1.pmm.freeSet.card + 1 := by
  have short' : (pathOf va k).length ≤ 2 := by rw [pathLength]; exact short
  have below := nextBelow (i := slotOf va (4 - k)) here short'
  -- where the walk stops at an absent entry, that entry is the frontier
  have stops (absent : m.words (m.layout.cell n (slotOf va (4 - k))) &&& ptePresent = 0) : 3 - k ≤ m.pmm.freeSet.card := by
    have mine : Frontier m va k n := ⟨by omega,here,absent⟩
    rcases room with ⟨_,whole⟩ | ⟨j,_,frontier,frames⟩
    · have := mine.last (Nat.le_refl 3) whole
      omega
    · have := mine.last frontier.level frontier.here
      have := frontier.last (by omega) here
      obtain rfl : j = k := by omega
      exact frames
  cases next with
  | there t next => exact ⟨t,rfl,next,room,Nat.le_succ _⟩
  | large present single =>
    exfalso
    rw [if_pos (.inr single)] at below
    rcases room with ⟨_,whole⟩ | ⟨j,n',frontier,_⟩
    · obtain ⟨_,there⟩ := tableAbove whole (by omega : k + 1 ≤ 3)
      cases below.symm.trans there
    · have deep := frontier.last (by omega) here
      rcases Nat.lt_or_eq_of_le deep with less | rfl
      · obtain ⟨_,there⟩ := tableAbove frontier.here (by omega : k + 1 ≤ j)
        cases below.symm.trans there
      · cases here.symm.trans frontier.here
        exact present frontier.absent
  | full absent empty =>
    have frames := stops absent
    rw [empty,Finset.card_empty] at frames
    omega
  | hung t absent free =>
    have frames := stops absent
    have set : (m.hang n (slotOf va (4 - k)) t).pmm.freeSet = m.pmm.freeSet.erase t := Pmm.freeSetSet
    have fewer : (m.hang n (slotOf va (4 - k)) t).pmm.freeSet.card = m.pmm.freeSet.card - 1 := by
      rw [set,Finset.card_erase_of_mem free]
    have left : 3 - (k + 1) ≤ (m.hang n (slotOf va (4 - k)) t).pmm.freeSet.card := by
      rw [fewer]
      omega
    have most : m.pmm.freeSet.card ≤ (m.hang n (slotOf va (4 - k)) t).pmm.freeSet.card + 1 := by
      rw [fewer]
      omega
    have there : (m.hang n (slotOf va (4 - k)) t).layout.table (m.hang n (slotOf va (4 - k)) t).words (pathOf va (k + 1)) = some t :=
      (hangTable tree here short' absent free).trans (if_pos rfl)
    refine ⟨t,rfl,there,.inr ⟨k + 1,t,⟨by omega,there,?_⟩,left⟩,most⟩
    have empty : (m.hang n (slotOf va (4 - k)) t).words ((m.hang n (slotOf va (4 - k)) t).layout.cell t (slotOf va (4 - (k + 1)))) = 0 :=
      hungZero tree here free _
    rw [empty]
    decide

theorem nextHangs {r : Memory × Option Word} (here : m.layout.table m.words p = some n) (short : p.length ≤ 2)
    (next : NextOutcome m p n i r) : Hangs m r.1 := by
  cases next with
  | there t below => exact .none
  | large present single => exact .none
  | full absent empty => exact .none
  | hung t absent free => exact .hang i .none here short absent free

theorem descendRoom (tree : PageTree m) (room : Room m va) : ∃ m' t, m.descend va true = (m',some (frameAddr t)) ∧ Hangs m m' ∧
    m'.layout.table m'.words (pathOf va 3) = some t ∧ m.pmm.freeSet.card ≤ m'.pmm.freeSet.card + 3 := by
  have root : m.layout.table m.words (pathOf va 0) = some (entryFrame m.cr3) := rfl
  have outcome := nextOutcome m _ _ (slotOf va 4) tree root (by simp [pathLength])
  obtain ⟨t,value,here,room₁,fewer⟩ := nextRoom tree room (by decide) root outcome
  have hangs := nextHangs root (by simp [pathLength]) outcome
  rw [frameOfEntry,← indexSlot] at value here room₁ fewer hangs
  unfold Memory.descend
  generalize m.nextTable (m.cr3 &&& addrMask) (Memory.index va 4) true = top at value here room₁ fewer hangs ⊢
  obtain ⟨m₁,pdpt⟩ := top
  dsimp only at value here room₁ fewer hangs
  subst value
  have tree₁ := (hangs.grown tree).tree
  have outcome := nextOutcome m₁ _ _ (slotOf va 3) tree₁ here (by simp [pathLength])
  obtain ⟨t₂,value,here₂,room₂,fewer₂⟩ := nextRoom tree₁ room₁ (by decide) here outcome
  have hangs₂ := nextHangs here (by simp [pathLength]) outcome
  rw [← indexSlot] at value here₂ room₂ fewer₂ hangs₂
  dsimp only
  generalize m₁.nextTable (frameAddr t) (Memory.index va 3) true = middle at value here₂ room₂ fewer₂ hangs₂ ⊢
  obtain ⟨m₂,pd⟩ := middle
  dsimp only at value here₂ room₂ fewer₂ hangs₂
  subst value
  have tree₂ := (hangs₂.grown tree₁).tree
  have outcome := nextOutcome m₂ _ _ (slotOf va 2) tree₂ here₂ (by simp [pathLength])
  obtain ⟨t₃,value,here₃,_,fewer₃⟩ := nextRoom tree₂ room₂ (by decide) here₂ outcome
  have hangs₃ := nextHangs here₂ (by simp [pathLength]) outcome
  rw [← indexSlot] at value here₃ fewer₃ hangs₃
  dsimp only
  generalize m₂.nextTable (frameAddr t₂) (Memory.index va 2) true = bottom at value here₃ fewer₃ hangs₃ ⊢
  obtain ⟨m₃,pt⟩ := bottom
  dsimp only at value here₃ fewer₃ hangs₃
  subst value
  exact ⟨m₃,t₃,rfl,(hangs.trans hangs₂).trans hangs₃,here₃,by omega⟩

/- `vmm_map` hangs tables and writes one entry, or stops after hanging some. -/
theorem mapHangs (tree : PageTree m) (va pa flags : Word) :
    Hangs m (m.vmmMap va pa flags).1 ∧ (m.vmmMap va pa flags).2 = -1 ∨
      ∃ m₁ n, Hangs m m₁ ∧ m₁.layout.table m₁.words (pathOf va 3) = some n ∧
        m.vmmMap va pa flags = (m₁.putLeaf va n (leafEntry pa flags),0) := by
  have spec := descendHangs va tree
  rw [mapDescend]
  generalize m.descend va true = result at spec ⊢
  rcases result with ⟨m₁,none | pt⟩
  · exact .inl ⟨spec.1,rfl⟩
  · obtain ⟨hangs,missing | ⟨n,value,here⟩⟩ := spec
    · cases missing
    · cases value
      exact .inr ⟨m₁,n,hangs,here,rfl⟩

/- With room for the tables it succeeds. -/
theorem mapRoom (tree : PageTree m) (room : Room m va) (pa flags : Word) :
    ∃ m₁ n, Hangs m m₁ ∧ m₁.layout.table m₁.words (pathOf va 3) = some n ∧ m.pmm.freeSet.card ≤ m₁.pmm.freeSet.card + 3 ∧
      m.vmmMap va pa flags = (m₁.putLeaf va n (leafEntry pa flags),0) := by
  obtain ⟨m₁,n,descends,hangs,here,fewer⟩ := descendRoom tree room
  refine ⟨m₁,n,hangs,here,fewer,?_⟩
  rw [mapDescend,descends]
  rfl

/- What a call of `vmm_map` that succeeds takes from the allocator. -/
theorem mapCost (tree : PageTree m) (frontier : Frontier m va k n) (maps : (m.vmmMap va pa flags).2 = 0) :
    ∃ m₁ n₁, Digs m va 3 m₁ ∧ m₁.layout.table m₁.words (pathOf va 3) = some n₁ ∧
      m₁.pmm.freeSet.card + (3 - k) = m.pmm.freeSet.card ∧ (m.vmmMap va pa flags).1 = m₁.putLeaf va n₁ (leafEntry pa flags) := by
  have spec := descendDigs va tree
  rw [mapDescend] at maps ⊢
  generalize m.descend va true = result at spec maps ⊢
  rcases result with ⟨m₁,none | pt⟩
  · cases maps
  · obtain ⟨_,missing | ⟨n₁,value,digs,here⟩⟩ := spec
    · cases missing
    · cases value
      exact ⟨m₁,n₁,digs,here,((digs.cost tree frontier).2 frontier.level).1,rfl⟩

/- Room after a table has been hung was room before: a frame of it is on the way, or
none is needed for it. -/
theorem hangRoom (tree : PageTree m) (here : m.layout.table m.words p = some n) (short : p.length ≤ 2)
    (absent : m.words (m.layout.cell n i) &&& ptePresent = 0) (free : t ∈ m.pmm.freeSet) (room : Room (m.hang n i t) va) :
    Room m va := by
  have frames : (m.hang n i t).pmm.freeSet.card + 1 = m.pmm.freeSet.card := by
    have set : (m.hang n i t).pmm.freeSet = m.pmm.freeSet.erase t := Pmm.freeSetSet
    rw [set,Finset.card_erase_add_one free]
  -- the entry under which the table was hung, when it lies on the way
  have above : ∀ k, pathOf va (k + 1) = i :: p → k ≤ 2 ∧ Frontier m va k n := by
    intro k same
    rw [pathOf,List.cons_eq_cons] at same
    obtain ⟨index,path⟩ := same
    have size : k ≤ 2 := by
      rw [← path,pathLength] at short
      exact short
    exact ⟨size,by omega,by rw [path,here],by rw [index]; exact absent⟩
  rcases room with ⟨n',whole⟩ | ⟨k,n',frontier,enough⟩
  · rw [hangTable tree here short absent free] at whole
    split at whole
    · rename_i same
      obtain ⟨_,frontier⟩ := above 2 same
      exact .inr ⟨2,n,frontier,by omega⟩
    · exact .inl ⟨n',whole⟩
  · have there := frontier.here
    rw [hangTable tree here short absent free] at there
    split at there
    · rename_i same
      cases k with
      | zero => cases same
      | succ k =>
        obtain ⟨low,frontier⟩ := above k same
        exact .inr ⟨k,n,frontier,by omega⟩
    · have empty : m.words (m.layout.cell n' (slotOf va (4 - k))) &&& ptePresent = 0 := by
        by_cases own : pathOf va k = p ∧ slotOf va (4 - k) = i
        · obtain ⟨rfl,rfl⟩ := own
          cases here.symm.trans there
          exact absent
        · have word : (m.hang n i t).words ((m.hang n i t).layout.cell n' (slotOf va (4 - k))) =
              m.words (m.layout.cell n' (slotOf va (4 - k))) := by
            refine hangWord tree here short absent free there ?_
            by_contra both
            obtain ⟨path,index⟩ := not_or.mp both
            exact own ⟨not_not.mp path,not_not.mp index⟩
          rw [← word]
          exact frontier.absent
      exact .inr ⟨k,n',⟨frontier.level,there,empty⟩,by omega⟩

theorem Hangs.room (tree : PageTree m) (hangs : Hangs m m') (room : Room m' va) : Room m va := by
  induction hangs with
  | none => exact room
  | hang i earlier here short absent free ih => exact ih (hangRoom (earlier.grown tree).tree here short absent free room)

/- `vmm_map` succeeds exactly when there is room for its tables. -/
theorem mapSucceeds (tree : PageTree m) : (m.vmmMap va pa flags).2 = 0 ↔ Room m va := by
  constructor
  · intro maps
    rcases mapHangs tree va pa flags with ⟨_,fails⟩ | ⟨m₁,n,hangs,here,_⟩
    · rw [fails] at maps
      cases maps
    · exact hangs.room tree (.inl ⟨n,here⟩)
  · intro room
    obtain ⟨m₁,n,_,_,_,result⟩ := mapRoom tree room pa flags
    rw [result]

end

theorem bootFrontier {image : KernelImage} {tables : LoaderTables image} {info : BootInfo} {words : Words} {before : Nat → BitVec 8}
    {va : Word} {k : Nat} (low : k ≤ 1) (path : pathOf va k = List.replicate k 0)
    (absent : loaderEntry tables.pml4 (k * 512 + (slotOf va (4 - k)).val) &&& ptePresent = 0) :
    Frontier (bootMemory tables info words before) va k (tables.pml4 + k) := by
  refine ⟨by omega,by rw [path]; exact bootLink (by omega),?_⟩
  rw [bootCell _ (by omega),absent]

/- The small machine has frames for many tables. -/
theorem smallEnough : 961 ≤ (Pmm.pmmInit Pmm.smallImage Pmm.smallInfo fun _ => 0).freeSet.card := by
  have free : Finset.Ico 0x200 0x800 ⊆ (Pmm.pmmInit Pmm.smallImage Pmm.smallInfo fun _ => 0).freeSet := by
    intro f member
    obtain ⟨low,high⟩ := Finset.mem_Ico.mp member
    have top : ((archMemDetect Pmm.smallInfo maxRegions).2 >>> 12).toNat = 0x900 := by decide +kernel
    have region : (archMemDetect Pmm.smallInfo maxRegions).1 = [⟨0x100000,0x800000⟩] := by decide +kernel
    have reserved : (Pmm.reservedTop Pmm.smallImage (archMemDetect Pmm.smallInfo maxRegions).2).toNat ≤ 0x200000 := by decide +kernel
    rw [Pmm.initFree (by decide),Pmm.initTotal,top]
    refine ⟨by omega,⟨⟨0x100000,0x800000⟩,by rw [region]; exact List.mem_singleton_self _,?_⟩,by omega⟩
    have base : (0x100000 : Word).toNat = 0x100000 := by decide
    have len : (0x800000 : Word).toNat = 0x800000 := by decide
    simp only [Pmm.Holds,base,len]
    omega
  have size : (Finset.Ico 0x200 0x800).card = 1536 := by rw [Nat.card_Ico]
  have fits := Finset.card_le_card free
  omega

theorem smallRoom {words : Words} {va : Word} {k n : Nat}
    (frontier : Frontier (bootMemory smallTables Pmm.smallInfo words fun _ => 0) va k n) :
    Room (bootMemory smallTables Pmm.smallInfo words fun _ => 0) va := by
  have enough : 961 ≤ (bootMemory smallTables Pmm.smallInfo words fun _ => 0).pmm.freeSet.card := smallEnough
  exact .inr ⟨k,n,frontier,by omega⟩

end Mukern
