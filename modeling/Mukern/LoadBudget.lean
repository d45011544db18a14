import Mukern.ProgramImages

/-! How `rootfs_load_all` goes when frames run short: the loader as one list of steps, the
tables that each of its pages still needs, and when a page gets no frame of its own. -/
namespace Mukern
open RadixTree Layout

/- A step of the loader: one turn of `map_zeroed`, or the copy of an image. -/
inductive LoadAct where
  | page (va : Word)
  | copy (pr : Prog)

def LoadAct.run (m : Memory) : LoadAct → Option Memory
  | .page va => m.mapZeroedPage va
  | .copy pr => m.writeBytes pr.base pr.image

def runAddrs (va : Word) : (pages : Nat) → List Word
  | 0 => []
  | pages + 1 => va :: runAddrs (va + 4096) pages

def Prog.pages (pr : Prog) : List Word := runAddrs pr.base 16 ++ runAddrs (pr.stackTop - 0x4000) 4

def Prog.acts (pr : Prog) : List LoadAct := pr.pages.map .page ++ [.copy pr]

def loadActs (images : List (List (BitVec 8))) : List LoadAct := (progs images).flatMap Prog.acts

/- The pages of the steps, in their order. -/
def pagesOf : List LoadAct → List Word
  | [] => []
  | .page va :: rest => va :: pagesOf rest
  | .copy _ :: rest => pagesOf rest

/- The pages that are mapped before the loader faults on the copy of an image that does not
fit, whatever frames there are. -/
def pagesReached : List LoadAct → List Word
  | [] => []
  | .page va :: rest => va :: pagesReached rest
  | .copy pr :: rest => if pr.image.length ≤ 65536 then pagesReached rest else []

/- The numbers of the pages. -/
def numbers (done : List Word) : Set Nat := {q | ∃ va ∈ done, pageNumber va = q}

/- The tables that `vmm_map` has to make for `va` when the pages `done` are mapped. -/
def tablesMissing (done : List Word) (va : Word) : Nat :=
  if done.any fun va' => pathOf va' 3 = pathOf va 3 then 0
  else if done.any fun va' => pathOf va' 2 = pathOf va 2 then 1
  else if done.any fun va' => pathOf va' 1 = pathOf va 1 then 2
  else 3

def tableNeeds (done : List Word) : List Word → List Nat
  | [] => []
  | va :: rest => tablesMissing done va :: tableNeeds (va :: done) rest

/- With so many free frames the pages, each with its missing tables, all get frames of their
own until the loader is done or faults: no page is due whose tables are there, but no frame. -/
def Outlasts : List Nat → Nat → Bool
  | [], _ => true
  | need :: rest, frames => if frames ≤ need then 0 < frames || 0 < need else Outlasts rest (frames - (need + 1))

/- With so many free frames every page gets its tables. -/
def Completes : List Nat → Nat → Bool
  | [], _ => true
  | need :: rest, frames => need ≤ frames - 1 && Completes rest (frames - 1 - need)

/- The pages come in order: each is new, and an image is copied to pages that are mapped,
with nothing mapped behind them. -/
def Ordered : List Word → List LoadAct → Prop
  | _, [] => True
  | done, .page va :: rest => (PageRun va 1 ∧ pageNumber va ∉ numbers done) ∧ Ordered (va :: done) rest
  | done, .copy pr :: rest => (PageRun pr.base 128 ∧ (∀ q ∈ runPages pr.base 16, q ∈ numbers done) ∧
      pageNumber (pr.base + BitVec.ofNat 64 65536) ∉ numbers done) ∧ Ordered done rest

/- What a step makes of the bytes that the programs see. -/
def LoadAct.content : LoadAct → (Word → BitVec 8) → Word → BitVec 8
  | .page va, content => fun va' => if pageNumber va' = pageNumber va then 0 else content va'
  | .copy pr, content => overlay pr.base pr.image content

section
variable {frames : Finset Nat} {m m' : Memory} {va va' : Word} {done : List Word} {pr : Prog} {rest : List LoadAct}
  {content : Word → BitVec 8} {f n : Nat}

theorem zeroedActs {pages : Nat} : m.mapZeroed va pages = ((runAddrs va pages).map .page).foldlM LoadAct.run m := by
  induction pages generalizing m va with
  | zero => rfl
  | succ pages ih =>
    rw [Memory.mapZeroed,runAddrs,List.map_cons,List.foldlM_cons]
    congr 1
    funext m₁
    exact ih

theorem runsActs {base bottom : Word} {image stack : Nat} :
    ((runAddrs base image ++ runAddrs bottom stack).map LoadAct.page ++ [LoadAct.copy pr]).foldlM LoadAct.run m =
      (m.mapZeroed base image).bind fun m => (m.mapZeroed bottom stack).bind fun m => m.writeBytes pr.base pr.image := by
  rw [List.map_append,List.foldlM_append,List.foldlM_append,← zeroedActs,Option.bind_eq_bind,Option.bind_assoc]
  congr 1
  funext m₁
  rw [← zeroedActs]
  congr 1
  funext m₂
  exact bind_pure _

theorem progActs : m.loadOne pr = pr.acts.foldlM LoadAct.run m := by
  rw [Prog.acts,Prog.pages,runsActs,Memory.loadOne]
  rfl

theorem rootfsActs {images : List (List (BitVec 8))} : m.rootfsLoadAll images = (loadActs images).foldlM LoadAct.run m := by
  unfold Memory.rootfsLoadAll loadActs
  generalize progs images = prs
  induction prs generalizing m with
  | nil => rfl
  | cons pr prs ih =>
    rw [List.foldlM_cons,List.flatMap_cons,List.foldlM_append,progActs]
    congr 1
    funext m₁
    exact ih

theorem numbersCons : numbers (va :: done) = insert (pageNumber va) (numbers done) := by
  ext q
  simp only [numbers,Set.mem_ofPred_eq,List.exists_mem_cons_iff,Set.mem_insert_iff,eq_comm]

/- The tables that stand when the pages `done` are mapped: those of their walks. -/
structure Tabled (frames : Finset Nat) (m : Memory) (done : List Word) : Prop where
  loading : Loading frames m (numbers done)
  tables : ∀ va k u, k ≤ 3 → slotOf va 4 ≠ 0 → m.layout.table m.words (pathOf va k) = some u → k = 0 ∨ ∃ va' ∈ done, pathOf va' k = pathOf va k

/- Each of the pages has a frame of its own from the set. -/
structure Provided (frames : Finset Nat) (m : Memory) (done : List Word) (content : Word → BitVec 8) : Prop extends Tabled frames m done where
  filled : Filled m (numbers done) content
  own : ∀ va ∈ done, ∃ f ∈ frames, Backed m va f

theorem pathBefore {k j : Nat} (same : pathOf va' k = pathOf va k) (low : j ≤ k) : pathOf va' j = pathOf va j := by
  induction k with
  | zero =>
    obtain rfl : j = 0 := by omega
    exact same
  | succ k ih =>
    rcases Nat.lt_or_eq_of_le low with less | rfl
    · exact ih (List.cons.inj same).2 (by omega)
    · exact same

/- A mapped page has all its tables. -/
theorem dataDeep {k j : Nat} (data : DataPage m va') (frontier : Frontier m va k n) (same : pathOf va' j = pathOf va j) : j ≤ k := by
  by_contra deep
  have path : pathOf va' (k + 1) = pathOf va (k + 1) := pathBefore same (by omega)
  obtain ⟨slot,above⟩ := List.cons.inj path
  have level := frontier.level
  have mine : Frontier m va' k n := ⟨frontier.level,by rw [above,frontier.here],by rw [slot]; exact frontier.absent⟩
  obtain ⟨_,_,trace,_⟩ := data
  cases mine.trace.symm.trans trace

theorem Tabled.frontier (tabled : Tabled frames m done) (high : slotOf va 4 ≠ 0) (new : pageNumber va ∉ numbers done) :
    ∃ n, Frontier m va (3 - tablesMissing done va) n := by
  obtain ⟨k,n,frontier⟩ := tabled.loading.rest va high new
  have deep {j} (shared : ∃ va' ∈ done, pathOf va' j = pathOf va j) : j ≤ k := by
    obtain ⟨va',member,same⟩ := shared
    exact dataDeep (tabled.loading.data va' ⟨va',member,rfl⟩) frontier same
  have shallow := tabled.tables va k n frontier.level high frontier.here
  have level := frontier.level
  have depth : k = 3 - tablesMissing done va := by
    unfold tablesMissing
    simp only [List.any_eq_true,decide_eq_true_eq]
    split
    · have := deep (j := 3) ‹_›
      omega
    · rename_i third
      have less : k ≠ 3 := by
        rintro rfl
        exact third (shallow.resolve_left (by decide))
      split
      · have := deep (j := 2) ‹_›
        omega
      · rename_i second
        have less' : k ≠ 2 := by
          rintro rfl
          exact second (shallow.resolve_left (by decide))
        split
        · have := deep (j := 1) ‹_›
          omega
        · rename_i first
          have less'' : k ≠ 1 := by
            rintro rfl
            exact first (shallow.resolve_left (by decide))
          omega
  exact ⟨n,depth ▸ frontier⟩

theorem missingMost : tablesMissing done va ≤ 3 := by
  unfold tablesMissing
  split_ifs <;> decide

theorem takeCard (tree : PageTree m) : m.takeFrame.pmm.freeSet.card = m.pmm.freeSet.card - 1 := by
  by_cases empty : m.pmm.freeSet = ∅
  · have same : m.takeFrame.pmm = m.pmm := congrArg Prod.fst (takeNone empty)
    rw [same,empty]
    rfl
  · obtain ⟨f,free,_,_,_,set⟩ := takeFree tree empty
    rw [set,Finset.card_erase_of_mem free]

/- `vmm_map` succeeds when there are frames for the missing tables, next to the page's own. -/
theorem Tabled.maps (tabled : Tabled frames m done) (high : slotOf va 4 ≠ 0) (new : pageNumber va ∉ numbers done) :
    (m.takeFrame.vmmMap va m.pmm.allocFrame.2 vmUserRw).2 = 0 ↔ tablesMissing done va ≤ m.pmm.freeSet.card - 1 := by
  obtain ⟨n,frontier⟩ := tabled.frontier high new
  have taken : Frontier m.takeFrame va (3 - tablesMissing done va) n := ⟨frontier.level,frontier.here,frontier.absent⟩
  have most : tablesMissing done va ≤ 3 := missingMost
  rw [mapSucceeds (takeTree tabled.loading.tree),← takeCard tabled.loading.tree]
  constructor
  · rintro (⟨_,whole⟩ | ⟨k,_,frontier',enough⟩)
    · have := taken.last (Nat.le_refl 3) whole
      omega
    · have := taken.last frontier'.level frontier'.here
      omega
  · exact fun enough => .inr ⟨_,n,taken,by omega⟩

/- The tables of a page that has been mapped: those that were there, and those on its way. -/
theorem Tabled.grows (tabled : Tabled frames m done) (run : PageRun va 1) (new : pageNumber va ∉ numbers done)
    (loaded : m.mapZeroedPage va = some m') : m'.pmm.freeSet.card + tablesMissing done va = m.pmm.freeSet.card - 1 ∧
      ∀ q u, m'.layout.table m'.words q = some u → m.layout.table m.words q = some u ∨ ∃ k ≤ 3, q = pathOf va k := by
  have kept := pageKept tabled.loading (runHigh run) run.aligned new loaded
  obtain ⟨n,frontier⟩ := tabled.frontier (runHigh run) new
  have taken : Frontier m.takeFrame va (3 - tablesMissing done va) n := ⟨frontier.level,frontier.here,frontier.absent⟩
  have tree := takeTree tabled.loading.tree
  obtain ⟨m₁,n₁,digs,here,cost,result⟩ := mapCost tree taken (pageMaps tabled.loading (runHigh run) new loaded)
  rw [result] at kept
  have tree₁ := (digs.hangs.grown tree).tree
  have most : tablesMissing done va ≤ 3 := missingMost
  constructor
  · have left : m'.pmm = m₁.pmm := kept.pmm
    rw [left,← takeCard tabled.loading.tree]
    omega
  · intro q u there
    rw [kept.table,leafTable here tree₁] at there
    have fresh := digs.fresh tree there
    exact fresh

theorem Tabled.page (tabled : Tabled frames m done) (run : PageRun va 1) (new : pageNumber va ∉ numbers done)
    (loaded : m.mapZeroedPage va = some m') : Tabled frames m' (va :: done) := by
  refine ⟨numbersCons ▸ pageLoading tabled.loading (runHigh run) run.aligned new loaded,fun va' k u low high there => ?_⟩
  obtain old | ⟨j,_,same⟩ := (tabled.grows run new loaded).2 _ _ there
  · exact (tabled.tables va' k u low high old).imp_right fun ⟨va₁,member,same⟩ => ⟨va₁,List.mem_cons_of_mem _ member,same⟩
  · have level := congrArg List.length same
    rw [pathLength,pathLength] at level
    exact .inr ⟨va,List.mem_cons_self,level ▸ same.symm⟩

theorem Provided.page (provided : Provided frames m done content) (run : PageRun va 1) (new : pageNumber va ∉ numbers done)
    (free : m.pmm.freeSet ≠ ∅) (loaded : m.mapZeroedPage va = some m') :
    Provided frames m' (va :: done) fun va' => if pageNumber va' = pageNumber va then 0 else content va' := by
  have loading' := pageLoading provided.loading (runHigh run) run.aligned new loaded
  have kept := pageKept provided.loading (runHigh run) run.aligned new loaded
  have maps := pageMaps provided.loading (runHigh run) new loaded
  have tree := takeTree provided.loading.tree
  refine ⟨provided.toTabled.page run new loaded,numbersCons ▸ pageFilled provided.loading provided.filled run new free loaded,
    List.forall_mem_cons.mpr ⟨?_,fun va' member => ?_⟩⟩
  · obtain ⟨f₀,member₀,_,_,frame₀,_⟩ := takeFree provided.loading.tree free
    obtain ⟨f,backed⟩ := dataBacked (loading'.data va (Set.mem_insert _ _))
    have own := mapOwnFrame tree maps (kept.backed.mp backed)
    rw [frame₀] at own
    exact ⟨f,own ▸ provided.loading.fewer member₀,backed⟩
  · obtain ⟨f,inside,backed⟩ := provided.own va' member
    have other : pageNumber va' ≠ pageNumber va := fun same => new ⟨va',member,same⟩
    have stays := takeStays backed
    exact ⟨f,inside,kept.backed.mpr (mapStays tree other _ _ stays.backed).backed⟩

/- Without a free frame the page is mapped to frame 0. -/
theorem sharedFrame (loading : Loading frames m (numbers done)) (run : PageRun va 1) (new : pageNumber va ∉ numbers done)
    (empty : m.pmm.freeSet = ∅) (loaded : m.mapZeroedPage va = some m') : Backed m' va 0 := by
  have loading' := pageLoading loading (runHigh run) run.aligned new loaded
  have kept := pageKept loading (runHigh run) run.aligned new loaded
  obtain ⟨f,backed⟩ := dataBacked (loading'.data va (Set.mem_insert _ _))
  have own := mapOwnFrame (takeTree loading.tree) (pageMaps loading (runHigh run) new loaded) (kept.backed.mp backed)
  have zero : entryFrame m.pmm.allocFrame.2 = 0 := by
    rw [takeNone empty]
    exact (by decide : entryFrame 0 = 0)
  exact (own.trans zero) ▸ backed

theorem imageMapped {done : Set Nat} (run : PageRun pr.base 16) (mapped : ∀ q ∈ runPages pr.base 16, q ∈ done) (short : pr.image.length ≤ 65536) :
    ∀ j < pr.image.length, pageNumber (pr.base + BitVec.ofNat 64 j) ∈ done := by
  intro j low
  rw [(runPage run (j := j) (by omega)).1]
  exact mapped _ (Set.mem_Ico.mpr (by omega))

theorem Tabled.copy (tabled : Tabled frames m done) (run : PageRun pr.base 16) (mapped : ∀ q ∈ runPages pr.base 16, q ∈ numbers done)
    (short : pr.image.length ≤ 65536) : ∃ m', m.writeBytes pr.base pr.image = some m' ∧ TablesKept m m' ∧ Tabled frames m' done := by
  have below := run.below
  have data : ∀ j < pr.image.length, DataPage m (pr.base + BitVec.ofNat 64 j) := fun j low =>
    tabled.loading.data _ (imageMapped run mapped short j low)
  obtain ⟨m',written⟩ := writeSome data (by omega)
  have kept := writeKept data written
  exact ⟨m',written,kept,kept.loading tabled.loading,fun va k u low high there => tabled.tables va k u low high (kept.table.symm.trans there)⟩

theorem Provided.copy (provided : Provided frames m done content) (run : PageRun pr.base 16) (mapped : ∀ q ∈ runPages pr.base 16, q ∈ numbers done)
    (short : pr.image.length ≤ 65536) : ∃ m', m.writeBytes pr.base pr.image = some m' ∧ m'.pmm = m.pmm ∧
      Provided frames m' done (overlay pr.base pr.image content) := by
  have below := run.below
  obtain ⟨m',written,kept,tabled⟩ := provided.toTabled.copy run mapped short
  refine ⟨m',written,kept.pmm,tabled,
    writeFilled provided.filled provided.loading.data (imageMapped run mapped short) (by omega) written,fun va member => ?_⟩
  obtain ⟨f,from',backed⟩ := provided.own va member
  exact ⟨f,from',kept.backed.mpr backed⟩

theorem reversedPages {l : List LoadAct} : (pagesOf l).reverse ++ va :: done = (pagesOf (.page va :: l)).reverse ++ done := by
  rw [pagesOf,List.reverse_cons,List.append_assoc]
  rfl

/- As long as the frames last, every page that the loader goes on with is provided for. -/
theorem outlastsRuns {l : List LoadAct} (provided : Provided frames m done content) (ordered : Ordered done (l ++ rest))
    (enough : Outlasts (tableNeeds done (pagesReached (l ++ rest))) m.pmm.freeSet.card = true) (runs : l.foldlM LoadAct.run m = some m') :
    Provided frames m' ((pagesOf l).reverse ++ done) (l.foldl (fun content act => act.content content) content) := by
  induction l generalizing m done content with
  | nil =>
    cases runs
    exact provided
  | cons act l ih =>
    rw [List.foldlM_cons] at runs
    obtain ⟨m₁,first,later⟩ := Option.bind_eq_some_iff.mp runs
    cases act with
    | page va =>
      obtain ⟨⟨run,new⟩,ordered⟩ := ordered
      have first : m.mapZeroedPage va = some m₁ := first
      have maps := (provided.maps (runHigh run) new).mp (pageMaps provided.loading (runHigh run) new first)
      have cost := (provided.grows run new first).1
      have plenty : ¬ m.pmm.freeSet.card ≤ tablesMissing done va := by
        intro few
        have none : Outlasts (tablesMissing done va :: tableNeeds (va :: done) (pagesReached (l ++ rest))) m.pmm.freeSet.card = true := enough
        rw [Outlasts,if_pos few,Bool.or_eq_true,decide_eq_true_eq,decide_eq_true_eq] at none
        omega
      have free : m.pmm.freeSet ≠ ∅ := by
        intro empty
        rw [empty] at plenty
        exact plenty (Nat.zero_le _)
      have enough₁ : Outlasts (tablesMissing done va :: tableNeeds (va :: done) (pagesReached (l ++ rest))) m.pmm.freeSet.card = true := enough
      rw [Outlasts,if_neg plenty,show m.pmm.freeSet.card - (tablesMissing done va + 1) = m₁.pmm.freeSet.card by omega] at enough₁
      have provided₁ : Provided frames m₁ (va :: done) (LoadAct.content (.page va) content) := provided.page run new free first
      rw [← reversedPages,List.foldl_cons]
      exact ih provided₁ ordered enough₁ later
    | copy pr =>
      obtain ⟨⟨run,mapped,behind⟩,ordered⟩ := ordered
      have first : m.writeBytes pr.base pr.image = some m₁ := first
      have short := copyShort provided.loading (runPage run (j := 65536) (by decide)).2 behind first
      have image : PageRun pr.base 16 := ⟨run.aligned,run.above,by have := run.below; omega⟩
      obtain ⟨m₁',first',same,provided₁⟩ := provided.copy image mapped short
      obtain rfl := Option.some.inj (first.symm.trans first')
      have enough₁ : Outlasts (tableNeeds done (pagesReached (l ++ rest))) m₁.pmm.freeSet.card = true := by
        rw [same]
        rwa [List.cons_append,pagesReached,if_pos short] at enough
      exact ih provided₁ ordered enough₁ later

/- When they do not last, the loader goes on with a page in frame 0. -/
theorem runsShort {acts : List LoadAct} (provided : Provided frames m done content) (ordered : Ordered done acts)
    (few : Outlasts (tableNeeds done (pagesReached acts)) m.pmm.freeSet.card = false) :
    ∃ l va rest m', acts = l ++ .page va :: rest ∧ (l ++ [.page va]).foldlM LoadAct.run m = some m' ∧ Backed m' va 0 := by
  induction acts generalizing m done content with
  | nil => cases few
  | cons act acts ih =>
    cases act with
    | page va =>
      obtain ⟨⟨run,new⟩,ordered⟩ := ordered
      have maps := provided.maps (runHigh run) new
      have few₁ : Outlasts (tablesMissing done va :: tableNeeds (va :: done) (pagesReached acts)) m.pmm.freeSet.card = false := few
      rw [Outlasts] at few₁
      split at few₁
      · have none : m.pmm.freeSet.card = 0 ∧ tablesMissing done va = 0 := by simpa using few₁
        obtain ⟨m₁,first⟩ := mappedLoads provided.loading run new (maps.mpr (by omega))
        refine ⟨[],va,acts,m₁,rfl,?_,sharedFrame provided.loading run new (Finset.card_eq_zero.mp none.1) first⟩
        exact (List.foldlM_cons ..).trans (by rw [show LoadAct.run m (.page va) = some m₁ from first]; rfl)
      · obtain ⟨m₁,first⟩ := mappedLoads provided.loading run new (maps.mpr (by omega))
        have cost := (provided.grows run new first).1
        have free : m.pmm.freeSet ≠ ∅ := by
          rintro empty
          rw [empty] at few₁
          simp_all
        rw [show m.pmm.freeSet.card - (tablesMissing done va + 1) = m₁.pmm.freeSet.card by omega] at few₁
        obtain ⟨l,va',rest,m',split,runs,shared⟩ := ih (provided.page run new free first) ordered few₁
        refine ⟨.page va :: l,va',rest,m',by rw [split]; rfl,?_,shared⟩
        rw [List.cons_append,List.foldlM_cons,show LoadAct.run m (.page va) = some m₁ from first]
        exact runs
    | copy pr =>
      obtain ⟨⟨run,mapped,behind⟩,ordered⟩ := ordered
      rw [pagesReached] at few
      split at few
      · rename_i short
        have image : PageRun pr.base 16 := ⟨run.aligned,run.above,by have := run.below; omega⟩
        obtain ⟨m₁,first,same,provided₁⟩ := provided.copy image mapped short
        rw [← same] at few
        obtain ⟨l,va',rest,m',split,runs,shared⟩ := ih provided₁ ordered few
        refine ⟨.copy pr :: l,va',rest,m',by rw [split]; rfl,?_,shared⟩
        rw [List.cons_append,List.foldlM_cons,show LoadAct.run m (.copy pr) = some m₁ from first]
        exact runs
      · cases few

/- With the tables made, the loader runs to its end: a page that gets no frame does not stop it. -/
theorem completes {acts : List LoadAct} (tabled : Tabled frames m done) (ordered : Ordered done acts)
    (short : ∀ pr, .copy pr ∈ acts → pr.image.length ≤ 65536) (enough : Completes (tableNeeds done (pagesOf acts)) m.pmm.freeSet.card = true) :
    ∃ m', acts.foldlM LoadAct.run m = some m' ∧
      m.pmm.freeSet.card ≤ m'.pmm.freeSet.card + ((tableNeeds done (pagesOf acts)).map (· + 1)).sum := by
  induction acts generalizing m done with
  | nil => exact ⟨m,rfl,Nat.le_add_right _ _⟩
  | cons act acts ih =>
    have short' : ∀ pr, .copy pr ∈ acts → pr.image.length ≤ 65536 := fun pr member => short pr (List.mem_cons_of_mem _ member)
    rw [List.foldlM_cons]
    cases act with
    | page va =>
      obtain ⟨⟨run,new⟩,ordered⟩ := ordered
      rw [pagesOf,tableNeeds,Completes,Bool.and_eq_true,decide_eq_true_eq] at enough
      obtain ⟨fits,enough⟩ := enough
      obtain ⟨m₁,first⟩ := mappedLoads tabled.loading run new ((tabled.maps (runHigh run) new).mpr fits)
      have cost := (tabled.grows run new first).1
      have left : m.pmm.freeSet.card - 1 - tablesMissing done va = m₁.pmm.freeSet.card := by omega
      rw [left] at enough
      obtain ⟨m',rest,total⟩ := ih (tabled.page run new first) ordered short' enough
      refine ⟨m',?_,?_⟩
      · rw [show LoadAct.run m (.page va) = some m₁ from first]
        exact rest
      · rw [pagesOf,tableNeeds,List.map_cons,List.sum_cons]
        omega
    | copy pr =>
      obtain ⟨⟨run,mapped,_⟩,ordered⟩ := ordered
      have image : PageRun pr.base 16 := ⟨run.aligned,run.above,by have := run.below; omega⟩
      obtain ⟨m₁,first,kept,tabled₁⟩ := tabled.copy image mapped (short pr List.mem_cons_self)
      rw [pagesOf,← kept.pmm] at enough
      obtain ⟨m',rest,total⟩ := ih tabled₁ ordered short' enough
      rw [kept.pmm] at total
      refine ⟨m',?_,total⟩
      rw [show LoadAct.run m (.copy pr) = some m₁ from first]
      exact rest

theorem numbersRun {pages : Nat} (run : PageRun va pages) : numbers ((runAddrs va pages).reverse ++ done) = numbers done ∪ runPages va pages := by
  induction pages generalizing va done with
  | zero =>
    ext q
    have empty : ¬ (va.toNat / 4096 ≤ q ∧ q < va.toNat / 4096 + 0) := by omega
    simp only [runAddrs,List.reverse_nil,List.nil_append,runPages,Set.mem_union,Set.mem_Ico,empty,or_false]
  | succ pages ih =>
    obtain ⟨page,_⟩ := runPage run (j := 0) (by omega)
    rw [BitVec.add_zero,Nat.zero_div,Nat.add_zero] at page
    obtain ⟨sum,run'⟩ := runNext run
    rw [runAddrs,List.reverse_cons,List.append_assoc,List.singleton_append,ih run',numbersCons,page]
    ext q
    simp only [runPages,sum,Set.mem_union,Set.mem_insert_iff,Set.mem_Ico]
    constructor
    · rintro ((rfl | old) | later)
      · exact .inr ⟨Nat.le_refl _,by omega⟩
      · exact .inl old
      · exact .inr ⟨by omega,by omega⟩
    · rintro (old | inside)
      · exact .inl (.inr old)
      · rcases Nat.eq_or_lt_of_le inside.1 with first | later
        · exact .inl (.inl first.symm)
        · exact .inr ⟨by omega,by omega⟩

theorem orderedRun {pages : Nat} (run : PageRun va pages) (new : ∀ q ∈ runPages va pages, q ∉ numbers done)
    (ordered : Ordered ((runAddrs va pages).reverse ++ done) rest) : Ordered done ((runAddrs va pages).map .page ++ rest) := by
  induction pages generalizing va done with
  | zero => exact ordered
  | succ pages ih =>
    obtain ⟨page,_⟩ := runPage run (j := 0) (by omega)
    rw [BitVec.add_zero,Nat.zero_div,Nat.add_zero] at page
    obtain ⟨sum,run'⟩ := runNext run
    refine ⟨⟨runFirst run,?_⟩,ih run' (fun q member => ?_) ?_⟩
    · rw [page]
      exact new _ (Set.mem_Ico.mpr ⟨Nat.le_refl _,by omega⟩)
    · have later := Set.mem_Ico.mp member
      rw [sum] at later
      rw [numbersCons,Set.mem_insert_iff,page,not_or]
      exact ⟨by omega,new q (Set.mem_Ico.mpr (by omega))⟩
    · rw [runAddrs,List.reverse_cons,List.append_assoc] at ordered
      exact ordered

theorem numbersProg (placed : ProgPlaced pr) (new : ∀ q ∈ runPages pr.base 128, q ∉ numbers done) :
    numbers (pr.pages.reverse ++ done) = numbers done ∪ progPages pr := by
  obtain ⟨imageRun,stackRun,_,_⟩ := progRuns placed new
  rw [Prog.pages,List.reverse_append,List.append_assoc,numbersRun stackRun,numbersRun imageRun,Set.union_assoc]
  rfl

theorem orderedProg (placed : ProgPlaced pr) (new : ∀ q ∈ runPages pr.base 128, q ∉ numbers done)
    (ordered : Ordered (pr.pages.reverse ++ done) rest) : Ordered done (pr.acts ++ rest) := by
  obtain ⟨imageRun,stackRun,imageNew,stackNew⟩ := progRuns placed new
  have bottom := stackBottom placed
  have acts : pr.acts ++ rest = (runAddrs pr.base 16).map .page ++ ((runAddrs (pr.stackTop - 0x4000) 4).map .page ++ (.copy pr :: rest)) := by
    rw [Prog.acts,Prog.pages,List.map_append,List.append_assoc,List.append_assoc]
    rfl
  rw [acts]
  have done' : pr.pages.reverse ++ done = (runAddrs (pr.stackTop - 0x4000) 4).reverse ++ ((runAddrs pr.base 16).reverse ++ done) := by
    rw [Prog.pages,List.reverse_append,List.append_assoc]
  refine orderedRun imageRun imageNew (orderedRun stackRun (by rwa [numbersRun imageRun]) ?_)
  rw [← done']
  refine ⟨⟨placed.run,fun q member => ?_,?_⟩,ordered⟩
  · rw [numbersProg placed new]
    exact .inr (.inl member)
  · rw [numbersProg placed new,(runPage placed.run (j := 65536) (by decide)).1,Set.mem_union,progPages,Set.mem_union,not_or,not_or]
    refine ⟨new _ (Set.mem_Ico.mpr (by omega)),fun inside => ?_,fun inside => ?_⟩
    · have inside := Set.mem_Ico.mp inside
      omega
    · have inside := Set.mem_Ico.mp inside
      rw [bottom] at inside
      omega

theorem orderedProgs {images : List (List (BitVec 8))} {bases : List Word} (placed : ∀ base ∈ bases, PageRun base 128)
    (apart : bases.Pairwise fun a b => a.toNat + 0x80000 ≤ b.toNat) (below : ∀ q ∈ numbers done, ∀ base ∈ bases, q < base.toNat / 4096) :
    Ordered done ((List.zipWith (fun image base => (⟨image,base,base + 0x80000⟩ : Prog)) images bases).flatMap Prog.acts) := by
  induction bases generalizing images done with
  | nil =>
    rw [List.zipWith_nil_right]
    trivial
  | cons base bases ih =>
    cases images with
    | nil => trivial
    | cons image images =>
      obtain ⟨lowest,apart⟩ := List.pairwise_cons.mp apart
      have mine : ProgPlaced ⟨image,base,base + 0x80000⟩ := ⟨placed base List.mem_cons_self,rfl⟩
      rw [List.zipWith_cons_cons,List.flatMap_cons]
      refine orderedProg mine (progAhead below) (ih (fun b member => placed b (List.mem_cons_of_mem _ member)) apart ?_)
      rw [numbersProg mine (progAhead below)]
      exact progBelow mine lowest below

end

/- The pages of the program at `base`. -/
def pagesAt (base : Word) : List Word := Prog.pages ⟨[],base,base + 0x80000⟩

/- The tables that each program needs, besides those of the programs before it. -/
def programTables : List Nat := [3,0,1,0,1,1,0,1,0,1,1,0]

/- The programs that are mapped until the copy of one does not fit. -/
def programsReached (images : List (List (BitVec 8))) : Nat := (images.takeWhile fun image => image.length ≤ 65536).length + 1

/- The frames for all their pages and tables. -/
def framesReached (images : List (List (BitVec 8))) : Nat := ((programTables.take (programsReached images)).map (· + 20)).sum

/- Enough frames for every page that is reached, or the last one goes just before the first
page of a program whose table is still to be made. -/
def Enough (images : List (List (BitVec 8))) (frames : Nat) : Prop :=
  framesReached images ≤ frames ∨ frames ∈ [0,1,2,3,43,44,84,85,105,106,146,147,187,188,208,209]

/- With so many free frames no page of the programs is due whose table is there, but no frame. -/
def programsFit : List Nat → Nat → Bool
  | [], _ => true
  | tables :: rest, frames => if frames < tables + 20 then frames ≤ tables && 0 < tables else programsFit rest (frames - (tables + 20))

section
variable {images : List (List (BitVec 8))} {bases done l : List Word} {acts : List LoadAct} {tables needs : List Nat} {f n k : Nat}

theorem reachedPages : pagesReached (l.map .page ++ acts) = l ++ pagesReached acts := by
  induction l with
  | nil => rfl
  | cons va l ih => exact congrArg _ ih

theorem reachedProgs : pagesReached ((List.zipWith (fun image base => (⟨image,base,base + 0x80000⟩ : Prog)) images bases).flatMap Prog.acts) =
    (bases.take (min (programsReached images) images.length)).flatMap pagesAt := by
  induction bases generalizing images with
  | nil =>
    rw [List.zipWith_nil_right,List.take_nil]
    rfl
  | cons base bases ih =>
    cases images with
    | nil => rfl
    | cons image images =>
      rw [List.zipWith_cons_cons,List.flatMap_cons,Prog.acts,List.append_assoc,reachedPages,programsReached,List.length_cons,
        Nat.succ_min_succ,List.take_succ_cons,List.flatMap_cons]
      congr 1
      rw [List.singleton_append,pagesReached,List.takeWhile_cons]
      split
      · rename_i short
        simp only [short,decide_true,if_true]
        exact ih
      · rename_i long
        simp only [long,decide_false,Bool.false_eq_true,if_false,List.length_nil,Nat.zero_min,List.take_zero]
        rfl

theorem reachedAll (short : ∀ pr, .copy pr ∈ acts → pr.image.length ≤ 65536) : pagesReached acts = pagesOf acts := by
  induction acts with
  | nil => rfl
  | cons act acts ih =>
    have rest := ih fun pr member => short pr (List.mem_cons_of_mem _ member)
    cases act with
    | page va => exact congrArg _ rest
    | copy pr => rw [pagesReached,if_pos (short pr List.mem_cons_self),rest,pagesOf]

theorem needsTake : tableNeeds done (l.take k) = (tableNeeds done l).take k := by
  induction l generalizing done k with
  | nil => simp [tableNeeds]
  | cons va l ih =>
    cases k with
    | zero => rfl
    | succ k => exact congrArg _ ih

/- Only the level-1 tables of the pages matter. -/
theorem missingSame {done' : List Word} {va : Word} (same : ∀ p, (∃ va ∈ done, pathOf va 3 = p) ↔ ∃ va ∈ done', pathOf va 3 = p) :
    tablesMissing done va = tablesMissing done' va := by
  have level {j : Nat} (low : j ≤ 3) : (∃ va' ∈ done, pathOf va' j = pathOf va j) ↔ ∃ va' ∈ done', pathOf va' j = pathOf va j := by
    constructor
    · rintro ⟨va',member,here⟩
      obtain ⟨va₁,member₁,path⟩ := (same (pathOf va' 3)).mp ⟨va',member,rfl⟩
      exact ⟨va₁,member₁,(pathBefore path low).trans here⟩
    · rintro ⟨va',member,here⟩
      obtain ⟨va₁,member₁,path⟩ := (same (pathOf va' 3)).mpr ⟨va',member,rfl⟩
      exact ⟨va₁,member₁,(pathBefore path low).trans here⟩
  unfold tablesMissing
  simp only [List.any_eq_true,decide_eq_true_eq,level (by decide : 3 ≤ 3),level (by decide : 2 ≤ 3),level (by decide : 1 ≤ 3)]

theorem needsSame {done' : List Word} (same : ∀ p, (∃ va ∈ done, pathOf va 3 = p) ↔ ∃ va ∈ done', pathOf va 3 = p) :
    tableNeeds done l = tableNeeds done' l := by
  induction l generalizing done done' with
  | nil => rfl
  | cons va l ih =>
    rw [tableNeeds,tableNeeds,missingSame same]
    congr 1
    refine ih fun p => ?_
    rw [List.exists_mem_cons_iff,List.exists_mem_cons_iff,same p]

/- The other pages of a program need no table of their own. -/
theorem needsBehind {base : Word} (near : ∀ va ∈ l, pathOf va 3 = pathOf base 3) :
    tableNeeds (base :: done) (l ++ bases) = List.replicate l.length 0 ++ tableNeeds (base :: done) bases := by
  induction l with
  | nil => rfl
  | cons va l ih =>
    obtain ⟨first,near⟩ := List.forall_mem_cons.mp near
    have none : tablesMissing (base :: done) va = 0 := if_pos (by simp [first])
    have again : tableNeeds (va :: base :: done) (l ++ bases) = tableNeeds (base :: done) (l ++ bases) := by
      refine needsSame fun p => ?_
      rw [List.exists_mem_cons_iff,List.exists_mem_cons_iff,first,← or_assoc,or_self]
    rw [List.cons_append,tableNeeds,none,again,ih near]
    rfl

theorem needsPrograms (near : ∀ base ∈ bases, ∀ va ∈ pagesAt base, pathOf va 3 = pathOf base 3) :
    tableNeeds done (bases.flatMap pagesAt) = (tableNeeds done bases).flatMap fun tables => tables :: List.replicate 19 0 := by
  induction bases generalizing done with
  | nil => rfl
  | cons base bases ih =>
    obtain ⟨mine,near⟩ := List.forall_mem_cons.mp near
    have pages : pagesAt base = base :: (pagesAt base).tail := rfl
    have behind : tableNeeds (base :: done) ((pagesAt base).tail ++ bases.flatMap pagesAt) = _ :=
      needsBehind fun va member => mine va (List.mem_of_mem_tail member)
    have size : (pagesAt base).tail.length = 19 := rfl
    rw [List.flatMap_cons,pages,List.cons_append,tableNeeds,behind,size,ih near]
    rfl

theorem programNeeds : tableNeeds [] ((progBases.take n).flatMap pagesAt) = (programTables.take n).flatMap fun tables => tables :: List.replicate 19 0 := by
  have near : progBases.all fun base => (pagesAt base).all fun va => pathOf va 3 = pathOf base 3 := by decide +kernel
  have tables : tableNeeds [] progBases = programTables := by decide +kernel
  rw [needsPrograms,needsTake,tables]
  intro base member va inside
  have each := List.all_eq_true.mp near base (List.mem_of_mem_take member)
  exact of_decide_eq_true (List.all_eq_true.mp each va inside)

theorem replicateOutlasts : Outlasts (List.replicate k 0 ++ needs) n = if n < k then false else Outlasts needs (n - k) := by
  induction k generalizing n with
  | zero => rfl
  | succ k ih =>
    rw [List.replicate_succ,List.cons_append,Outlasts,ih]
    by_cases none : n ≤ 0
    · rw [if_pos none,if_pos (by omega)]
      simp [Nat.le_zero.mp none]
    · rw [if_neg none,show n - (0 + 1) - k = n - (k + 1) by omega]
      exact if_congr (by omega) rfl rfl

theorem programsOutlast : Outlasts (tables.flatMap fun tables => tables :: List.replicate 19 0) n = programsFit tables n := by
  induction tables generalizing n with
  | nil => rfl
  | cons t tables ih =>
    rw [List.flatMap_cons,List.cons_append,Outlasts,replicateOutlasts,ih,programsFit]
    by_cases few : n ≤ t
    · rw [if_pos few,if_pos (by omega)]
      by_cases none : 0 < t
      · simp [few,none]
      · simp [none,show n = 0 by omega]
    · rw [if_neg few,show n - (t + 1) - 19 = n - (t + 20) by omega]
      by_cases less : n < t + 20
      · rw [if_pos (by omega),if_pos less]
        simp [few]
      · rw [if_neg (by omega),if_neg less]

theorem plentyFits (enough : (tables.map (· + 20)).sum ≤ n) : programsFit tables n = true := by
  induction tables generalizing n with
  | nil => rfl
  | cons t tables ih =>
    rw [List.map_cons,List.sum_cons] at enough
    rw [programsFit,if_neg (by omega)]
    exact ih (by omega)

theorem plentyCompletes (enough : (needs.map (· + 1)).sum ≤ n) : Completes needs n = true := by
  induction needs generalizing n with
  | nil => rfl
  | cons need needs ih =>
    rw [List.map_cons,List.sum_cons] at enough
    rw [Completes,Bool.and_eq_true,decide_eq_true_eq]
    exact ⟨by omega,ih (by omega)⟩

theorem blocksSum : ((tables.flatMap fun tables => tables :: List.replicate 19 0).map (· + 1)).sum = (tables.map (· + 20)).sum := by
  induction tables with
  | nil => rfl
  | cons t tables ih =>
    rw [List.flatMap_cons,List.map_append,List.sum_append,ih,List.map_cons,List.map_cons,List.map_replicate,List.sum_cons,List.sum_cons]
    exact congrArg (· + _) (Nat.add_assoc t 1 19)

/- Below the sum there are few numbers that fit. -/
theorem fewFit : ∀ n < 14, ∀ f < 249, programsFit (programTables.take n) f =
    (decide (((programTables.take n).map (· + 20)).sum ≤ f) || decide (f ∈ [0,1,2,3,43,44,84,85,105,106,146,147,187,188,208,209])) := by
  decide +kernel

theorem reachedMost (count : images.length = 12) : programsReached images < 14 := by
  have most := (List.takeWhile_sublist (l := images) fun image => decide (image.length ≤ 65536)).length_le
  rw [programsReached]
  omega

theorem framesMost (n : Nat) : ((programTables.take n).map (· + 20)).sum ≤ 249 := by
  have each : ∀ n < 13, ((programTables.take n).map (· + 20)).sum ≤ 249 := by decide +kernel
  by_cases few : n < 13
  · exact each n few
  · rw [List.take_of_length_le (Nat.le_of_lt (Nat.not_lt.mp few))]
    exact each 12 (by decide)

theorem reachedNeeds : tableNeeds [] (pagesReached (loadActs images)) =
    (programTables.take (min (programsReached images) images.length)).flatMap fun tables => tables :: List.replicate 19 0 := by
  rw [loadActs,progs,reachedProgs,programNeeds]

theorem enoughIff (count : images.length = 12) : Outlasts (tableNeeds [] (pagesReached (loadActs images))) f = true ↔ Enough images f := by
  have whole : programTables.take (min (programsReached images) 12) = programTables.take (programsReached images) := List.take_take.symm
  rw [reachedNeeds,count,whole,programsOutlast,Enough,framesReached]
  by_cases small : f < 249
  · rw [fewFit _ (reachedMost count) f small,Bool.or_eq_true,decide_eq_true_eq,decide_eq_true_eq]
  · have most := framesMost (programsReached images)
    exact ⟨fun _ => .inl (by omega),fun _ => plentyFits (by omega)⟩

end

/- The pages of the list have frames of their own, which the allocator has handed out. -/
structure Genuine (frames : Finset Nat) (m : Memory) (pages : List Word) : Prop where
  own : ∀ va ∈ pages, ∃ f ∈ frames, f ≠ 0 ∧ Backed m va f
  apart : ∀ va ∈ pages, ∀ va' ∈ pages, ∀ f, Backed m va f → Backed m va' f → pageNumber va' = pageNumber va

/- After each step that the loader goes on from, every page that it has mapped so far has a
frame of its own; when it returns, all pages have, and each holds its part of the image or zeros. -/
structure LoaderHonest (m₀ : Memory) (images : List (List (BitVec 8))) : Prop where
  goesOn : ∀ l rest m, loadActs images = l ++ rest → l.foldlM LoadAct.run m₀ = some m → Genuine m₀.pmm.freeSet m (pagesOf l)
  returns : ∀ m, m₀.rootfsLoadAll images = some m → Genuine m₀.pmm.freeSet m ((progs images).flatMap Prog.pages) ∧
    ∀ pr ∈ progs images, ∀ va, va.toNat < 2 ^ 47 → pageNumber va ∈ progPages pr → m.load va = some (pr.initial va)

/- The step leaves the byte at `va` as it is. -/
def LoadAct.Spares : LoadAct → Word → Prop
  | .page va, va' => pageNumber va' ≠ pageNumber va
  | .copy pr, va' => va'.toNat < pr.base.toNat ∨ pr.base.toNat + pr.image.length ≤ va'.toNat

section
variable {image : KernelImage} {tables : LoaderTables image} {info : BootInfo} {words : Words} {before : Nat → BitVec 8} {m : Memory}
  {images : List (List (BitVec 8))} {va va' : Word} {pr : Prog} {content : Word → BitVec 8} {l : List Word} {acts : List LoadAct}

theorem sparedContent (spares : ∀ act ∈ acts, act.Spares va) : acts.foldl (fun content act => act.content content) content va = content va := by
  induction acts generalizing content with
  | nil => rfl
  | cons act acts ih =>
    obtain ⟨first,spares⟩ := List.forall_mem_cons.mp spares
    rw [List.foldl_cons,ih spares]
    cases act with
    | page va' => exact if_neg first
    | copy pr =>
      rw [LoadAct.content,overlay]
      split
      · rename_i above
        have missed : pr.image.length ≤ va.toNat - pr.base.toNat := by
          rcases first with low | high
          · omega
          · omega
        rw [List.getElem?_eq_none missed,Option.getD_none]
      · rfl

theorem zeroedContent (mapped : ∃ va' ∈ l, pageNumber va' = pageNumber va) :
    (l.map LoadAct.page).foldl (fun content act => act.content content) content va = 0 := by
  induction l generalizing content with
  | nil =>
    obtain ⟨_,member,_⟩ := mapped
    cases member
  | cons first l ih =>
    rw [List.map_cons,List.foldl_cons]
    by_cases later : ∃ va' ∈ l, pageNumber va' = pageNumber va
    · exact ih later
    · have same : pageNumber va = pageNumber first := by
        obtain ⟨va',member,same⟩ := mapped
        rcases List.mem_cons.mp member with rfl | member
        · exact same.symm
        · exact absurd ⟨va',member,same⟩ later
      rw [sparedContent]
      · exact if_pos same
      · intro act member
        obtain ⟨va',inside,rfl⟩ := List.mem_map.mp member
        exact fun here => later ⟨va',inside,here.symm⟩

theorem progPagesNumbers (placed : ProgPlaced pr) : numbers pr.pages.reverse = progPages pr := by
  have new : ∀ q ∈ runPages pr.base 128, q ∉ numbers [] := by
    rintro q _ ⟨_,member,_⟩
    cases member
  have own := numbersProg placed new
  rw [List.append_nil] at own
  rw [own]
  ext q
  refine or_iff_right ?_
  rintro ⟨_,member,_⟩
  cases member

/- What the steps of a program leave at its own pages. -/
theorem progContent (placed : ProgPlaced pr) (mapped : pageNumber va ∈ progPages pr) :
    pr.acts.foldl (fun content act => act.content content) content va = pr.initial va := by
  rw [← progPagesNumbers placed] at mapped
  obtain ⟨va',member,same⟩ := mapped
  have zero : (pr.pages.map LoadAct.page).foldl (fun content act => act.content content) content va = 0 :=
    zeroedContent ⟨va',List.mem_reverse.mp member,same⟩
  rw [Prog.acts,List.foldl_append]
  show overlay pr.base pr.image _ va = overlay pr.base pr.image _ va
  rw [overlay,overlay,zero]

/- Programs that lie above spare it. -/
theorem progSpares (placed : ProgPlaced pr) (low : va.toNat < 2 ^ 47) (above : pageNumber va < pr.base.toNat / 4096) : ∀ act ∈ pr.acts, act.Spares va := by
  have bottom := stackBottom placed
  intro act member
  rcases List.mem_append.mp member with page | copy
  · obtain ⟨va',inside,rfl⟩ := List.mem_map.mp page
    have there : pageNumber va' ∈ progPages pr := by
      rw [← progPagesNumbers placed]
      exact ⟨va',List.mem_reverse.mpr inside,rfl⟩
    intro same
    rw [same] at above
    rcases there with inside | inside
    · have := (Set.mem_Ico.mp inside).1
      omega
    · have := (Set.mem_Ico.mp inside).1
      omega
  · rw [List.mem_singleton.mp copy]
    rw [pageNumber] at above
    exact .inl (by omega)

theorem progsPlaced {bases : List Word} (placed : ∀ base ∈ bases, PageRun base 128) :
    ∀ pr ∈ List.zipWith (fun image base => (⟨image,base,base + 0x80000⟩ : Prog)) images bases,
      ProgPlaced pr ∧ pr.base ∈ bases ∧ pr.image ∈ images := by
  induction bases generalizing images with
  | nil =>
    rw [List.zipWith_nil_right]
    exact fun pr member => nomatch member
  | cons base bases ih =>
    cases images with
    | nil => exact fun pr member => nomatch member
    | cons image images =>
      obtain ⟨mine,placed⟩ := List.forall_mem_cons.mp placed
      refine List.forall_mem_cons.mpr ⟨⟨⟨mine,rfl⟩,List.mem_cons_self,List.mem_cons_self⟩,fun pr member => ?_⟩
      obtain ⟨its,base',image'⟩ := ih placed pr member
      exact ⟨its,List.mem_cons_of_mem _ base',List.mem_cons_of_mem _ image'⟩

theorem progsContent {bases : List Word} (placed : ∀ base ∈ bases, PageRun base 128)
    (apart : bases.Pairwise fun a b => a.toNat + 0x80000 ≤ b.toNat) (low : va.toNat < 2 ^ 47)
    (member : pr ∈ List.zipWith (fun image base => (⟨image,base,base + 0x80000⟩ : Prog)) images bases) (mapped : pageNumber va ∈ progPages pr) :
    ((List.zipWith (fun image base => (⟨image,base,base + 0x80000⟩ : Prog)) images bases).flatMap Prog.acts).foldl
      (fun content act => act.content content) content va = pr.initial va := by
  induction bases generalizing images content with
  | nil =>
    rw [List.zipWith_nil_right] at member
    cases member
  | cons base bases ih =>
    cases images with
    | nil => cases member
    | cons image images =>
      obtain ⟨lowest,apart⟩ := List.pairwise_cons.mp apart
      obtain ⟨mine,placed⟩ := List.forall_mem_cons.mp placed
      rw [List.zipWith_cons_cons,List.flatMap_cons,List.foldl_append]
      rcases List.mem_cons.mp member with rfl | member
      · have own : ProgPlaced ⟨image,base,base + 0x80000⟩ := ⟨mine,rfl⟩
        rw [sparedContent,progContent own mapped]
        intro act inside
        obtain ⟨pr',there,inside⟩ := List.mem_flatMap.mp inside
        obtain ⟨its,listed,_⟩ := progsPlaced placed pr' there
        refine progSpares its low ?_ act inside
        have nothing : ∀ q ∈ (∅ : Set Nat), ∀ b ∈ base :: bases, q < b.toNat / 4096 := fun q none => absurd none (Set.notMem_empty q)
        exact progBelow own lowest nothing _ (.inr mapped) _ listed
      · exact ih placed apart member

theorem Provided.genuine {frames : Finset Nat} {done : List Word} (provided : Provided frames m done content) (nonzero : 0 ∉ frames)
    (within : ∀ va ∈ l, va ∈ done) : Genuine frames m l := by
  refine ⟨fun va member => ?_,fun va member va' member' f backed backed' => ?_⟩
  · obtain ⟨f,inside,backed⟩ := provided.own va (within va member)
    exact ⟨f,inside,fun zero => nonzero (zero ▸ inside),backed⟩
  · exact provided.filled.apart va va' f ⟨va,within va member,rfl⟩ ⟨va',within va' member',rfl⟩ backed backed'

theorem pagesAppend {acts' : List LoadAct} : pagesOf (acts ++ acts') = pagesOf acts ++ pagesOf acts' := by
  induction acts with
  | nil => rfl
  | cons act acts ih =>
    cases act with
    | page va => exact congrArg _ ih
    | copy pr => exact ih

theorem pagesMapped : pagesOf (l.map .page) = l := by
  induction l with
  | nil => rfl
  | cons va l ih => exact congrArg _ ih

theorem pagesActs : pagesOf (loadActs images) = (progs images).flatMap Prog.pages := by
  unfold loadActs
  generalize progs images = prs
  induction prs with
  | nil => rfl
  | cons pr prs ih =>
    rw [List.flatMap_cons,List.flatMap_cons,pagesAppend,ih,Prog.acts,pagesAppend,pagesMapped,pagesOf,pagesOf,List.append_nil]

theorem bootProvided (bounded : Pmm.Bounded info) (placed : 0 < tables.pml4) :
    Provided (Pmm.pmmInit image info before).freeSet (bootMemory tables info words before) [] fun _ => 0 := by
  have none : numbers [] = ∅ := by
    ext q
    refine iff_of_false ?_ (Set.notMem_empty q)
    rintro ⟨_,member,_⟩
    cases member
  refine ⟨⟨none ▸ bootLoading bounded placed,fun va k u low high there => ?_⟩,?_,fun va member => nomatch member⟩
  · refine Nat.eq_zero_or_pos k |>.imp_right fun deep => ?_
    obtain ⟨_,first⟩ := tableAbove there deep
    obtain ⟨_,path,_⟩ := bootTables first
    exact absurd (List.cons.inj path).1 high
  · rw [none]
    exact ⟨fun va _ _ member => absurd member (Set.notMem_empty _),fun va _ member => absurd member (Set.notMem_empty _)⟩

theorem bootOrdered : Ordered [] (loadActs images) :=
  orderedProgs basesPlaced.1 basesPlaced.2 (by rintro q ⟨_,member,_⟩; cases member)

/- Where the frames last to the end, all pages are provided for. -/
theorem rootfsProvided (bounded : Pmm.Bounded info) (placed : 0 < tables.pml4)
    (enough : Outlasts (tableNeeds [] (pagesReached (loadActs images))) (Pmm.pmmInit image info before).freeSet.card = true)
    (loaded : (bootMemory tables info words before).rootfsLoadAll images = some m) :
    Provided (Pmm.pmmInit image info before).freeSet m (pagesOf (loadActs images)).reverse
      ((loadActs images).foldl (fun content act => act.content content) fun _ => 0) := by
  have ordered : Ordered [] (loadActs images ++ []) := by
    rw [List.append_nil]
    exact bootOrdered
  rw [← List.append_nil (loadActs images)] at enough
  have whole := outlastsRuns (bootProvided bounded placed) ordered enough (rootfsActs.symm.trans loaded)
  rwa [List.append_nil] at whole

/- Each page of a program holds its part of the image, or zeros. -/
theorem Provided.bytes {frames : Finset Nat}
    (provided : Provided frames m (pagesOf (loadActs images)).reverse ((loadActs images).foldl (fun content act => act.content content) fun _ => 0)) :
    ∀ pr ∈ progs images, ∀ va, va.toNat < 2 ^ 47 → pageNumber va ∈ progPages pr → DataPage m va ∧ m.load va = some (pr.initial va) := by
  intro pr member va low mapped
  have content : (loadActs images).foldl (fun content act => act.content content) (fun _ => 0) va = pr.initial va :=
    progsContent basesPlaced.1 basesPlaced.2 low member mapped
  rw [← progPagesNumbers (progsPlaced basesPlaced.1 pr member).1] at mapped
  obtain ⟨va',inside,same⟩ := mapped
  have reached : va' ∈ pagesOf (loadActs images) := pagesActs ▸ List.mem_flatMap.mpr ⟨pr,member,List.mem_reverse.mp inside⟩
  have there : pageNumber va ∈ numbers (pagesOf (loadActs images)).reverse := ⟨va',List.mem_reverse.mpr reached,same⟩
  rw [← content]
  exact ⟨provided.loading.data va there,provided.filled.holds va low there⟩

theorem plentyOutlasts {f : Nat} (enough : 249 ≤ f) : Outlasts (tableNeeds [] (pagesReached (loadActs images))) f = true := by
  have most := framesMost (min (programsReached images) images.length)
  rw [reachedNeeds,programsOutlast]
  exact plentyFits (by omega)

theorem loadShort (short : ∀ image ∈ images, image.length ≤ 65536) : ∀ pr, .copy pr ∈ loadActs images → pr.image.length ≤ 65536 := by
  intro pr member
  obtain ⟨pr',listed,inside⟩ := List.mem_flatMap.mp member
  rcases List.mem_append.mp inside with page | copy
  · obtain ⟨_,_,same⟩ := List.mem_map.mp page
    cases same
  · cases List.mem_singleton.mp copy
    exact short _ (progsPlaced basesPlaced.1 pr listed).2.2

/- Where every page gets its tables, the loader returns. -/
theorem rootfsCompletes (bounded : Pmm.Bounded info) (placed : 0 < tables.pml4) (short : ∀ image ∈ images, image.length ≤ 65536)
    (enough : Completes (tableNeeds [] (pagesReached (loadActs images))) (Pmm.pmmInit image info before).freeSet.card = true) :
    ∃ m, (bootMemory tables info words before).rootfsLoadAll images = some m ∧ (Pmm.pmmInit image info before).freeSet.card ≤ m.pmm.freeSet.card + 249 := by
  have provided : Provided (Pmm.pmmInit image info before).freeSet (bootMemory tables info words before) [] fun _ => 0 := bootProvided bounded placed
  have all : pagesReached (loadActs images) = pagesOf (loadActs images) := reachedAll (loadShort short)
  obtain ⟨m,runs,cost⟩ := completes provided.toTabled bootOrdered (loadShort short) (all ▸ enough)
  have most := framesMost (min (programsReached images) images.length)
  rw [← all,reachedNeeds,blocksSum] at cost
  exact ⟨m,rootfsActs.trans runs,cost.trans (Nat.add_le_add_left most _)⟩

/- The loader needs 249 frames at most. -/
theorem rootfsLoads (bounded : Pmm.Bounded info) (placed : 0 < tables.pml4) (short : ∀ image ∈ images, image.length ≤ 65536)
    (enough : 249 ≤ (Pmm.pmmInit image info before).freeSet.card) :
    ∃ m, (bootMemory tables info words before).rootfsLoadAll images = some m ∧
      (Pmm.pmmInit image info before).freeSet.card ≤ m.pmm.freeSet.card + 249 := by
  have most := framesMost (min (programsReached images) images.length)
  refine rootfsCompletes bounded placed short (plentyCompletes ?_)
  rw [reachedNeeds,blocksSum]
  omega

/- With frames for all pages, every program finds its image and a zeroed stack. -/
theorem rootfsFilled (bounded : Pmm.Bounded info) (placed : 0 < tables.pml4) (enough : 249 ≤ (Pmm.pmmInit image info before).freeSet.card)
    (loaded : (bootMemory tables info words before).rootfsLoadAll images = some m) :
    ∀ pr ∈ progs images, ∀ va, va.toNat < 2 ^ 47 → pageNumber va ∈ progPages pr → DataPage m va ∧ m.load va = some (pr.initial va) :=
  (rootfsProvided bounded placed (plentyOutlasts enough) loaded).bytes

/- The loader fakes no memory exactly when the frames that are free at its start are enough
for it, or run out just before a page whose table is still to be made. -/
theorem loaderHonestIff (bounded : Pmm.Bounded info) (placed : 0 < tables.pml4) (count : images.length = 12) :
    LoaderHonest (bootMemory tables info words before) images ↔ Enough images (Pmm.pmmInit image info before).freeSet.card := by
  have provided : Provided (Pmm.pmmInit image info before).freeSet (bootMemory tables info words before) [] fun _ => 0 := bootProvided bounded placed
  have ordered : Ordered [] (loadActs images) := bootOrdered
  rw [← enoughIff count]
  constructor
  · intro honest
    cases enough : Outlasts (tableNeeds [] (pagesReached (loadActs images))) (Pmm.pmmInit image info before).freeSet.card with
    | true => rfl
    | false =>
      obtain ⟨l,va,rest,m,split,runs,shared⟩ := runsShort provided ordered enough
      have genuine := honest.goesOn (l ++ [.page va]) rest m (by rw [split,List.append_assoc]; rfl) runs
      have last : va ∈ pagesOf (l ++ [.page va]) := by
        rw [pagesAppend]
        exact List.mem_append_right _ List.mem_cons_self
      obtain ⟨f,_,nonzero,backed⟩ := genuine.own va last
      exact absurd (shared.unique backed) nonzero
  · intro enough
    have nonzero : 0 ∉ (Pmm.pmmInit image info before).freeSet := provided.loading.tree.zero
    refine ⟨fun l rest m split runs => ?_,fun m loaded => ?_⟩
    · have reached := outlastsRuns provided (split ▸ ordered) (split ▸ enough) runs
      exact reached.genuine nonzero fun va member => List.mem_append_left _ (List.mem_reverse.mpr member)
    · have whole := rootfsProvided bounded placed enough loaded
      refine ⟨?_,fun pr member va low mapped => (whole.bytes pr member va low mapped).2⟩
      exact whole.genuine nonzero fun va member => List.mem_reverse.mpr (pagesActs ▸ member)

end

theorem loaderHonestSmall : LoaderHonest (bootMemory smallTables Pmm.smallInfo (fun _ => 0) fun _ => 0) (List.replicate 12 [0]) := by
  have enough := smallEnough
  have need : framesReached (List.replicate 12 [0]) = 249 := by decide
  exact (loaderHonestIff (by decide) (by decide) rfl).mpr (.inl (by omega))

section
variable {frames : Finset Nat} {m : Memory} {done pages : List Word} {acts : List LoadAct}

theorem orderedNodup (ordered : Ordered done acts) :
    ((pagesOf acts).map pageNumber).Nodup ∧ ∀ va ∈ pagesOf acts, pageNumber va ∉ numbers done := by
  induction acts generalizing done with
  | nil => exact ⟨List.nodup_nil,fun va member => nomatch member⟩
  | cons act acts ih =>
    cases act with
    | page va =>
      obtain ⟨⟨_,new⟩,ordered⟩ := ordered
      obtain ⟨nodup,later⟩ := ih ordered
      rw [numbersCons] at later
      refine ⟨List.nodup_cons.mpr ⟨fun member => ?_,nodup⟩,List.forall_mem_cons.mpr ⟨new,fun va' member old => ?_⟩⟩
      · obtain ⟨va',inside,same⟩ := List.mem_map.mp member
        exact later va' inside (same ▸ Set.mem_insert _ _)
      · exact later va' member (Set.mem_insert_of_mem _ old)
    | copy pr => exact ih ordered.2

/- There are as many frames as pages at least. -/
theorem Genuine.card (genuine : Genuine frames m pages) (nodup : (pages.map pageNumber).Nodup) : pages.length ≤ frames.card := by
  have chosen : ∀ va, ∃ f, va ∈ pages → f ∈ frames ∧ Backed m va f := by
    intro va
    by_cases member : va ∈ pages
    · obtain ⟨f,inside,_,backed⟩ := genuine.own va member
      exact ⟨f,fun _ => ⟨inside,backed⟩⟩
    · exact ⟨0,fun inside => absurd inside member⟩
  choose frame chosen using chosen
  rw [← List.toFinset_card_of_nodup nodup.of_map]
  refine Finset.card_le_card_of_injOn frame (fun va member => (chosen va (List.mem_toFinset.mp member)).1) ?_
  intro va member va' member' same
  have inside := List.mem_toFinset.mp member
  have inside' := List.mem_toFinset.mp member'
  have backed' := (chosen va' inside').2
  rw [← same] at backed'
  exact (List.inj_on_of_nodup_map nodup inside' inside (genuine.apart va inside va' inside' _ (chosen va inside).2 backed')).symm

end

/- A machine with 230 free frames. -/
def tightInfo : BootInfo := .mmap [⟨0x100000,0x107000,1⟩]

theorem tightFrames : (Pmm.pmmInit Pmm.smallImage tightInfo fun _ => 0).freeSet = Finset.Ico 0x121 0x207 := by
  have top : ((archMemDetect tightInfo maxRegions).2 >>> 12).toNat = 0x207 := by decide +kernel
  have region : (archMemDetect tightInfo maxRegions).1 = [⟨0x100000,0x107000⟩] := by decide +kernel
  have reserved : (Pmm.reservedTop Pmm.smallImage (archMemDetect tightInfo maxRegions).2).toNat = 0x120041 := by decide +kernel
  ext f
  rw [Pmm.initFree (by decide),Pmm.initTotal,top,Pmm.Usable,region,reserved,Finset.mem_Ico]
  have base : (0x100000 : Word).toNat = 0x100000 := by decide
  have len : (0x107000 : Word).toNat = 0x107000 := by decide
  simp only [List.mem_singleton,exists_eq_left,Pmm.Holds,base,len]
  omega

/- The loader returns with more pages than it had frames. -/
theorem loaderFakes : ¬ LoaderHonest (bootMemory smallTables tightInfo (fun _ => 0) fun _ => 0) (List.replicate 12 [0]) ∧
    ∃ m, (bootMemory smallTables tightInfo (fun _ => 0) fun _ => 0).rootfsLoadAll (List.replicate 12 [0]) = some m ∧
      ¬ Genuine (Pmm.pmmInit Pmm.smallImage tightInfo fun _ => 0).freeSet m ((progs (List.replicate 12 [0])).flatMap Prog.pages) := by
  have frames : (Pmm.pmmInit Pmm.smallImage tightInfo fun _ => 0).freeSet.card = 230 := by rw [tightFrames,Nat.card_Ico]
  have short : ∀ image ∈ List.replicate 12 [(0 : BitVec 8)], image.length ≤ 65536 := by
    intro image member
    rw [List.eq_of_mem_replicate member]
    decide
  have loads : ∃ m, (bootMemory smallTables tightInfo (fun _ => 0) fun _ => 0).rootfsLoadAll (List.replicate 12 [0]) = some m ∧
      (Pmm.pmmInit Pmm.smallImage tightInfo fun _ => 0).freeSet.card ≤ m.pmm.freeSet.card + 249 := by
    refine rootfsCompletes (by decide) (by decide) short ?_
    rw [reachedNeeds,frames]
    decide +kernel
  obtain ⟨m,loaded,_⟩ := loads
  have faked : ¬ Genuine (Pmm.pmmInit Pmm.smallImage tightInfo fun _ => 0).freeSet m ((progs (List.replicate 12 [0])).flatMap Prog.pages) := by
    intro genuine
    have ordered : Ordered [] (loadActs (List.replicate 12 [0])) := bootOrdered
    rw [← pagesActs] at genuine
    have most := genuine.card (orderedNodup ordered).1
    have pages : (pagesOf (loadActs (List.replicate 12 [0]))).length = 240 := by decide +kernel
    omega
  exact ⟨fun honest => faked (honest.returns m loaded).1,m,loaded,faked⟩

end Mukern
