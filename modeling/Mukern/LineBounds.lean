import Mukern.LineHistory
import Mukern.TerminalLines
import Mukern.Library.Journal

/-! Where a line read writes. A byte that `edit` handles writes some of `rd_buf` and
indexes some of the history and of the parked line; here these cells are listed as the
source indexes them, and kept inside their arrays. -/
namespace Mukern
open Buffers Transition

/- `buffer i` is a write to `rd_buf[i]`; the others are accesses to `hist[row][col]`,
`hist_len[row]` and `h_saved[i]`. -/
inductive LineCell where
  | buffer (i : Nat)
  | hist (row col : Nat)
  | histLen (row : Nat)
  | saved (i : Nat)
  deriving DecidableEq, Repr

def LineCell.Within (rdMax : Nat) : LineCell → Prop
  | .buffer i => i < rdMax
  | .hist row col => row < 16 ∧ col < 128
  | .histLen row => row < 16
  | .saved i => i < 128

/- `rd_buf[lo]` to `rd_buf[lo + n - 1]`. -/
def bufferCells (lo n : Nat) : List LineCell := (List.range' lo n).map .buffer

namespace Console
variable (con : Console)

def insCharCells : List LineCell :=
  if unsigned (con.rdN + 1) ≥ con.rdMax then [] else bufferCells con.rdPos (con.rdN - con.rdPos + 1)

def delLeftCells : List LineCell :=
  if con.rdPos = 0 then [] else bufferCells (con.rdPos - 1) (con.rdN - 1 - (con.rdPos - 1))

def delAtCells : List LineCell :=
  if con.rdPos ≥ con.rdN then [] else bufferCells con.rdPos (con.rdN - 1 - con.rdPos)

/- `source i` is `s[i]`. -/
def setLineCells (source : Nat → LineCell) (n : Nat) : List LineCell :=
  let n := if n ≥ con.rdMax then unsigned (con.rdMax + 2 ^ 32 - 1) else n
  (List.range n).map source ++ bufferCells 0 n

def parkLineCells : List LineCell := (List.range (if con.rdN < 128 then con.rdN else 128 - 1)).map .saved

def histNavCells (delta : Int) : List LineCell :=
  let nav : Int := con.hNav + (if delta < 0 then 1 else -1)
  if nav < 0 ∨ nav > con.hCount then []
  else
    let parked := if con.hNav = 0 ∧ nav > 0 then con.parkLineCells else []
    if nav = 0 then parked ++ con.setLineCells .saved con.hSavedN
    else
      let idx := (con.hNext + 16 - nav.toNat) % 16
      parked ++ .histLen idx :: con.setLineCells (.hist idx) (con.histLen idx)

/- `hist_push` compares with the newest entry up to the first byte that differs. -/
def newestCells (s n : Nat) : List LineCell :=
  let newest := (con.hNext + 16 - 1) % 16
  if con.hCount = 0 then []
  else if con.histLen newest = n then
    .histLen newest :: ((List.range n).filter fun i => ∀ j < i, con.hist newest j = con.memory (s + j)).map (.hist newest)
  else [.histLen newest]

def histPushCells (s n : Nat) : List LineCell :=
  if n = 0 then []
  else
    let newest := (con.hNext + 16 - 1) % 16
    if con.hCount ≠ 0 ∧ con.histLen newest = n ∧ ∀ i < n, con.hist newest i = con.memory (s + i) then con.newestCells s n
    else
      let n' := if n ≥ 128 then 128 - 1 else n
      con.newestCells s n ++ .histLen con.hNext :: (List.range n').map (.hist con.hNext)

def finishLineCells : List LineCell := .buffer con.rdN :: con.terminated.histPushCells con.rdBuf con.rdN

def performCells : LineCommand → List LineCell
  | .insert _ => con.insCharCells
  | .deleteLeft => con.delLeftCells
  | .deleteAt => con.delAtCells
  | .older => con.histNavCells (-1)
  | .newer => con.histNavCells 1
  | .left | .right | .home | .toEnd | .kill | .nothing => []

/- The cells of one turn of the loop of `edit`. -/
def editByteCells (c : Byte) : List LineCell :=
  match con.esc with
  | .sawEsc => []
  | .inCsi => if ascii '0' ≤ c ∧ c ≤ ascii '9' then [] else con.performCells (.ofCsi con.csiNum.toNat c)
  | .normal =>
    match LineKey.ofByte c with
    | .command k => con.performCells k
    | .escape => []
    | .accept => con.finishLineCells
    | .cancel => con.emptied.finishLineCells

/- Handling the byte stays inside the arrays. -/
structure StaysInside (c : Byte) : Prop where
  cells : ∀ cell ∈ con.editByteCells c, cell.Within con.rdMax
  memory : ∀ i, ¬ (con.rdBuf ≤ i ∧ i < con.rdBuf + con.rdMax) → (con.editByte c).memory i = con.memory i

/- With no byte in the buffer, the line is not ended and no entry of the history recalled. -/
def Harmless (c : Byte) : Prop := con.rdMax = 0 → ¬ con.esc.ends c ∧ ¬ (con.esc = .inCsi ∧ c = ascii 'A' ∧ con.hCount ≠ 0)

/- The bytes of `edit`, each with the driver that handles it. -/
def editLog : (turns : Nat) → Console → List (Console × Byte)
  | 0, _ => []
  | turns + 1, con =>
    if con.rdActive then
      match con.ring.pop with
      | none => []
      | some (c,ring) => ({ con with ring := ring },c) :: editLog turns ({ con with ring := ring }.editByte c)
    else []

/- As `handle`. -/
def handleLog (event : ConsoleEvent) : List (Console × Byte) :=
  match event with
  | .irq _ | .readline _ _ _ => editLog (con.arrive event).ring.used (con.arrive event)
  | .write _ _ _ | .clients _ => []

/- Outside the cells nothing is written. -/
structure WritesOnly (cells : List LineCell) (con' : Console) : Prop where
  memory : ∀ i, (∀ j, .buffer j ∈ cells → i ≠ con.rdBuf + j) → con'.memory i = con.memory i
  hist : ∀ row col, .hist row col ∉ cells → con'.hist row col = con.hist row col
  lengths : ∀ row, .histLen row ∉ cells → con'.histLen row = con.histLen row
  saved : ∀ i, .saved i ∉ cells → con'.hSaved i = con.hSaved i

end Console

section cells
variable {rdMax lo n i : Nat} {cells : List LineCell} {cell : LineCell}

theorem bufferMem : .buffer i ∈ bufferCells lo n ↔ lo ≤ i ∧ i < lo + n := by
  rw [bufferCells,List.mem_map]
  constructor
  · intro ⟨j,member,same⟩
    cases same
    exact List.mem_range'_1.mp member
  · intro inside
    exact ⟨i,List.mem_range'_1.mpr inside,rfl⟩

theorem bufferWithin (fits : lo + n ≤ rdMax) : ∀ cell ∈ bufferCells lo n, cell.Within rdMax := by
  refine List.forall_mem_map.mpr fun i member => ?_
  exact Nat.lt_of_lt_of_le (List.mem_range'_1.mp member).2 fits

theorem rangeWithin {source : Nat → LineCell} (inside : ∀ i < n, (source i).Within rdMax) :
    ∀ cell ∈ (List.range n).map source, cell.Within rdMax :=
  List.forall_mem_map.mpr fun i member => inside i (List.mem_range.mp member)

end cells

namespace Console
variable {con con' : Console} {cells : List LineCell} {lo n : Nat}

theorem WritesOnly.still (memory : con'.memory = con.memory) (hist : con'.hist = con.hist) (lengths : con'.histLen = con.histLen)
    (saved : con'.hSaved = con.hSaved) : con.WritesOnly cells con' :=
  ⟨fun i _ => congrFun memory i,fun row col _ => congrFun (congrFun hist row) col,fun row _ => congrFun lengths row,fun i _ => congrFun saved i⟩

theorem WritesOnly.refl : con.WritesOnly cells con := .still rfl rfl rfl rfl

theorem WritesOnly.mono {cells' : List LineCell} (writes : con.WritesOnly cells con') (more : cells ⊆ cells') : con.WritesOnly cells' con' where
  memory i outside := writes.memory i fun j member => outside j (more member)
  hist row col outside := writes.hist row col (mt (more ·) outside)
  lengths row outside := writes.lengths row (mt (more ·) outside)
  saved i outside := writes.saved i (mt (more ·) outside)

theorem WritesOnly.trans {con'' : Console} {cells' : List LineCell} (first : con.WritesOnly cells con') (buf : con'.rdBuf = con.rdBuf)
    (second : con'.WritesOnly cells' con'') : con.WritesOnly (cells ++ cells') con'' := by
  have early := first.mono (List.subset_append_left cells cells')
  have late := second.mono (List.subset_append_right cells cells')
  exact
    { memory := fun i outside => (late.memory i (buf ▸ outside)).trans (early.memory i outside)
      hist := fun row col outside => (late.hist row col outside).trans (early.hist row col outside)
      lengths := fun row outside => (late.lengths row outside).trans (early.lengths row outside)
      saved := fun i outside => (late.saved i outside).trans (early.saved i outside) }

/- A loop that writes a run of `rd_buf`. -/
theorem WritesOnly.run {memory : Buffer Byte} (others : ∀ i, i < con.rdBuf + lo ∨ con.rdBuf + lo + n ≤ i → memory i = con.memory i)
    (same : con'.memory = memory) (stored : Stored con con') : con.WritesOnly (bufferCells lo n) con' where
  memory i outside := by
    rw [same]
    apply others
    by_contra inside
    refine outside (i - con.rdBuf) (bufferMem.mpr ?_) ?_ <;> omega
  hist _ _ _ := by rw [stored.hist]
  lengths _ _ := by rw [stored.lengths]
  saved _ _ := by rw [stored.saved]

theorem insCharWrites (con : Console) (c : Byte) : con.WritesOnly con.insCharCells (con.insChar c) := by
  unfold insCharCells insChar
  split
  · exact .refl
  · refine .run (fun i outside => ?_) rfl ⟨rfl,rfl,rfl,rfl,rfl,rfl,rfl⟩
    exact (setOther (by omega)).trans (shiftUpOther (by omega))

theorem delLeftWrites (con : Console) : con.WritesOnly con.delLeftCells con.delLeft := by
  unfold delLeftCells delLeft
  split
  · exact .refl
  · exact .run (fun i outside => shiftDownOther outside) rfl ⟨rfl,rfl,rfl,rfl,rfl,rfl,rfl⟩

theorem delAtWrites (con : Console) : con.WritesOnly con.delAtCells con.delAt := by
  unfold delAtCells delAt
  split
  · exact .refl
  · exact .run (fun i outside => shiftDownOther outside) rfl ⟨rfl,rfl,rfl,rfl,rfl,rfl,rfl⟩

theorem setLineWrites (pos : con.rdPos ≤ con.rdN) (source : Nat → LineCell) (s : Buffer Byte) (n : Nat) :
    con.WritesOnly (con.setLineCells source n) (con.setLine s n) := by
  have loads : con.WritesOnly (bufferCells 0 (if n ≥ con.rdMax then unsigned (con.rdMax + 2 ^ 32 - 1) else n)) (con.setLine s n) := by
    rw [setLine,goEndIs pos,eraseLineIs]
    exact .run (fun i outside => copyOther outside) rfl ⟨rfl,rfl,rfl,rfl,rfl,rfl,rfl⟩
  exact loads.mono (List.subset_append_right _ _)

theorem parkLineWrites (con : Console) : con.WritesOnly con.parkLineCells con.parkLine where
  memory _ _ := rfl
  hist _ _ _ := rfl
  lengths _ _ := rfl
  saved i outside := by
    refine copyOther (.inr (Nat.le_of_not_lt fun inside => outside (List.mem_map.mpr ⟨i,List.mem_range.mpr ?_,rfl⟩)))
    rwa [Nat.zero_add] at inside

/- The state in which `hist_nav` calls `set_line`. -/
def navigated (con : Console) (nav : Int) : Console :=
  { (if con.hNav = 0 ∧ nav > 0 then con.parkLine else con) with hNav := nav.toNat }

theorem histNavMoves (con : Console) (delta : Int) : con.histNav delta =
    let nav : Int := con.hNav + (if delta < 0 then 1 else -1)
    if nav < 0 ∨ nav > con.hCount then con else (con.navigated nav).browse nav := rfl

theorem navigatedBrowsed (con : Console) (nav : Int) : Browsed con (con.navigated nav) := by
  unfold navigated
  split <;> exact ⟨⟨rfl,rfl,rfl,rfl,rfl,rfl,rfl,rfl,rfl⟩,rfl,rfl,rfl,rfl,rfl,rfl,rfl,rfl⟩

theorem navigatedSaved (con : Console) (nav : Int) :
    (con.navigated nav).hSavedN = if con.hNav = 0 ∧ nav > 0 then con.parkLine.hSavedN else con.hSavedN := by
  unfold navigated
  split <;> rfl

theorem navigatedWrites (con : Console) (nav : Int) :
    con.WritesOnly (if con.hNav = 0 ∧ nav > 0 then con.parkLineCells else []) (con.navigated nav) := by
  unfold navigated
  split
  · exact ⟨con.parkLineWrites.memory,con.parkLineWrites.hist,con.parkLineWrites.lengths,con.parkLineWrites.saved⟩
  · exact .still rfl rfl rfl rfl

theorem histNavWrites (pos : con.rdPos ≤ con.rdN) (delta : Int) : con.WritesOnly (con.histNavCells delta) (con.histNav delta) := by
  rw [histNavMoves,histNavCells]
  generalize (con.hNav : Int) + (if delta < 0 then 1 else -1) = nav
  dsimp only
  rw [browse]
  obtain ⟨framed,_,lengths,_,next,_,n,pos',_⟩ := con.navigatedBrowsed nav
  have inside : (con.navigated nav).rdPos ≤ (con.navigated nav).rdN := by rwa [pos',n]
  have parks := con.navigatedWrites nav
  have cells (source : Nat → LineCell) (n : Nat) : con.setLineCells source n = (con.navigated nav).setLineCells source n := by
    rw [setLineCells,setLineCells,framed.max]
  split
  · exact .refl
  · split
    · rename_i live
      have saved : (con.navigated nav).hSavedN = con.hSavedN := by
        rw [navigatedSaved,if_neg (by omega)]
      rw [saved,cells]
      exact parks.trans framed.buf (setLineWrites inside _ _ _)
    · have depth : (con.navigated nav).hNav = nav.toNat := rfl
      rw [depth,next,lengths,cells]
      exact parks.trans framed.buf ((setLineWrites inside _ _ _).mono (List.subset_cons_self _ _))

theorem histPushWrites (con : Console) (s n : Nat) : con.WritesOnly (con.histPushCells s n) (con.histPush s n) := by
  unfold histPushCells histPush
  dsimp only
  split
  · exact .refl
  · split
    · exact .refl
    · generalize (if n ≥ 128 then 128 - 1 else n) = n
      refine ⟨fun _ _ => rfl,fun row col outside => ?_,fun row outside => ?_,fun _ _ => rfl⟩
      · rcases Decidable.em (row = con.hNext) with rfl | other
        · refine (congrFun (Function.update_self _ _ _) col).trans (copyOther (.inr (Nat.le_of_not_lt fun inside => outside ?_)))
          rw [Nat.zero_add] at inside
          exact List.mem_append_right _ (List.mem_cons_of_mem _ (List.mem_map.mpr ⟨col,List.mem_range.mpr inside,rfl⟩))
        · exact congrFun (Function.update_of_ne other _ _) col
      · refine Function.update_of_ne (fun same => outside ?_) _ _
        rw [same]
        exact List.mem_append_right _ List.mem_cons_self

theorem finishLineWrites (con : Console) : con.WritesOnly con.finishLineCells con.finishLine := by
  have ends : con.WritesOnly [.buffer con.rdN] con.terminated :=
    { memory := fun i outside => setOther (outside con.rdN (List.mem_singleton.mpr rfl))
      hist := fun _ _ _ => rfl
      lengths := fun _ _ => rfl
      saved := fun _ _ => rfl }
  have pushes := ends.trans rfl (con.terminated.histPushWrites con.rdBuf con.rdN)
  rw [finishLineIs]
  exact ⟨pushes.memory,pushes.hist,pushes.lengths,pushes.saved⟩

theorem performWrites (pos : con.rdPos ≤ con.rdN) (k : LineCommand) : con.WritesOnly (con.performCells k) (con.perform k) := by
  cases k with
  | insert c => exact con.insCharWrites c
  | deleteLeft => exact con.delLeftWrites
  | deleteAt => exact con.delAtWrites
  | older => exact histNavWrites pos (-1)
  | newer => exact histNavWrites pos 1
  | left =>
    rw [perform,goLeft]
    split
    · exact .still rfl rfl rfl rfl
    · exact .refl
  | right =>
    rw [perform,goRight]
    split
    · exact .still rfl rfl rfl rfl
    · exact .refl
  | home =>
    rw [perform,goHomeIs]
    exact .still rfl rfl rfl rfl
  | toEnd =>
    rw [perform,goEndIs pos]
    exact .still rfl rfl rfl rfl
  | kill =>
    rw [perform,killLine,goEndIs pos,eraseLineIs]
    exact .still rfl rfl rfl rfl
  | nothing => exact .refl

/- The cells are all that handling the byte writes. -/
theorem editByteWrites (pos : con.rdPos ≤ con.rdN) (c : Byte) : con.WritesOnly (con.editByteCells c) (con.editByte c) := by
  rcases esc : con.esc with _ | _ | _
  · simp only [editByteCells,editByte,esc,normalKeyIs]
    rcases LineKey.ofByte c with k | _ | _ | _
    · exact performWrites pos k
    · exact .still rfl rfl rfl rfl
    · exact con.finishLineWrites
    · have done := con.emptied.finishLineWrites
      exact ⟨done.memory,done.hist,done.lengths,done.saved⟩
  · simp only [editByteCells,editByte,esc]
    exact .still rfl rfl rfl rfl
  · simp only [editByteCells,editByte,esc,insideCsi]
    split
    · exact .still rfl rfl rfl rfl
    · rw [csiFinalIs]
      have done := performWrites pos (.ofCsi con.csiNum.toNat c)
      exact ⟨done.memory,done.hist,done.lengths,done.saved⟩

/- A request for a line of no bytes, as long as it does no harm. -/
structure Roomless (con : Console) : Prop where
  max : con.rdMax = 0
  n : con.rdN = 0
  pos : con.rdPos = 0
  nav : con.hNav = 0

structure Kept (con : Console) : Prop where
  rung : Rung con
  saved : con.hSavedN ≤ 127
  request : con.rdActive = true → Inside con ∨ Roomless con

theorem insCharWithin (inside : Inside con) : ∀ cell ∈ con.insCharCells, cell.Within con.rdMax := by
  have fits : unsigned (con.rdN + 1) = con.rdN + 1 := Nat.mod_eq_of_lt (by have := inside.room; have := inside.buffer; omega)
  have pos := inside.pos
  unfold insCharCells
  split
  · exact List.forall_mem_nil _
  · rename_i free
    exact bufferWithin (by omega)

theorem delLeftWithin (inside : Inside con) : ∀ cell ∈ con.delLeftCells, cell.Within con.rdMax := by
  have pos := inside.pos
  have room := inside.room
  unfold delLeftCells
  split
  · exact List.forall_mem_nil _
  · exact bufferWithin (by omega)

theorem delAtWithin (inside : Inside con) : ∀ cell ∈ con.delAtCells, cell.Within con.rdMax := by
  have room := inside.room
  unfold delAtCells
  split
  · exact List.forall_mem_nil _
  · exact bufferWithin (by omega)

theorem setLineWithin (inside : Inside con) {source : Nat → LineCell} (short : ∀ i < n, (source i).Within con.rdMax) :
    ∀ cell ∈ con.setLineCells source n, cell.Within con.rdMax := by
  have room := inside.room
  have bound : unsigned (con.rdMax + 2 ^ 32 - 1) = con.rdMax - 1 := by
    have := inside.buffer
    unfold unsigned
    omega
  rw [setLineCells,bound]
  refine List.forall_mem_append.mpr ⟨rangeWithin fun i low => short i ?_,bufferWithin ?_⟩ <;> split at * <;> omega

theorem histNavWithin (inside : Inside con) (rung : Rung con) (saved : con.hSavedN ≤ 127) (delta : Int) :
    ∀ cell ∈ con.histNavCells delta, cell.Within con.rdMax := by
  rw [histNavCells]
  generalize (con.hNav : Int) + (if delta < 0 then 1 else -1) = nav
  dsimp only
  have parked : ∀ cell ∈ (if con.hNav = 0 ∧ nav > 0 then con.parkLineCells else []), cell.Within con.rdMax := by
    split
    · refine rangeWithin fun i low => ?_
      change i < 128
      split at low <;> omega
    · exact List.forall_mem_nil _
  split
  · exact List.forall_mem_nil _
  · split
    · refine List.forall_mem_append.mpr ⟨parked,setLineWithin inside fun i low => ?_⟩
      change i < 128
      omega
    · have row : (con.hNext + 16 - nav.toNat) % 16 < 16 := Nat.mod_lt _ (by decide)
      refine List.forall_mem_append.mpr ⟨parked,List.forall_mem_cons.mpr ⟨row,setLineWithin inside fun i low => ⟨row,?_⟩⟩⟩
      have := rung.short ((con.hNext + 16 - nav.toNat) % 16)
      omega

theorem newestWithin (rung : Rung con) (s n : Nat) : ∀ cell ∈ con.newestCells s n, cell.Within con.rdMax := by
  have row : (con.hNext + 16 - 1) % 16 < 16 := Nat.mod_lt _ (by decide)
  have short := rung.short ((con.hNext + 16 - 1) % 16)
  rw [newestCells]
  split
  · exact List.forall_mem_nil _
  · split
    · rename_i whole
      refine List.forall_mem_cons.mpr ⟨row,List.forall_mem_map.mpr fun i member => ⟨row,?_⟩⟩
      have low : i < n := List.mem_range.mp (List.mem_filter.mp member).1
      omega
    · exact List.forall_mem_singleton.mpr row

theorem histPushWithin (rung : Rung con) (s n : Nat) : ∀ cell ∈ con.histPushCells s n, cell.Within con.rdMax := by
  have reads := newestWithin rung s n
  have next := rung.next
  rw [histPushCells]
  dsimp only
  split
  · exact List.forall_mem_nil _
  · split
    · exact reads
    · refine List.forall_mem_append.mpr ⟨reads,List.forall_mem_cons.mpr ⟨next,rangeWithin fun i low => ⟨next,?_⟩⟩⟩
      split at low <;> omega

theorem finishLineWithin (inside : Inside con) (rung : Rung con) : ∀ cell ∈ con.finishLineCells, cell.Within con.rdMax := by
  have ended : Rung con.terminated := ⟨rung.count,rung.next,rung.short⟩
  exact List.forall_mem_cons.mpr ⟨inside.room,histPushWithin ended con.rdBuf con.rdN⟩

theorem performWithin (inside : Inside con) (rung : Rung con) (saved : con.hSavedN ≤ 127) (k : LineCommand) :
    ∀ cell ∈ con.performCells k, cell.Within con.rdMax := by
  cases k with
  | insert c => exact insCharWithin inside
  | deleteLeft => exact delLeftWithin inside
  | deleteAt => exact delAtWithin inside
  | older => exact histNavWithin inside rung saved (-1)
  | newer => exact histNavWithin inside rung saved 1
  | left | right | home | toEnd | kill | nothing => exact List.forall_mem_nil _

theorem editByteWithin (inside : Inside con) (rung : Rung con) (saved : con.hSavedN ≤ 127) (c : Byte) :
    ∀ cell ∈ con.editByteCells c, cell.Within con.rdMax := by
  rcases esc : con.esc with _ | _ | _
  · simp only [editByteCells,esc]
    rcases LineKey.ofByte c with k | _ | _ | _
    · exact performWithin inside rung saved k
    · exact List.forall_mem_nil _
    · exact finishLineWithin inside rung
    · exact finishLineWithin (emptiedRetyped inside).inside ⟨rung.count,rung.next,rung.short⟩
  · simp only [editByteCells,esc]
    exact List.forall_mem_nil _
  · simp only [editByteCells,esc]
    split
    · exact List.forall_mem_nil _
    · exact performWithin inside rung saved _

theorem histPushShelf (rung : Rung con) (saved : con.hSavedN ≤ 127) (s n : Nat) :
    Rung (con.histPush s n) ∧ (con.histPush s n).hSavedN ≤ 127 := by
  refine ⟨(historyStep rung ⟨con.memory,s,n⟩).1,?_⟩
  unfold histPush
  split
  · exact saved
  · dsimp only
    split <;> exact saved

theorem finishKept (rung : Rung con) (saved : con.hSavedN ≤ 127) : Kept con.finishLine := by
  have ended : Rung con.terminated := ⟨rung.count,rung.next,rung.short⟩
  obtain ⟨pushed,saved⟩ := histPushShelf ended saved con.rdBuf con.rdN
  rw [finishLineIs]
  exact ⟨⟨pushed.count,pushed.next,pushed.short⟩,saved,nofun⟩

theorem editByteShelf (rung : Rung con) (saved : con.hSavedN ≤ 127) (c : Byte) :
    (∀ i, (con.editByte c).histLen i ≤ 127) ∧ (con.editByte c).hSavedN ≤ 127 := by
  have command (k : LineCommand) : (∀ i, (con.perform k).histLen i ≤ 127) ∧ (con.perform k).hSavedN ≤ 127 := by
    have edited := con.performEdited k
    rw [edited.lengths]
    exact ⟨rung.short,edited.saved saved⟩
  rcases esc : con.esc with _ | _ | _
  · simp only [editByte,esc,normalKeyIs]
    rcases LineKey.ofByte c with k | _ | _ | _
    · exact command k
    · exact ⟨rung.short,saved⟩
    · have done := finishKept rung saved
      exact ⟨done.rung.short,done.saved⟩
    · have emptied : Rung con.emptied := ⟨rung.count,rung.next,rung.short⟩
      have done := finishKept emptied saved
      exact ⟨done.rung.short,done.saved⟩
  · simp only [editByte,esc]
    exact ⟨rung.short,saved⟩
  · simp only [editByte,esc,insideCsi]
    split
    · exact ⟨rung.short,saved⟩
    · rw [csiFinalIs]
      exact command _

theorem insideKept (inside : Inside con) (rung : Rung con) (saved : con.hSavedN ≤ 127) (c : Byte) : Kept (con.editByte c) := by
  obtain ⟨_,typed⟩ := typesInside inside c
  obtain ⟨short,kept⟩ := editByteShelf rung saved c
  exact ⟨⟨typed.inside.count,typed.inside.next,short⟩,kept,fun _ => .inl typed.inside⟩

/- Without room every command is idle but the one that recalls an entry. -/
theorem performRoomless (roomless : Roomless con) {k : LineCommand} (idle : k = .older → con.hCount = 0) :
    con.performCells k = [] ∧ con.perform k = con := by
  obtain ⟨max,n,pos,nav⟩ := roomless
  have full : unsigned (con.rdN + 1) ≥ con.rdMax := by
    rw [max]
    exact Nat.zero_le _
  cases k with
  | insert c => exact ⟨if_pos full,if_pos full⟩
  | deleteLeft => exact ⟨if_pos pos,if_pos pos⟩
  | deleteAt => exact ⟨if_pos (by omega),if_pos (by omega)⟩
  | older =>
    have empty := idle rfl
    refine ⟨if_pos (.inr ?_),histNavStays (by omega)⟩
    rw [if_pos (by decide)]
    omega
  | newer =>
    refine ⟨if_pos (.inl ?_),histNavLive nav⟩
    rw [if_neg (by decide)]
    omega
  | left => exact ⟨rfl,if_neg (not_not.mpr pos)⟩
  | right => exact ⟨rfl,if_neg (by omega)⟩
  | home =>
    rw [perform,goHome,pos]
    exact ⟨rfl,rfl⟩
  | toEnd =>
    rw [perform,goEnd,n,pos]
    exact ⟨rfl,rfl⟩
  | kill =>
    have still : con.goEnd = con := by
      rw [goEnd,n,pos]
      rfl
    have same : { con with rdPos := 0 } = con := by rw [← pos]
    rw [perform,killLine,still,eraseLine,n]
    exact ⟨rfl,same⟩
  | nothing => exact ⟨rfl,rfl⟩

theorem byteOlder : ∀ c : Byte, LineKey.ofByte c ≠ .command .older := by decide +kernel

theorem csiOlder {number : Nat} {c : Byte} (older : LineCommand.ofCsi number c = .older) : c = ascii 'A' := by
  let other (k : LineCommand) : Prop := k = .older → c = ascii 'A'
  have apart {k : LineCommand} {p : Prop} (apart : k ≠ .older) (_ : p) : other k := fun same => absurd same apart
  suffices all : other (.ofCsi number c) from all older
  unfold LineCommand.ofCsi
  refine iteInduction (motive := other) (fun first _ => first) fun _ => iteInduction (apart nofun) fun _ => ?_
  refine iteInduction (apart nofun) fun _ => iteInduction (apart nofun) fun _ => iteInduction (apart nofun) fun _ => ?_
  refine iteInduction (apart nofun) fun _ => iteInduction (fun _ => ?_) (apart nofun)
  exact iteInduction (apart nofun) fun _ => iteInduction (apart nofun) fun _ => iteInduction (apart nofun) (apart nofun)

theorem harmlessRoomless (roomless : Roomless con) {c : Byte} (harmless : con.Harmless c) :
    con.editByteCells c = [] ∧ ∃ esc num, con.editByte c = { con with esc := esc, csiNum := num } := by
  obtain ⟨open',idle⟩ := harmless roomless.max
  rcases esc : con.esc with _ | _ | _
  · simp only [editByteCells,editByte,esc,normalKeyIs]
    rcases key : LineKey.ofByte c with k | _ | _ | _
    · obtain ⟨cells,same⟩ := performRoomless roomless fun older => absurd (older ▸ key) (byteOlder c)
      exact ⟨cells,_,_,same⟩
    · exact ⟨rfl,_,_,rfl⟩
    · exact absurd ⟨esc,keyEnds (.inl key)⟩ open'
    · exact absurd ⟨esc,keyEnds (.inr key)⟩ open'
  · simp only [editByteCells,editByte,esc]
    exact ⟨trivial,_,_,rfl⟩
  · simp only [editByteCells,editByte,esc,insideCsi]
    split
    · exact ⟨rfl,_,_,rfl⟩
    · rw [csiFinalIs]
      have empty (older : LineCommand.ofCsi con.csiNum.toNat c = .older) : con.hCount = 0 :=
        not_not.mp fun entries => idle ⟨esc,csiOlder older,entries⟩
      obtain ⟨cells,same⟩ := performRoomless roomless empty
      rw [same]
      exact ⟨cells,_,_,rfl⟩

theorem harmfulRoomless (roomless : Roomless con) {c : Byte} (harmful : ¬ con.Harmless c) : .buffer 0 ∈ con.editByteCells c := by
  obtain ⟨max,n,pos,nav⟩ := roomless
  have first : .buffer 0 ∈ con.finishLineCells := by
    rw [finishLineCells,n]
    exact List.mem_cons_self
  obtain ⟨_,harm⟩ := Classical.not_imp.mp harmful
  rw [not_and_or,not_not,not_not] at harm
  rcases harm with ⟨esc,rfl | rfl | rfl⟩ | ⟨esc,rfl,entries⟩
  · rw [editByteCells,esc]
    exact first
  · rw [editByteCells,esc]
    exact first
  · rw [editByteCells,esc]
    exact List.mem_cons_self
  · have older : LineCommand.ofCsi con.csiNum.toNat (ascii 'A') = .older := if_pos rfl
    have final : ¬ (ascii '0' ≤ ascii 'A' ∧ ascii 'A' ≤ ascii '9') := by decide
    have up : (con.hNav : Int) + (if (-1 : Int) < 0 then 1 else -1) = 1 := by
      rw [nav]
      rfl
    have inside : ¬ ((1 : Int) < 0 ∨ (1 : Int) > con.hCount) := by omega
    simp only [editByteCells,esc,if_neg final,older,performCells,histNavCells,up,if_neg inside,if_neg Int.one_ne_zero]
    refine List.mem_append_right _ (List.mem_cons_of_mem _ (List.mem_append_right _ (bufferMem.mpr ⟨Nat.le_refl 0,?_⟩)))
    rw [max,if_pos (Nat.zero_le _)]
    decide

theorem Kept.withRing (kept : Kept con) (ring : Ring Byte 256) : Kept { con with ring := ring } where
  rung := ⟨kept.rung.count,kept.rung.next,kept.rung.short⟩
  saved := kept.saved
  request active := (kept.request active).imp (·.withRing ring) fun roomless => ⟨roomless.max,roomless.n,roomless.pos,roomless.nav⟩

theorem insideStays (pos : con.rdPos ≤ con.rdN) {c : Byte} (within : ∀ cell ∈ con.editByteCells c, cell.Within con.rdMax) :
    con.StaysInside c := by
  refine ⟨within,fun i outside => (editByteWrites pos c).memory i fun j written => ?_⟩
  have low : j < con.rdMax := within _ written
  omega

/- A byte stays inside exactly if it is harmless, and then leaves the invariant. -/
theorem byteStays (kept : Kept con) (active : con.rdActive = true) (c : Byte) :
    (con.StaysInside c ↔ con.Harmless c) ∧ (con.Harmless c → Kept (con.editByte c)) := by
  rcases kept.request active with inside | roomless
  · have harmless : con.Harmless c := fun none => absurd inside.room (by omega)
    have stays := insideStays inside.pos (editByteWithin inside kept.rung kept.saved c)
    exact ⟨iff_of_true stays harmless,fun _ => insideKept inside kept.rung kept.saved c⟩
  · refine ⟨⟨fun stays => ?_,fun harmless => ?_⟩,fun harmless => ?_⟩
    · by_contra harmful
      have low : 0 < con.rdMax := stays.cells _ (harmfulRoomless roomless harmful)
      exact absurd roomless.max (by omega)
    · obtain ⟨cells,_⟩ := harmlessRoomless roomless harmless
      refine insideStays (by rw [roomless.pos]; exact Nat.zero_le _) ?_
      rw [cells]
      exact List.forall_mem_nil _
    · obtain ⟨_,esc,num,same⟩ := harmlessRoomless roomless harmless
      rw [same]
      exact ⟨⟨kept.rung.count,kept.rung.next,kept.rung.short⟩,kept.saved,fun _ => .inr ⟨roomless.max,roomless.n,roomless.pos,roomless.nav⟩⟩

theorem editStays (turns : Nat) (kept : Kept con) :
    Until (fun turn => turn.1.Harmless turn.2) (fun turn => turn.1.StaysInside turn.2 ↔ turn.1.Harmless turn.2) (editLog turns con) ∧
      ((∀ turn ∈ editLog turns con, turn.1.Harmless turn.2) → Kept (con.edit turns)) := by
  induction turns generalizing con with
  | zero => exact ⟨.nil,fun _ => kept⟩
  | succ turns ih =>
    rw [editLog,edit]
    split
    · rename_i active
      rcases con.ring.pop with _ | ⟨c,ring⟩
      · exact ⟨.nil,fun _ => kept⟩
      · obtain ⟨stays,keeps⟩ := byteStays (kept.withRing ring) active c
        refine ⟨.cons stays fun harmless => (ih (keeps harmless)).1,fun harmless => ?_⟩
        obtain ⟨first,rest⟩ := List.forall_mem_cons.mp harmless
        exact (ih (keeps first)).2 rest
    · exact ⟨.nil,fun _ => kept⟩

theorem arriveKept (kept : Kept con) (event : ConsoleEvent) : Kept (con.arrive event) := by
  have rung : Rung (con.arrive event) := by
    cases event <;> exact ⟨kept.rung.count,kept.rung.next,kept.rung.short⟩
  cases event with
  | irq waiting => exact kept.withRing _
  | write sender data0 data1 =>
    refine ⟨rung,kept.saved,fun active => (kept.request active).imp (fun inside => ?_) fun roomless => ?_⟩
    · exact ⟨inside.pos,inside.room,inside.buffer,inside.count,inside.next,inside.nav⟩
    · exact ⟨roomless.max,roomless.n,roomless.pos,roomless.nav⟩
  | readline sender data0 data1 =>
    refine ⟨rung,kept.saved,fun _ => ?_⟩
    rcases Nat.eq_zero_or_pos (unsigned data1) with none | some
    · exact .inr ⟨none,rfl,rfl,rfl⟩
    · exact .inl ⟨Nat.le_refl 0,some,Nat.mod_lt _ (by decide),kept.rung.count,kept.rung.next,Nat.zero_le _⟩
  | clients memory =>
    refine ⟨rung,kept.saved,fun active => (kept.request active).imp (fun inside => ?_) fun roomless => ?_⟩
    · exact ⟨inside.pos,inside.room,inside.buffer,inside.count,inside.next,inside.nav⟩
    · exact ⟨roomless.max,roomless.n,roomless.pos,roomless.nav⟩

theorem handleStays (con : Console) (event : ConsoleEvent) (kept : Kept con) :
    Until (fun turn => turn.1.Harmless turn.2) (fun turn => turn.1.StaysInside turn.2 ↔ turn.1.Harmless turn.2) (con.handleLog event) ∧
      ((∀ turn ∈ con.handleLog event, turn.1.Harmless turn.2) → Kept (con.handle event)) := by
  have arrived := arriveKept kept event
  cases event with
  | irq _ | readline _ _ _ => exact editStays _ arrived
  | write _ _ _ | clients _ => exact ⟨.nil,fun _ => arrived⟩

theorem bootKept (memory : Buffer Byte) (waiting : List Byte) (self : Nat) : Kept (boot memory waiting self) :=
  ⟨bootRung memory waiting self,Nat.zero_le 127,nofun⟩

end Console
namespace VgaTerminal
section cells
variable (term : VgaTerminal)

/- The bytes of `rd_buf` that a key writes. -/
def editKeyCells (c : Byte) : List LineCell :=
  if c = 10 then [.buffer term.rdN]
  else if c = 8 then []
  else if 0x20 ≤ c ∧ c < 0x7f ∧ unsigned (term.rdN + 1) < term.rdMax then [.buffer term.rdN]
  else []

structure StaysInside (c : Byte) : Prop where
  cells : ∀ cell ∈ term.editKeyCells c, cell.Within term.rdMax
  memory : ∀ i, ¬ (term.rdBuf ≤ i ∧ i < term.rdBuf + term.rdMax) → (term.editKey c).memory i = term.memory i

def Harmless (c : Byte) : Prop := term.rdMax = 0 → c ≠ 10

def editLog : (turns : Nat) → VgaTerminal → List (VgaTerminal × Byte)
  | 0, _ => []
  | turns + 1, term =>
    if term.rdActive then
      match term.kr.pop with
      | none => []
      | some (c,kr) => ({ term with kr := kr },c) :: editLog turns ({ term with kr := kr }.editKey c)
    else []

def handleLog (event : VgaEvent) : List (VgaTerminal × Byte) :=
  match event with
  | .irq _ | .readline _ _ _ => editLog (term.arrive event).kr.used (term.arrive event)
  | .write _ _ _ | .clients _ => []

end cells

variable {term : VgaTerminal}

theorem editKeyWrites (term : VgaTerminal) (c : Byte) (i : Nat) (outside : ∀ j, .buffer j ∈ term.editKeyCells c → i ≠ term.rdBuf + j) :
    (term.editKey c).memory i = term.memory i := by
  have drawn (vga : VgaTerminal) (ch : Byte) : (vga.vgaPutc ch).memory = vga.memory ∧ (vga.vgaPutc ch).rdBuf = vga.rdBuf ∧
      (vga.vgaPutc ch).rdN = vga.rdN := by
    obtain ⟨_,_,_,same⟩ := vga.vgaPutcScreen ch
    rw [same]
    exact ⟨rfl,rfl,rfl⟩
  unfold editKeyCells at outside
  unfold editKey
  split
  · rename_i enter
    rw [if_pos enter] at outside
    obtain ⟨memory,buf,n⟩ := drawn term 10
    have other := outside term.rdN (List.mem_singleton.mpr rfl)
    dsimp only
    rw [memory,buf,n]
    exact setOther other
  · rename_i notEnter
    rw [if_neg notEnter] at outside
    split
    · split
      · exact congrFun (drawn _ _).1 i
      · rfl
    · rename_i notBack
      rw [if_neg notBack] at outside
      split
      · rename_i fits
        rw [if_pos fits] at outside
        exact (congrFun (drawn _ _).1 i).trans (setOther (outside term.rdN (List.mem_singleton.mpr rfl)))
      · rfl

theorem editKeyFits (fits : Fits term.rdN term.rdMax) (c : Byte) : Fits (term.editKey c).rdN (term.editKey c).rdMax := by
  have drawn (vga : VgaTerminal) (ch : Byte) : (vga.vgaPutc ch).rdMax = vga.rdMax ∧ (vga.vgaPutc ch).rdN = vga.rdN := by
    obtain ⟨_,_,_,same⟩ := vga.vgaPutcScreen ch
    rw [same]
    exact ⟨rfl,rfl⟩
  have drawing (vga : VgaTerminal) (ch : Byte) (fits : Fits vga.rdN vga.rdMax) : Fits (vga.vgaPutc ch).rdN (vga.vgaPutc ch).rdMax := by
    obtain ⟨max,n⟩ := drawn vga ch
    rwa [max,n]
  unfold editKey
  split
  · exact drawing term 10 fits
  · split
    · split
      · exact drawing _ 8 ⟨(Nat.sub_le _ _).trans fits.small,fits.word⟩
      · exact fits
    · split
      · rename_i shown
        exact drawing _ c ⟨Nat.le_sub_one_of_lt (fits.room.mp shown.2.2),fits.word⟩
      · exact fits

theorem keyStaysInside (fits : Fits term.rdN term.rdMax) (c : Byte) : term.StaysInside c ↔ term.Harmless c := by
  have small := fits.small
  constructor
  · intro stays none enter
    have written : .buffer term.rdN ∈ term.editKeyCells c := by
      rw [editKeyCells,if_pos enter]
      exact List.mem_cons_self
    have low : term.rdN < term.rdMax := stays.cells _ written
    omega
  · intro harmless
    have within : ∀ cell ∈ term.editKeyCells c, cell.Within term.rdMax := by
      unfold editKeyCells
      split
      · rename_i enter
        have room : term.rdMax ≠ 0 := fun none => harmless none enter
        refine List.forall_mem_singleton.mpr ?_
        change term.rdN < term.rdMax
        omega
      · split
        · exact List.forall_mem_nil _
        · split
          · rename_i shown
            refine List.forall_mem_singleton.mpr ?_
            have room := fits.room.mp shown.2.2
            change term.rdN < term.rdMax
            omega
          · exact List.forall_mem_nil _
    refine ⟨within,fun i outside => term.editKeyWrites c i fun j written => ?_⟩
    have low : j < term.rdMax := within _ written
    omega

def Kept (term : VgaTerminal) : Prop := term.rdActive = true → Fits term.rdN term.rdMax

theorem editStays (turns : Nat) (kept : Kept term) :
    Until (fun turn => turn.1.Harmless turn.2) (fun turn => turn.1.StaysInside turn.2 ↔ turn.1.Harmless turn.2) (editLog turns term) ∧
      Kept (term.edit turns) := by
  induction turns generalizing term with
  | zero => exact ⟨.nil,kept⟩
  | succ turns ih =>
    rw [editLog,edit]
    split
    · rename_i active
      rcases term.kr.pop with _ | ⟨c,kr⟩
      · exact ⟨.nil,kept⟩
      · have fits : Fits { term with kr := kr }.rdN { term with kr := kr }.rdMax := kept active
        obtain ⟨rest,left⟩ := ih fun _ => editKeyFits fits c
        exact ⟨.cons (keyStaysInside fits c) fun _ => rest,left⟩
    · exact ⟨.nil,kept⟩

theorem handleStays (term : VgaTerminal) (event : VgaEvent) (kept : Kept term) :
    Until (fun turn => turn.1.Harmless turn.2) (fun turn => turn.1.StaysInside turn.2 ↔ turn.1.Harmless turn.2) (term.handleLog event) ∧
      ((∀ turn ∈ term.handleLog event, turn.1.Harmless turn.2) → Kept (term.handle event)) := by
  cases event with
  | irq sc =>
    have pressed : Kept (term.kbdDrain sc) := by
      rw [kbdDrainIs]
      exact kept
    obtain ⟨stays,left⟩ := editStays (term.kbdDrain sc).kr.used pressed
    exact ⟨stays,fun _ => left⟩
  | write sender data0 data1 =>
    obtain ⟨_,_,_,same⟩ := term.vgaPutsScreen (read term.memory data0 (unsigned data1))
    refine ⟨.nil,fun _ => ?_⟩
    change Kept { term.vgaPuts (read term.memory data0 (unsigned data1)) with wrote := term.wrote ++ [sender] }
    rw [same]
    exact kept
  | readline sender data0 data1 =>
    have asked : Kept (term.takeRequest sender data0 data1) := fun _ => ⟨Nat.zero_le _,Nat.mod_lt _ (by decide)⟩
    obtain ⟨stays,left⟩ := editStays (term.takeRequest sender data0 data1).kr.used asked
    exact ⟨stays,fun _ => left⟩
  | clients memory => exact ⟨.nil,fun _ => kept⟩

end VgaTerminal

/- Both servers: of the bytes of a run before which only harmless ones were handled, those that stay
inside the client's buffer and the arrays of the history are the harmless ones. -/
theorem readsStayInside (memory : Buffer Byte) (waiting : List Byte) (self : Nat) (events : List ConsoleEvent)
    (screen : Buffer (BitVec 16)) (vgaEvents : List VgaEvent) :
    Until (fun turn => turn.1.Harmless turn.2) (fun turn => turn.1.StaysInside turn.2 ↔ turn.1.Harmless turn.2)
      (journal consoleSystem Console.handleLog (.boot memory waiting self) events) ∧
    Until (fun turn => turn.1.Harmless turn.2) (fun turn => turn.1.StaysInside turn.2 ↔ turn.1.Harmless turn.2)
      (journal vgaSystem VgaTerminal.handleLog (.boot screen memory) vgaEvents) := by
  constructor
  · exact journalUntil Console.Kept (fun con event => con.handleStays event) (Console.bootKept memory waiting self) events
  · refine journalUntil VgaTerminal.Kept (fun term event => term.handleStays event) ?_ vgaEvents
    obtain ⟨_,_,_,started⟩ := VgaTerminal.bootIs screen memory
    rw [started]
    exact nofun

/- A line of no bytes is asked for, and Enter is struck. -/
theorem emptyLineOverruns :
    (¬ ∀ turn ∈ journal consoleSystem Console.handleLog (.boot (fun _ => 1) [] 1) [.readline 5 1000 0,.irq [13]], turn.1.StaysInside turn.2) ∧
    (run consoleSystem (.boot (fun _ => 1) [] 1) [.readline 5 1000 0,.irq [13]]).memory 1000 = 0 ∧
    (¬ ∀ turn ∈ journal vgaSystem VgaTerminal.handleLog (.boot (fun _ => 0) fun _ => 1) [.readline 5 1000 0,.irq 0x1c],
      turn.1.StaysInside turn.2) ∧
    (run vgaSystem (.boot (fun _ => 0) fun _ => 1) [.readline 5 1000 0,.irq 0x1c]).memory 1000 = 0 := by
  refine ⟨fun stays => ?_,by decide +kernel,fun stays => ?_,by decide +kernel⟩
  · have first : (journal consoleSystem Console.handleLog (.boot (fun _ => 1) [] 1) [.readline 5 1000 0,.irq [13]]).any
        (fun turn => turn.1.rdMax = 0 ∧ .buffer 0 ∈ turn.1.editByteCells turn.2) = true := by decide +kernel
    obtain ⟨turn,member,written⟩ := List.any_eq_true.mp first
    obtain ⟨max,written⟩ := of_decide_eq_true written
    have low : 0 < turn.1.rdMax := (stays turn member).cells _ written
    omega
  · have first : (journal vgaSystem VgaTerminal.handleLog (.boot (fun _ => 0) fun _ => 1) [.readline 5 1000 0,.irq 0x1c]).any
        (fun turn => turn.1.rdMax = 0 ∧ .buffer 0 ∈ turn.1.editKeyCells turn.2) = true := by decide +kernel
    obtain ⟨turn,member,written⟩ := List.any_eq_true.mp first
    obtain ⟨max,written⟩ := of_decide_eq_true written
    have low : 0 < turn.1.rdMax := (stays turn member).cells _ written
    omega

end Mukern
