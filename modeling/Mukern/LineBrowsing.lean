import Mukern.ReadRequests

/-! The history keys of the console driver: up into the history and down again to the line
that was being typed. -/
namespace Mukern
open Buffers Transition

namespace Console

/- The arrow keys, as a terminal sends them. -/
def pressUp (con : Console) : Console := [0x1b,ascii '[',ascii 'A'].foldl editByte con

def pressDown (con : Console) : Console := [0x1b,ascii '[',ascii 'B'].foldl editByte con

/- Where browsing from the line in `live` has led: `depth` entries up, the line parked as
far as `h_saved` holds it, and the history as it was. -/
structure Browsing (live con : Console) (depth : Nat) : Prop where
  inside : Inside con
  buf : con.rdBuf = live.rdBuf
  max : con.rdMax = live.rdMax
  hist : con.hist = live.hist
  histLen : con.histLen = live.histLen
  count : con.hCount = live.hCount
  next : con.hNext = live.hNext
  nav : con.hNav = depth
  parked : read con.hSaved 0 con.hSavedN = (read live.memory live.rdBuf live.rdN).take 127

/- `back` is `live` with the first 127 bytes of its line, the cursor at their end. -/
structure Restored (live back : Console) : Prop where
  buf : back.rdBuf = live.rdBuf
  line : read back.memory back.rdBuf back.rdN = (read live.memory live.rdBuf live.rdN).take 127
  length : back.rdN = min live.rdN 127
  cursor : back.rdPos = back.rdN
  nav : back.hNav = 0
  hist : back.hist = live.hist
  histLen : back.histLen = live.histLen
  count : back.hCount = live.hCount
  next : back.hNext = live.hNext

variable {live con : Console} {depth : Nat}

/- The state in which a history key reaches `hist_nav`. -/
def inSequence (con : Console) : Console := { con with esc := .inCsi, csiNum := 0 }

theorem pressUpIs (normal : con.esc = .normal) : con.pressUp = { con.inSequence.histNav (-1) with esc := .normal } := by
  unfold pressUp
  simp only [List.foldl_cons,List.foldl_nil,editByte,normal]
  rfl

theorem pressDownIs (normal : con.esc = .normal) : con.pressDown = { con.inSequence.histNav 1 with esc := .normal } := by
  unfold pressDown
  simp only [List.foldl_cons,List.foldl_nil,editByte,normal]
  rfl

/- Loading a line changes nothing else. -/
theorem Browsing.load (browsing : Browsing live con depth) (s : Buffer Byte) (n : Nat) :
    Browsing live { con.setLine s n with esc := .normal } depth := by
  have retyped := setLineRetyped browsing.inside s n
  have stored := retyped.stored
  have inside := retyped.inside
  exact
    { inside := ⟨inside.pos,inside.room,inside.buffer,inside.count,inside.next,inside.nav⟩
      buf := retyped.framed.buf.trans browsing.buf
      max := retyped.framed.max.trans browsing.max
      hist := stored.hist.trans browsing.hist
      histLen := stored.lengths.trans browsing.histLen
      count := stored.count.trans browsing.count
      next := stored.next.trans browsing.next
      nav := stored.nav.trans browsing.nav
      parked := by
        have parked := browsing.parked
        rw [← stored.saved,← stored.savedN] at parked
        exact parked }

/- Another depth of the same browsing. -/
theorem Browsing.moved (browsing : Browsing live con depth) (nav : Nat) (low : nav ≤ live.hCount) :
    Browsing live { con.inSequence with hNav := nav } nav :=
  { inside := ⟨browsing.inside.pos,browsing.inside.room,browsing.inside.buffer,browsing.inside.count,browsing.inside.next,
      low.trans (Nat.le_of_eq browsing.count.symm)⟩
    buf := browsing.buf
    max := browsing.max
    hist := browsing.hist
    histLen := browsing.histLen
    count := browsing.count
    next := browsing.next
    nav := rfl
    parked := browsing.parked }

theorem parkedLine (live : Console) :
    read live.parkLine.hSaved 0 live.parkLine.hSavedN = (read live.memory live.rdBuf live.rdN).take 127 := by
  have cut : (if live.rdN < 128 then live.rdN else 128 - 1) = min 127 live.rdN := by
    split <;> omega
  simp only [parkLine,cut]
  rw [copyRead,readTake]

/- The first press parks the line. -/
theorem firstUp (inside : Inside live) (start : live.hNav = 0) (some : 1 ≤ live.hCount) (normal : live.esc = .normal) :
    Browsing live live.pressUp 1 ∧ live.pressUp.esc = .normal := by
  have parks : live.inSequence.park = live.inSequence.parkLine := if_pos start
  have more : live.inSequence.hNav < live.inSequence.hCount := Nat.lt_of_le_of_lt (Nat.le_of_eq start) some
  have parked : Browsing live { live.inSequence.parkLine with hNav := 1 } 1 :=
    { inside := ⟨inside.pos,inside.room,inside.buffer,inside.count,inside.next,some⟩
      buf := rfl
      max := rfl
      hist := rfl
      histLen := rfl
      count := rfl
      next := rfl
      nav := rfl
      parked := live.parkedLine }
  have one : live.inSequence.hNav + 1 = 1 := congrArg (· + 1) start
  rw [pressUpIs normal,histNavOlder more,parks,one]
  exact ⟨parked.load _ _,rfl⟩

theorem nextUp (browsing : Browsing live con (depth + 1)) (more : depth + 1 < live.hCount) (normal : con.esc = .normal) :
    Browsing live con.pressUp (depth + 2) ∧ con.pressUp.esc = .normal := by
  have nav : con.inSequence.hNav = depth + 1 := browsing.nav
  have stays : con.inSequence.park = con.inSequence := if_neg (by omega)
  have older : con.inSequence.hNav < con.inSequence.hCount := by
    have count : con.inSequence.hCount = live.hCount := browsing.count
    omega
  rw [pressUpIs normal,histNavOlder older,stays,nav]
  exact ⟨(browsing.moved (depth + 2) more).load _ _,rfl⟩

theorem ups (inside : Inside live) (start : live.hNav = 0) (normal : live.esc = .normal) (stored : depth + 1 ≤ live.hCount) :
    Browsing live (pressUp^[depth + 1] live) (depth + 1) ∧ (pressUp^[depth + 1] live).esc = .normal := by
  induction depth with
  | zero => exact firstUp inside start stored normal
  | succ depth ih =>
    obtain ⟨browsing,idle⟩ := ih (Nat.le_of_succ_le stored)
    rw [Function.iterate_succ_apply']
    exact nextUp browsing stored idle

theorem nextDown (browsing : Browsing live con (depth + 2)) (normal : con.esc = .normal) :
    Browsing live con.pressDown (depth + 1) ∧ con.pressDown.esc = .normal := by
  have nav : con.inSequence.hNav = depth + 2 := browsing.nav
  have bound : con.hNav ≤ con.hCount := browsing.inside.nav
  have inside : Inside con.inSequence := ⟨browsing.inside.pos,browsing.inside.room,browsing.inside.buffer,browsing.inside.count,
    browsing.inside.next,browsing.inside.nav⟩
  have low : depth + 1 ≤ live.hCount := by
    have count := browsing.count
    have deep := browsing.nav
    omega
  rw [pressDownIs normal,histNavNewer inside nav]
  exact ⟨(browsing.moved (depth + 1) low).load _ _,rfl⟩

theorem downs (browsing : Browsing live con (depth + 1)) (normal : con.esc = .normal) :
    Browsing live (pressDown^[depth] con) 1 ∧ (pressDown^[depth] con).esc = .normal := by
  induction depth generalizing con with
  | zero => exact ⟨browsing,normal⟩
  | succ depth ih =>
    obtain ⟨nearer,idle⟩ := nextDown browsing normal
    exact ih nearer idle

/- The last press loads the parked line, which fits the buffer. -/
theorem lastDown (browsing : Browsing live con 1) (normal : con.esc = .normal) (inside : Inside live) : Restored live con.pressDown := by
  have first : con.inSequence.hNav = 1 := browsing.nav
  have back := (browsing.moved 0 (Nat.zero_le _)).load con.hSaved con.hSavedN
  have length : con.hSavedN = min live.rdN 127 := by
    have lengths := congrArg List.length browsing.parked
    rw [readLength,List.length_take,readLength,Nat.min_comm] at lengths
    exact lengths
  have fits : ¬ con.hSavedN ≥ con.rdMax := by
    have room := inside.room
    rw [browsing.max]
    omega
  have whole : ({ con.inSequence with hNav := 0 } : Console).loaded con.hSavedN = con.hSavedN := if_neg fits
  have loads := setLineIs (browsing.moved 0 (Nat.zero_le _)).inside con.hSaved con.hSavedN
  rw [whole] at loads
  rw [pressDownIs normal,histNavNewest first]
  refine ⟨back.buf,?_,?_,?_,back.nav,back.hist,back.histLen,back.count,back.next⟩
  · rw [← browsing.parked]
    change read (setLine _ con.hSaved con.hSavedN).memory (setLine _ con.hSaved con.hSavedN).rdBuf (setLine _ con.hSaved con.hSavedN).rdN = _
    rw [loads]
    exact copyRead
  · rw [← length]
    exact congrArg Console.rdN loads
  · exact (congrArg Console.rdPos loads).trans (congrArg Console.rdN loads).symm

/- As often down as up: the line is back as far as `h_saved` holds it, and the history is untouched. -/
theorem browsesBack (inside : Inside con) (live : con.hNav = 0) (normal : con.esc = .normal) (k : Nat) (positive : 0 < k)
    (stored : k ≤ con.hCount) : Restored con (pressDown^[k] (pressUp^[k] con)) := by
  obtain ⟨depth,rfl⟩ := Nat.exists_eq_add_of_lt positive
  rw [Nat.zero_add] at stored ⊢
  obtain ⟨browsing,idle⟩ := ups inside live normal stored
  obtain ⟨nearest,idle'⟩ := downs browsing idle
  rw [Function.iterate_succ_apply']
  exact lastDown nearest idle' inside

/- A history of one line, and `x` typed so often that the next line has this length. -/
def typedLine (length : Nat) : Console :=
  run consoleSystem (.boot (fun _ => 0) [] 1)
    [.readline 5 1000 64,.irq (asciiText "ls" ++ [13]),.readline 5 2000 256,.irq (List.replicate length (ascii 'x'))]

theorem browsesBackOnce : Restored (typedLine 2) (pressDown^[1] (pressUp^[1] (typedLine 2))) :=
  browsesBack ⟨by decide +kernel,by decide +kernel,by decide +kernel,by decide +kernel,by decide +kernel,by decide +kernel⟩
    (by decide +kernel) (by decide +kernel) 1 (by decide) (by decide +kernel)

/- The 128th byte of a line is lost, and without a press the cursor stays where it is. -/
theorem longLineCut : ((typedLine 128).rdN = 128 ∧ (typedLine 128).rdMax = 256 ∧ (typedLine 128).hNav = 0 ∧ (typedLine 128).hCount = 1 ∧
      (pressDown^[1] (pressUp^[1] (typedLine 128))).rdN = 127) ∧
    (pressDown^[0] (pressUp^[0] (typedLine 2).goLeft)).rdPos = 1 ∧ (pressDown^[0] (pressUp^[0] (typedLine 2).goLeft)).rdN = 2 := by
  decide +kernel

end Console
end Mukern
