import Mukern.ReadLines

/-! The terminal behind the UART during a read: a row of cells and a cursor. Each
command redraws the line with bytes of its own; a deletion in the middle of the line
goes wrong, because `redraw_from` has moved the cursor back already. -/
namespace Mukern
open Buffers Transition

structure Screen where
  cells : Buffer Byte
  cursor : Nat

def printable (c : Byte) : Prop := 0x20 ≤ c ∧ c < 0x7f

instance (c : Byte) : Decidable (printable c) := inferInstanceAs (Decidable (_ ∧ _))

namespace Screen

def put (screen : Screen) (c : Byte) : Screen :=
  if c = 8 then { screen with cursor := screen.cursor - 1 }
  else if printable c then ⟨screen.cells.set screen.cursor c,screen.cursor + 1⟩
  else screen

def feed (screen : Screen) (text : List Byte) : Screen := text.foldl put screen

/- The row that shows the line from `prompt` on, and blanks after it. -/
def showing (base : Buffer Byte) (prompt : Nat) (line : List Byte) (pos : Nat) : Screen :=
  ⟨fun i => if i < prompt then base i else (line)[i - prompt]?.getD (ascii ' '),prompt + pos⟩

variable {base : Buffer Byte} {prompt pos k : Nat} {line left right old text : List Byte} {c x : Byte}

theorem feedAppend (screen : Screen) (first second : List Byte) : screen.feed (first ++ second) = (screen.feed first).feed second :=
  List.foldl_append

theorem showingBlank : showing base prompt (line ++ [ascii ' ']) pos = showing base prompt line pos := by
  unfold showing
  congr 1
  funext i
  split
  · rfl
  · rcases Nat.lt_trichotomy (i - prompt) line.length with inside | last | past
    · rw [List.getElem?_append_left inside]
    · rw [last,List.getElem?_concat_length,List.getElem?_eq_none (Nat.le_refl _)]
      rfl
    · rw [List.getElem?_eq_none (by rw [List.length_append]; exact past),List.getElem?_eq_none past.le]

theorem putOver (shown : printable c) :
    (showing base prompt (left ++ x :: right) left.length).put c = showing base prompt (left ++ c :: right) (left.length + 1) := by
  have other : c ≠ 8 := by
    rintro rfl
    exact absurd shown (by decide)
  rw [put,if_neg other,if_pos shown]
  unfold showing
  congr 1
  funext i
  by_cases here : i = prompt + left.length
  · have past : ¬ i < prompt := by omega
    have place : i - prompt = left.length := by omega
    simp only [Buffer.set,if_pos here,if_neg past,place,List.getElem?_append_right (Nat.le_refl _),Nat.sub_self,List.getElem?_cons_zero]
    rfl
  · simp only [Buffer.set,if_neg here]
    split
    · rfl
    · rcases Nat.lt_or_ge (i - prompt) left.length with inside | beyond
      · rw [List.getElem?_append_left inside,List.getElem?_append_left inside]
      · obtain ⟨j,next⟩ := Nat.exists_eq_add_of_lt (Nat.lt_of_le_of_ne beyond (by omega))
        have place : i - prompt - left.length = j + 1 := by omega
        rw [List.getElem?_append_right beyond,List.getElem?_append_right beyond,place,List.getElem?_cons_succ,List.getElem?_cons_succ]

/- As many cells as there are bytes are overwritten. -/
theorem feedOver (shown : ∀ c ∈ text, printable c) (length : old.length = text.length) :
    (showing base prompt (left ++ (old ++ right)) left.length).feed text =
      showing base prompt (left ++ (text ++ right)) (left.length + text.length) := by
  induction text generalizing left old with
  | nil =>
    rw [List.length_nil,List.length_eq_zero_iff] at length
    rw [length]
    rfl
  | cons c text ih =>
    cases old with
    | nil => cases length
    | cons x old =>
      have next : (showing base prompt (left ++ [c] ++ (old ++ right)) (left ++ [c]).length).feed text =
          showing base prompt (left ++ [c] ++ (text ++ right)) ((left ++ [c]).length + text.length) :=
        ih (fun c inside => shown c (List.mem_cons_of_mem _ inside)) (Nat.succ.inj length)
      rw [List.length_append,List.length_singleton,← List.append_cons,← List.append_cons,Nat.add_assoc,Nat.add_comm 1] at next
      rw [feed,List.foldl_cons,List.cons_append,putOver (shown c List.mem_cons_self)]
      exact next

/- The last byte may go into the blank after the line. -/
theorem feedAfter (shown : ∀ c ∈ text, printable c) (length : right.length + 1 = text.length) :
    (showing base prompt (left ++ right) left.length).feed text = showing base prompt (left ++ text) (left.length + text.length) := by
  have cells : (right ++ [ascii ' ']).length = text.length := by
    rw [List.length_append]
    exact length
  have typed : (showing base prompt (left ++ (right ++ [ascii ' '] ++ [])) left.length).feed text =
      showing base prompt (left ++ (text ++ [])) (left.length + text.length) := feedOver shown cells
  rwa [List.append_nil,List.append_nil,← List.append_assoc,showingBlank] at typed

theorem feedAppended (shown : ∀ c ∈ text, printable c) :
    (showing base prompt left left.length).feed text = showing base prompt (left ++ text) (left ++ text).length := by
  induction text generalizing left with
  | nil =>
    rw [List.append_nil]
    rfl
  | cons c text ih =>
    have first : (showing base prompt left left.length).put c = showing base prompt (left ++ [c]) (left ++ [c]).length := by
      rw [← showingBlank,putOver (shown c List.mem_cons_self),List.length_append]
      rfl
    have next : (showing base prompt (left ++ [c]) (left ++ [c]).length).feed text =
        showing base prompt (left ++ [c] ++ text) (left ++ [c] ++ text).length := ih fun c inside => shown c (List.mem_cons_of_mem _ inside)
    rw [← List.append_cons] at next
    rw [feed,List.foldl_cons,first]
    exact next

theorem feedBack (short : k ≤ pos) : (showing base prompt line pos).feed (List.replicate k 8) = showing base prompt line (pos - k) := by
  induction k generalizing pos with
  | zero => rfl
  | succ k ih =>
    have back : (showing base prompt line pos).put 8 = showing base prompt line (pos - 1) := by
      rw [put,if_pos rfl]
      unfold showing
      congr 1
      exact Nat.add_sub_assoc (by omega) prompt
    rw [List.replicate_succ,feed,List.foldl_cons,back]
    exact (ih (by omega)).trans (by rw [Nat.sub_sub,Nat.add_comm 1])

/- `uart_puts("\b \b")` at the end of the line. -/
theorem feedRubOut : (showing base prompt (line ++ [c]) (line.length + 1)).feed [8,ascii ' ',8] = showing base prompt line line.length := by
  have blank : printable (ascii ' ') := by decide
  have back : (showing base prompt (line ++ [c]) (line.length + 1)).put 8 = showing base prompt (line ++ [c]) line.length :=
    feedBack (k := 1) (Nat.le_add_left 1 _)
  have forth : (showing base prompt (line ++ [ascii ' ']) (line.length + 1)).put 8 = showing base prompt (line ++ [ascii ' ']) line.length :=
    feedBack (k := 1) (Nat.le_add_left 1 _)
  rw [feed,List.foldl_cons,List.foldl_cons,List.foldl_cons,List.foldl_nil,back,putOver blank,forth,showingBlank]

theorem feedErase : (showing base prompt line line.length).feed (List.replicate line.length [8,ascii ' ',8]).flatten = showing base prompt [] 0 := by
  induction line using List.reverseRecOn with
  | nil => rfl
  | append_singleton line c ih =>
    rw [List.length_append,List.length_singleton,List.replicate_succ,List.flatten_cons,feedAppend,feedRubOut]
    exact ih

end Screen
namespace Console
variable {con con' : Console} {left right emitted : List Byte} {c : Byte}

/- The row as the claimed line and cursor would have it. -/
def shown (con : Console) (base : Buffer Byte) (prompt : Nat) : Screen :=
  .showing base prompt (con.before ++ con.after) con.rdPos

/- Only bytes that the terminal shows are ever stored. -/
structure Stocked (con : Console) : Prop where
  entries : ∀ slot, ∀ c ∈ read (con.hist slot) 0 (con.histLen slot), printable c
  parked : ∀ c ∈ read con.hSaved 0 con.hSavedN, printable c

structure Legible (con : Console) : Prop where
  text : ∀ c ∈ con.before ++ con.after, printable c
  stocked : Stocked con

theorem Legible.withRing {con : Console} (legible : Legible con) (ring : Ring Byte 256) : Legible { con with ring := ring } :=
  ⟨legible.text,legible.stocked.entries,legible.stocked.parked⟩

def Redrawn (con con' : Console) : Prop :=
  ∃ emitted, con'.uart = con.uart ++ emitted ∧ ∀ base prompt, (con.shown base prompt).feed emitted = con'.shown base prompt

theorem Redrawn.refl : Redrawn con con := ⟨[],(List.append_nil _).symm,fun _ _ => rfl⟩

theorem Redrawn.trans {con'' : Console} (first : Redrawn con con') (second : Redrawn con' con'') : Redrawn con con'' := by
  obtain ⟨text,uart,feeds⟩ := first
  obtain ⟨text',uart',feeds'⟩ := second
  refine ⟨text ++ text',by rw [uart',uart,List.append_assoc],fun base prompt => ?_⟩
  rw [Screen.feedAppend,feeds,feeds']

theorem Retyped.redrawn (retyped : Retyped con con' left right) (uart : con'.uart = con.uart ++ emitted)
    (feeds : ∀ base prompt, (Screen.showing base prompt (con.before ++ con.after) con.before.length).feed emitted =
      .showing base prompt (left ++ right) left.length) : Redrawn con con' := by
  have pos : con'.rdPos = left.length := by rw [← beforeLength,retyped.before]
  refine ⟨emitted,uart,fun base prompt => ?_⟩
  have drawn := feeds base prompt
  rw [beforeLength] at drawn
  rw [shown,shown,drawn,retyped.before,retyped.after,pos]

theorem Stored.stocked (stored : Stored con con') (stocked : Stocked con) : Stocked con' := by
  obtain ⟨hist,lengths,_,_,_,saved,savedN⟩ := stored
  exact ⟨by rw [hist,lengths]; exact stocked.entries,by rw [saved,savedN]; exact stocked.parked⟩

theorem Retyped.legible (retyped : Retyped con con' left right) (stocked : Stocked con) (text : ∀ c ∈ left ++ right, printable c) :
    Legible con' :=
  ⟨by rw [retyped.before,retyped.after]; exact text,retyped.stored.stocked stocked⟩

theorem insertRedrawn (inside : Inside con) (legible : Legible con) (graphic : printable c) :
    Redrawn con (con.insChar c) ∧ Legible (con.insChar c) := by
  by_cases free : con.rdN + 1 < con.rdMax
  · have retyped := insCharRetyped inside free (c := c)
    have typed : ∀ x ∈ c :: con.after, printable x := by
      intro x member
      rcases List.mem_cons.mp member with rfl | member
      · exact graphic
      · exact legible.text x (List.mem_append_right _ member)
    constructor
    · refine retyped.redrawn (by rw [insCharIs inside free,List.append_assoc]) fun base prompt => ?_
      rw [Screen.feedAppend,Screen.feedAfter typed rfl,← afterLength,Screen.feedBack (by rw [List.length_cons]; omega),List.length_cons,
        List.append_cons,List.length_append]
      congr 1
      rw [List.length_singleton]
      omega
    · refine retyped.legible legible.stocked fun x member => ?_
      rw [← List.append_cons] at member
      rcases List.mem_append.mp member with member | member
      · exact legible.text x (List.mem_append_left _ member)
      · exact typed x member
  · rw [insCharFull inside free]
    exact ⟨.refl,legible⟩

theorem deleteLeftLegible (inside : Inside con) (legible : Legible con) : Legible con.delLeft := by
  rcases List.eq_nil_or_concat con.before with none | ⟨left,c,shape⟩
  · have start : con.rdPos = 0 := by rw [← beforeLength,none]; rfl
    rwa [delLeftStart start]
  · rw [List.concat_eq_append] at shape
    refine (delLeftRetyped inside shape).legible legible.stocked fun x member => legible.text x ?_
    rw [shape,List.append_assoc]
    rcases List.mem_append.mp member with member | member
    · exact List.mem_append_left _ member
    · exact List.mem_append_right _ (List.mem_append_right _ member)

theorem deleteAtLegible (inside : Inside con) (legible : Legible con) : Legible con.delAt := by
  rcases shape : con.after with _ | ⟨c,right⟩
  · have last : con.rdPos ≥ con.rdN := by
      have none := con.afterLength
      rw [shape,List.length_nil] at none
      omega
    rwa [delAtEnd last]
  · refine (delAtRetyped inside shape).legible legible.stocked fun x member => legible.text x ?_
    rw [shape]
    rcases List.mem_append.mp member with member | member
    · exact List.mem_append_left _ member
    · exact List.mem_append_right _ (List.mem_cons_of_mem _ member)

/- Backspace at the end of the line. -/
theorem deleteLeftRedrawn (inside : Inside con) (last : ¬ (0 < con.rdPos ∧ con.rdPos < con.rdN)) : Redrawn con con.delLeft := by
  rcases List.eq_nil_or_concat con.before with none | ⟨left,c,shape⟩
  · have start : con.rdPos = 0 := by rw [← beforeLength,none]; rfl
    rw [delLeftStart start]
    exact .refl
  · rw [List.concat_eq_append] at shape
    have later : con.rdPos = left.length + 1 := by rw [← beforeLength,shape,List.length_append]; rfl
    have tail : con.rdN - con.rdPos = 0 := by omega
    have none : con.after = [] := List.length_eq_zero_iff.mp (con.afterLength.trans tail)
    have uart : con.delLeft.uart = con.uart ++ [8,ascii ' ',8] := by
      rw [delLeftIs inside (by omega),none,tail]
      simp only [List.append_nil,List.append_assoc]
      rfl
    refine (delLeftRetyped inside shape).redrawn uart fun base prompt => ?_
    rw [shape,none,List.append_nil,List.append_nil,List.length_append]
    exact Screen.feedRubOut

/- Delete on the last byte of the line. -/
theorem deleteAtRedrawn (inside : Inside con) (last : ¬ con.rdPos + 1 < con.rdN) : Redrawn con con.delAt := by
  rcases shape : con.after with _ | ⟨c,right⟩
  · have ended : con.rdPos ≥ con.rdN := by
      have none := con.afterLength
      rw [shape,List.length_nil] at none
      omega
    rw [delAtEnd ended]
    exact .refl
  · have cells := con.afterLength
    rw [shape,List.length_cons] at cells
    have none : right = [] := List.length_eq_zero_iff.mp (by omega)
    have tail : con.rdN - 1 - con.rdPos = 0 := by omega
    subst none
    have uart : con.delAt.uart = con.uart ++ [ascii ' ',8] := by
      rw [delAtIs (by omega),shape,tail]
      simp only [List.tail_cons,List.append_nil,List.append_assoc]
      rfl
    refine (delAtRetyped inside shape).redrawn uart fun base prompt => ?_
    have blank : ∀ x ∈ [ascii ' '], printable x := by decide
    have erased : (Screen.showing base prompt (con.before ++ ([c] ++ [])) con.before.length).feed [ascii ' '] =
        .showing base prompt (con.before ++ ([ascii ' '] ++ [])) (con.before.length + 1) := Screen.feedOver blank rfl
    rw [List.append_nil,List.append_nil,Screen.showingBlank] at erased
    have both : [ascii ' ',(8 : Byte)] = [ascii ' '] ++ List.replicate 1 8 := rfl
    rw [shape,both,Screen.feedAppend,erased,Screen.feedBack (Nat.le_add_left 1 _),List.append_nil]
    rfl

theorem leftRedrawn (inside : Inside con) (legible : Legible con) : Redrawn con con.goLeft ∧ Legible con.goLeft := by
  rcases List.eq_nil_or_concat con.before with none | ⟨left,c,shape⟩
  · have start : con.rdPos = 0 := by rw [← beforeLength,none]; rfl
    rw [goLeft,if_neg (by omega)]
    exact ⟨.refl,legible⟩
  · rw [List.concat_eq_append] at shape
    have later : con.rdPos = left.length + 1 := by rw [← beforeLength,shape,List.length_append]; rfl
    have retyped := goLeftRetyped inside shape
    constructor
    · have uart : con.goLeft.uart = con.uart ++ List.replicate 1 8 := by
        rw [goLeft,if_pos (by omega)]
        rfl
      refine retyped.redrawn uart fun base prompt => ?_
      rw [Screen.feedBack (by rw [beforeLength]; omega),shape,List.length_append,List.append_assoc]
      rfl
    · refine retyped.legible legible.stocked fun x member => legible.text x ?_
      rwa [shape,List.append_assoc]

theorem rightRedrawn (inside : Inside con) (legible : Legible con) : Redrawn con con.goRight ∧ Legible con.goRight := by
  rcases shape : con.after with _ | ⟨c,right⟩
  · have last : con.rdPos ≥ con.rdN := by
      have none := con.afterLength
      rw [shape,List.length_nil] at none
      omega
    rw [goRight,if_neg (by omega)]
    exact ⟨.refl,legible⟩
  · have cells := con.afterLength
    rw [shape,List.length_cons] at cells
    have retyped := goRightRetyped inside shape
    constructor
    · have here : con.memory (con.rdBuf + con.rdPos) = c := by
        rw [Console.after,cells.symm,readCons] at shape
        exact (List.cons.inj shape).1
      have uart : con.goRight.uart = con.uart ++ [c] := by
        rw [goRight,if_pos (by omega),here]
        rfl
      refine retyped.redrawn uart fun base prompt => ?_
      have graphic : printable c := legible.text c (by rw [shape]; exact List.mem_append_right _ List.mem_cons_self)
      rw [shape,List.length_append,← List.append_cons]
      exact Screen.putOver graphic
    · refine retyped.legible legible.stocked fun x member => legible.text x ?_
      rwa [shape,List.append_cons]

theorem homeRedrawn (inside : Inside con) (legible : Legible con) : Redrawn con con.goHome ∧ Legible con.goHome := by
  have retyped := goHomeRetyped inside
  constructor
  · refine retyped.redrawn (by rw [goHomeIs]) fun base prompt => ?_
    rw [Screen.feedBack (Nat.le_of_eq beforeLength.symm),beforeLength,Nat.sub_self,List.nil_append]
    rfl
  · exact retyped.legible legible.stocked legible.text

/- The rest of the line is printed over itself. -/
theorem endFeeds (legible : Legible con) (base : Buffer Byte) (prompt : Nat) :
    (Screen.showing base prompt (con.before ++ con.after) con.before.length).feed con.after =
      .showing base prompt (con.before ++ con.after) (con.before ++ con.after).length := by
  have typed : (Screen.showing base prompt (con.before ++ (con.after ++ [])) con.before.length).feed con.after =
      .showing base prompt (con.before ++ (con.after ++ [])) (con.before.length + con.after.length) :=
    Screen.feedOver (fun x member => legible.text x (List.mem_append_right _ member)) rfl
  rwa [List.append_nil,← List.length_append] at typed

theorem endRedrawn (inside : Inside con) (legible : Legible con) : Redrawn con con.goEnd ∧ Legible con.goEnd := by
  have retyped := goEndRetyped inside
  constructor
  · refine retyped.redrawn (by rw [goEndIs inside.pos]) fun base prompt => ?_
    rw [endFeeds legible,List.append_nil]
  · refine retyped.legible legible.stocked fun x member => legible.text x ?_
    rwa [List.append_nil] at member

theorem eraseFeeds (inside : Inside con) (legible : Legible con) (base : Buffer Byte) (prompt : Nat) :
    (Screen.showing base prompt (con.before ++ con.after) con.before.length).feed
      (con.after ++ (List.replicate con.rdN [8,ascii ' ',8]).flatten) = .showing base prompt [] 0 := by
  rw [Screen.feedAppend,endFeeds legible,← lengths inside,← List.length_append,Screen.feedErase]

theorem killRedrawn (inside : Inside con) (legible : Legible con) : Redrawn con con.killLine ∧ Legible con.killLine := by
  have retyped := killLineRetyped inside
  constructor
  · have uart : con.killLine.uart = con.uart ++ (con.after ++ (List.replicate con.rdN [8,ascii ' ',8]).flatten) := by
      rw [killLine,goEndIs inside.pos,eraseLineIs,← List.append_assoc]
    exact retyped.redrawn uart (eraseFeeds inside legible)
  · refine retyped.legible legible.stocked fun x member => ?_
    cases member

theorem setLineRedrawn (inside : Inside con) (legible : Legible con) {s : Buffer Byte} {n : Nat} (graphic : ∀ c ∈ read s 0 n, printable c) :
    Redrawn con (con.setLine s n) ∧ Legible (con.setLine s n) := by
  have retyped := setLineRetyped inside s n
  have text : ∀ c ∈ read s 0 (con.loaded n), printable c := by
    intro c member
    rw [loadedText (Nat.sub_add_cancel (Nat.one_le_of_lt inside.room)).symm] at member
    exact graphic c (List.mem_of_mem_take member)
  constructor
  · have uart : (con.setLine s n).uart =
        con.uart ++ (con.after ++ (List.replicate con.rdN [8,ascii ' ',8]).flatten ++ read s 0 (con.loaded n)) := by
      rw [setLineIs inside,List.append_assoc con.uart,List.append_assoc con.uart]
    refine retyped.redrawn uart fun base prompt => ?_
    have typed : (Screen.showing base prompt [] 0).feed (read s 0 (con.loaded n)) =
        .showing base prompt (read s 0 (con.loaded n)) (read s 0 (con.loaded n)).length := Screen.feedAppended text
    rw [Screen.feedAppend,eraseFeeds inside legible,typed,List.append_nil]
  · refine retyped.legible legible.stocked fun x member => text x ?_
    rwa [List.append_nil] at member

theorem browseRedrawn (inside : Inside con) (legible : Legible con) (browsed : Browsed con con') (nav : con'.hNav ≤ con.hCount)
    (parked : ∀ c ∈ read con'.hSaved 0 con'.hSavedN, printable c) {s : Buffer Byte} {n : Nat} (graphic : ∀ c ∈ read s 0 n, printable c) :
    Redrawn con (con'.setLine s n) ∧ Legible (con'.setLine s n) := by
  obtain ⟨left,right⟩ := browsed.text
  have start : Redrawn con con' :=
    ⟨[],by rw [browsed.uart,List.append_nil],fun base prompt => by rw [shown,shown,left,right,browsed.pos]; rfl⟩
  have legible' : Legible con' :=
    ⟨by rw [left,right]; exact legible.text,by rw [browsed.hist,browsed.histLen]; exact legible.stocked.entries,parked⟩
  obtain ⟨drawn,kept⟩ := setLineRedrawn (browsed.inside inside nav) legible' graphic
  exact ⟨start.trans drawn,kept⟩

theorem olderRedrawn (inside : Inside con) (legible : Legible con) : Redrawn con (con.histNav (-1)) ∧ Legible (con.histNav (-1)) := by
  by_cases more : con.hNav < con.hCount
  · have parked : ∀ c ∈ read con.park.hSaved 0 con.park.hSavedN, printable c := by
      unfold park
      split
      · intro c member
        have whole := legible.text
        rw [← lineRead inside] at whole
        rw [parkLine,copyRead] at member
        exact whole c (readPrefix (by split <;> omega) member)
      · exact legible.stocked.parked
    rw [histNavOlder more]
    exact browseRedrawn inside legible (parkBrowsed (con.hNav + 1)) more parked (legible.stocked.entries _)
  · rw [histNavStays more]
    exact ⟨.refl,legible⟩

theorem newerRedrawn (inside : Inside con) (legible : Legible con) : Redrawn con (con.histNav 1) ∧ Legible (con.histNav 1) := by
  have bound := inside.nav
  rcases depth : con.hNav with _ | _ | deeper
  · rw [histNavLive depth]
    exact ⟨.refl,legible⟩
  · rw [histNavNewest depth]
    exact browseRedrawn inside legible (navBrowsed 0) (Nat.zero_le _) legible.stocked.parked legible.stocked.parked
  · rw [histNavNewer inside depth]
    exact browseRedrawn inside legible (navBrowsed (deeper + 1)) (by simp only; omega) legible.stocked.parked (legible.stocked.entries _)

/- The commands whose redraw is right; a byte that is inserted is printable. -/
def Draws (con : Console) : LineCommand → Prop
  | .insert c => printable c
  | .deleteLeft => ¬ (0 < con.rdPos ∧ con.rdPos < con.rdN)
  | .deleteAt => ¬ con.rdPos + 1 < con.rdN
  | .left | .right | .home | .toEnd | .kill | .older | .newer | .nothing => True

theorem plainDraws {k : LineCommand} (plain : k.Plain) : Draws con k := by
  cases k with
  | insert c | deleteLeft | deleteAt => cases plain
  | left | right | home | toEnd | kill | older | newer | nothing => trivial

theorem performRedrawn (inside : Inside con) (legible : Legible con) {k : LineCommand} (draws : Draws con k) :
    Redrawn con (con.perform k) ∧ Legible (con.perform k) := by
  cases k with
  | insert c => exact insertRedrawn inside legible draws
  | deleteLeft => exact ⟨deleteLeftRedrawn inside draws,deleteLeftLegible inside legible⟩
  | deleteAt => exact ⟨deleteAtRedrawn inside draws,deleteAtLegible inside legible⟩
  | left => exact leftRedrawn inside legible
  | right => exact rightRedrawn inside legible
  | home => exact homeRedrawn inside legible
  | toEnd => exact endRedrawn inside legible
  | kill => exact killRedrawn inside legible
  | older => exact olderRedrawn inside legible
  | newer => exact newerRedrawn inside legible
  | nothing => exact ⟨.refl,legible⟩

/- A deletion with text after the deleted byte. -/
def deletesInside (con : Console) (c : Byte) : Prop :=
  (con.esc = .normal ∧ (c = 0x7f ∨ c = 8) ∧ 0 < con.rdPos ∧ con.rdPos < con.rdN) ∨
  (con.esc = .inCsi ∧ c = ascii '~' ∧ con.csiNum = 3 ∧ con.rdPos + 1 < con.rdN)

instance (con : Console) (c : Byte) : Decidable (con.deletesInside c) := inferInstanceAs (Decidable (_ ∨ _))

theorem keyDraws (normal : con.esc = .normal) (whole : ¬ con.deletesInside c) {k : LineCommand} (key : LineKey.ofByte c = .command k) :
    Draws con k := by
  cases key ▸ LineKey.typedBy c with
  | deleteLeft delete => exact fun middle => whole (.inl ⟨normal,delete,middle⟩)
  | insert shown => exact shown
  | plain plain => exact plainDraws plain

theorem csiDraws (csi : con.esc = .inCsi) (whole : ¬ con.deletesInside c) : Draws con (.ofCsi con.csiNum.toNat c) := by
  rcases LineCommand.ofCsiDeletes con.csiNum.toNat c with ⟨deletes,tilde,three⟩ | plain
  · rw [deletes]
    exact fun middle => whole (.inr ⟨csi,tilde,BitVec.eq_of_toNat_eq three,middle⟩)
  · exact plainDraws plain

theorem Redrawn.grounded (drawn : Redrawn con con' ∧ Legible con') (esc : Esc) (num : BitVec 32) :
    Redrawn con { con' with esc := esc, csiNum := num } ∧ Legible { con' with esc := esc, csiNum := num } :=
  ⟨drawn.1,drawn.2.text,drawn.2.stocked.entries,drawn.2.stocked.parked⟩

/- A byte that leaves the request open redraws the line as it now is. -/
theorem byteRedrawn (inside : Inside con) (legible : Legible con) (whole : ¬ con.deletesInside c)
    (reading : (con.editByte c).rdActive = true) : Redrawn con (con.editByte c) ∧ Legible (con.editByte c) := by
  rcases esc : con.esc with _ | _ | _
  · simp only [editByte,esc,normalKeyIs] at reading ⊢
    rcases key : LineKey.ofByte c with k | _ | _ | _
    · exact performRedrawn inside legible (keyDraws esc whole key)
    · exact Redrawn.grounded ⟨.refl,legible⟩ _ _
    · rw [key] at reading
      cases reading
    · rw [key] at reading
      cases reading
  · simp only [editByte,esc,afterEsc]
    exact Redrawn.grounded ⟨.refl,legible⟩ _ _
  · simp only [editByte,esc,insideCsi]
    split
    · exact Redrawn.grounded ⟨.refl,legible⟩ _ _
    · rw [csiFinalIs]
      exact Redrawn.grounded (performRedrawn inside legible (csiDraws esc whole)) _ _

/- Over the end of a line the history keeps to printable bytes. -/
theorem histPushStocked {s n : Nat} (stocked : Stocked con) (graphic : ∀ c ∈ read con.memory s n, printable c) : Stocked (con.histPush s n) := by
  unfold histPush
  split
  · exact stocked
  · simp only
    split
    · exact stocked
    · refine ⟨fun slot => ?_,stocked.parked⟩
      by_cases here : slot = con.hNext
      · subst here
        simp only [Function.update_self]
        intro c member
        rw [copyRead] at member
        exact graphic c (readPrefix (by split <;> omega) member)
      · simp only [Function.update_of_ne here]
        exact stocked.entries slot

theorem finishStocked (inside : Inside con) (legible : Legible con) : Stocked con.finishLine := by
  have kept : Stocked con.terminated := (terminatedRetyped inside).stored.stocked legible.stocked
  have line : read con.terminated.memory con.rdBuf con.rdN = read con.memory con.rdBuf con.rdN :=
    readCongr fun i _ high => setOther (by omega)
  have pushed : Stocked (con.terminated.histPush con.rdBuf con.rdN) := histPushStocked kept (by
    rw [line,lineRead inside]
    exact legible.text)
  exact ⟨pushed.entries,pushed.parked⟩

theorem performLegible (inside : Inside con) (legible : Legible con) {k : LineCommand} (graphic : ∀ c, k = .insert c → printable c) :
    Legible (con.perform k) := by
  cases k with
  | deleteLeft => exact deleteLeftLegible inside legible
  | deleteAt => exact deleteAtLegible inside legible
  | insert c => exact (insertRedrawn inside legible (graphic c rfl)).2
  | left | right | home | toEnd | kill | older | newer | nothing => exact (performRedrawn inside legible (by trivial)).2

theorem keyGraphic {x : Byte} (key : LineKey.ofByte c = .command (.insert x)) : printable x := by
  cases key ▸ LineKey.typedBy c with
  | insert shown => exact shown
  | plain plain => cases plain

theorem csiGraphic (number : Nat) {x : Byte} : LineCommand.ofCsi number c ≠ .insert x := by
  rcases LineCommand.ofCsiDeletes number c with ⟨deletes,_⟩ | plain
  · rw [deletes]
    nofun
  · intro inserts
    rw [inserts] at plain
    exact plain

/- Typed bytes keep to printable ones, also where the redraw is wrong. -/
theorem byteStocked (inside : Inside con) (legible : Legible con) (c : Byte) :
    Stocked (con.editByte c) ∧ ((con.editByte c).rdActive = true → Legible (con.editByte c)) := by
  have grounded {con' : Console} (legible : Legible con') (esc : Esc) (num : BitVec 32) : Legible { con' with esc := esc, csiNum := num } :=
    ⟨legible.text,legible.stocked.entries,legible.stocked.parked⟩
  have both {con' : Console} (legible : Legible con') : Stocked con' ∧ (con'.rdActive = true → Legible con') :=
    ⟨legible.stocked,fun _ => legible⟩
  rcases esc : con.esc with _ | _ | _
  · simp only [editByte,esc,normalKeyIs]
    rcases key : LineKey.ofByte c with k | _ | _ | _
    · exact both (performLegible inside legible fun x insert => keyGraphic (insert ▸ key))
    · exact both (grounded legible _ _)
    · exact ⟨finishStocked inside legible,fun active => by cases active⟩
    · have emptied := emptiedRetyped inside
      have nothing : ∀ b ∈ ([] : List Byte) ++ [], printable b := fun b member => absurd member List.not_mem_nil
      exact ⟨finishStocked emptied.inside (emptied.legible legible.stocked nothing),fun active => by cases active⟩
  · simp only [editByte,esc,afterEsc]
    exact both (grounded legible _ _)
  · simp only [editByte,esc,insideCsi]
    split
    · exact both (grounded legible _ _)
    · rw [csiFinalIs]
      exact both (grounded (performLegible inside legible fun x insert => absurd insert (csiGraphic _)) _ _)

/- In every state of every run. -/
structure Clean (con : Console) : Prop where
  sound : Sound con
  stocked : Stocked con
  legible : con.rdActive = true → Legible con

theorem editClean (turns : Nat) (clean : Clean con) : Clean (con.edit turns) := by
  induction turns generalizing con with
  | zero => exact clean
  | succ turns ih =>
    unfold edit
    split
    · rename_i active
      split
      · exact clean
      · rename_i c ring _
        have inside := clean.sound.reading active
        have legible := clean.legible active
        have moved := inside.withRing ring
        have legible' := legible.withRing ring
        obtain ⟨answer,typed⟩ := typesInside moved c
        obtain ⟨stocked,legible⟩ := byteStocked moved legible' c
        exact ih ⟨⟨typed.inside.count,typed.inside.next,fun _ => typed.inside⟩,stocked,legible⟩
    · exact clean

theorem besideClean (beside : Beside con con') (clean : Clean con) : Clean con' := by
  refine ⟨beside.sound clean.sound,beside.stored.stocked clean.stocked,fun active => ?_⟩
  rw [beside.active] at active
  have legible := clean.legible active
  have text := beside.text (clean.sound.reading active) active
  have left : con'.before = con.before := List.reverse_injective (congrArg LineText.left text)
  have right : con'.after = con.after := congrArg LineText.right text
  exact ⟨by rw [left,right]; exact legible.text,beside.stored.stocked clean.stocked⟩

theorem requestClean (clean : Clean con) (sender : Int) (data0 data1 : Nat) (least : 1 ≤ unsigned data1) :
    Clean (con.takeRequest sender data0 data1) := by
  have stocked : Stocked (con.takeRequest sender data0 data1) := ⟨clean.stocked.entries,clean.stocked.parked⟩
  have inside : Inside (con.takeRequest sender data0 data1) :=
    ⟨Nat.le_refl 0,least,Nat.mod_lt _ (by decide),clean.sound.count,clean.sound.next,Nat.zero_le _⟩
  exact ⟨⟨clean.sound.count,clean.sound.next,fun _ => inside⟩,stocked,fun _ => ⟨nofun,stocked⟩⟩

theorem bootClean (memory : Buffer Byte) (waiting : List Byte) (self : Nat) : Clean (boot memory waiting self) := by
  refine ⟨(bootFollows memory waiting self).serving.sound,⟨fun _ => ?_,?_⟩,?_⟩
  · exact nofun
  · exact nofun
  · intro active
    cases active

theorem reachClean (reach : Reach consoleSystem (fun _ event => event.roomy) con) : Clean con := by
  refine reach.invariant Clean ?_ fun con event clean enabled roomy => ?_
  · rintro _ ⟨memory,waiting,self,rfl⟩
    exact bootClean memory waiting self
  · cases event with
    | irq waiting => exact editClean _ (besideClean (con.drainBeside waiting) clean)
    | write sender data0 data1 => exact besideClean (con.writeBeside sender data0 data1) clean
    | readline sender data0 data1 => exact editClean _ (requestClean clean sender data0 data1 roomy)
    | clients memory => exact besideClean (clientsBeside enabled) clean

end Console

/- A read, byte by byte: the UART delivers, or `edit` takes one turn of its loop. -/
inductive ReadStep where
  | arrive (waiting : List Byte)
  | turn
  deriving DecidableEq, Repr

def readSystem : System Console ReadStep where
  start con := ∃ idle sender data0 data1, Reach consoleSystem (fun _ event => event.roomy) idle ∧ 1 ≤ unsigned data1 ∧
    con = idle.takeRequest sender data0 data1
  enabled _ _ := True
  next con
    | .arrive waiting => con.drainRx waiting
    | .turn => con.edit 1

instance (con : Console) (step : ReadStep) : Decidable (readSystem.enabled con step) := inferInstanceAs (Decidable True)

/- The turn deletes nothing in the middle of the line. -/
def ReadStep.keepsTail (con : Console) (step : ReadStep) : Prop :=
  step = .turn → ∀ c ∈ con.ring.pop.map Prod.fst, ¬ con.deletesInside c

instance (con : Console) (step : ReadStep) : Decidable (step.keepsTail con) := inferInstanceAs (Decidable (_ → _))

namespace Console
variable {con con' : Console}

/- The loop of `edit` is a run of turns. -/
theorem editSucc (turns : Nat) : con.edit (turns + 1) = (con.edit 1).edit turns := by
  cases active : con.rdActive with
  | false => rw [editIdle active,editIdle active,editIdle active]
  | true =>
    rcases popped : con.ring.pop with _ | ⟨c,ring⟩
    · have stuck (turns : Nat) : con.edit turns = con := by
        cases turns with
        | zero => rfl
        | succ turns => rw [edit,if_pos active,popped]
      rw [stuck,stuck,stuck]
    · rw [editTurn active popped,editTurn active popped]
      rfl

theorem irqTurns (waiting : List Byte) :
    con.handle (.irq waiting) = run readSystem con (.arrive waiting :: List.replicate (con.drainRx waiting).ring.used .turn) := by
  have turns : ∀ n (con : Console), con.edit n = run readSystem con (List.replicate n .turn) := by
    intro n
    induction n with
    | zero => exact fun _ => rfl
    | succ n ih => exact fun con => (editSucc n).trans (ih _)
  exact turns _ _

/- While the request is open, what was sent since the prompt redraws the line. -/
structure Displays (start con : Console) : Prop where
  inside : Inside con
  redrawn : con.rdActive = true → Redrawn start con ∧ Legible con

theorem turnDisplays {start : Console} (displays : Displays start con)
    (whole : ∀ c ∈ con.ring.pop.map Prod.fst, ¬ con.deletesInside c) : Displays start (con.edit 1) := by
  cases active : con.rdActive with
  | false => rwa [editIdle active]
  | true =>
    rcases popped : con.ring.pop with _ | ⟨c,ring⟩
    · rw [edit,if_pos active,popped]
      exact displays
    · have kept : ¬ con.deletesInside c := whole c (by rw [popped]; rfl)
      obtain ⟨drawn,legible⟩ := displays.redrawn active
      have inside := displays.inside
      have moved := inside.withRing ring
      have legible' := legible.withRing ring
      obtain ⟨answer,typed⟩ := typesInside moved c
      rw [editTurn active popped]
      refine ⟨typed.inside,fun reading => ?_⟩
      obtain ⟨drawn',legible''⟩ := byteRedrawn moved legible' kept reading
      exact ⟨drawn.trans drawn',legible''⟩

theorem runDisplays {start : Console} (displays : Displays start con) {steps : List ReadStep}
    (admits : Admits readSystem (fun con step => step.keepsTail con) con steps) : Displays start (run readSystem con steps) := by
  induction steps generalizing con with
  | nil => exact displays
  | cons step steps ih =>
    obtain ⟨_,keeps,rest⟩ := admits
    refine ih ?_ rest
    cases step with
    | arrive waiting =>
      have inside := displays.inside
      refine ⟨⟨inside.pos,inside.room,inside.buffer,inside.count,inside.next,inside.nav⟩,fun active => ?_⟩
      obtain ⟨drawn,legible⟩ := displays.redrawn active
      exact ⟨drawn,legible.text,legible.stocked.entries,legible.stocked.parked⟩
    | turn => exact turnDisplays displays (keeps rfl)

end Console

/- What the terminal shows of a line, from the prompt on. -/
structure Screen.Shows (start screen : Screen) (con : Console) : Prop where
  before : ∀ i < start.cursor, screen.cells i = start.cells i
  line : read screen.cells start.cursor con.rdN = read con.memory con.rdBuf con.rdN
  blank : ∀ i ≥ start.cursor + con.rdN, screen.cells i = ascii ' '
  cursor : screen.cursor = start.cursor + con.rdPos

theorem showingShows {con : Console} (inside : con.Inside) {start : Screen} : Screen.Shows start (con.shown start.cells start.cursor) con := by
  have length : (con.before ++ con.after).length = con.rdN := by rw [List.length_append,Console.lengths inside]
  refine ⟨fun i low => if_pos low,?_,fun i high => ?_,rfl⟩
  · rw [Console.lineRead inside]
    refine List.ext_getElem? fun k => ?_
    rcases Nat.lt_or_ge k con.rdN with low | high
    · have past : ¬ start.cursor + k < start.cursor := by omega
      have place : start.cursor + k - start.cursor = k := by omega
      rw [readGet low]
      simp only [Console.shown,Screen.showing,if_neg past,place]
      rw [List.getElem?_eq_getElem (by rwa [length])]
      rfl
    · rw [List.getElem?_eq_none (by rw [readLength]; exact high),List.getElem?_eq_none (by rw [length]; exact high)]
  · have past : ¬ i < start.cursor := by omega
    simp only [Console.shown,Screen.showing,if_neg past]
    rw [List.getElem?_eq_none (by rw [length]; omega)]
    rfl

/- The line is on the screen after every turn, if no byte is deleted in the middle of it. -/
theorem displaysLine {con : Console} (reach : Reach consoleSystem (fun _ event => event.roomy) con) (sender : Int) (data0 data1 : Nat)
    (least : 1 ≤ unsigned data1) (start : Screen) (blank : ∀ i ≥ start.cursor, start.cells i = ascii ' ') (steps : List ReadStep)
    (admits : Admits readSystem (fun con step => step.keepsTail con) (con.takeRequest sender data0 data1) steps)
    (reading : (run readSystem (con.takeRequest sender data0 data1) steps).rdActive = true) :
    ∃ sent, (run readSystem (con.takeRequest sender data0 data1) steps).uart = con.uart ++ sent ∧
      start.Shows (start.feed sent) (run readSystem (con.takeRequest sender data0 data1) steps) := by
  have clean := Console.requestClean (Console.reachClean reach) sender data0 data1 least
  have inside := clean.sound.reading rfl
  have displays := Console.runDisplays ⟨inside,fun _ => ⟨.refl,clean.legible rfl⟩⟩ admits
  obtain ⟨⟨sent,uart,feeds⟩,_⟩ := displays.redrawn reading
  have empty : (con.takeRequest sender data0 data1).shown start.cells start.cursor = start := by
    have cells : (con.takeRequest sender data0 data1).shown start.cells start.cursor =
        ⟨fun i => if i < start.cursor then start.cells i else ascii ' ',start.cursor⟩ := rfl
    rw [cells]
    obtain ⟨cells,cursor⟩ := start
    congr 1
    funext i
    split
    · rfl
    · rename_i past
      exact (blank i (Nat.le_of_not_lt past)).symm
  refine ⟨sent,uart,?_⟩
  have shown := feeds start.cells start.cursor
  rw [empty] at shown
  rw [shown]
  exact showingShows displays.inside

/- `ab`, a step to the left, and either key. -/
def middleKeys (key : Byte) : List ReadStep := [.arrive (asciiText "ab" ++ [0x02,key]),.turn,.turn,.turn,.turn]

def bootedConsole : Console := .boot (fun _ => 0) [] 1

def promptScreen : Screen := ⟨fun _ => ascii ' ',4⟩

theorem bootedReach : Reach consoleSystem (fun _ event => event.roomy) bootedConsole := .start ⟨_,_,_,rfl⟩

/- `Ctrl-A`: the line stays on the screen. -/
theorem displaysLineHome :
    ∃ sent, (run readSystem (bootedConsole.takeRequest 5 1000 128) (middleKeys 0x01)).uart = bootedConsole.uart ++ sent ∧
      promptScreen.Shows (promptScreen.feed sent) (run readSystem (bootedConsole.takeRequest 5 1000 128) (middleKeys 0x01)) :=
  displaysLine bootedReach 5 1000 128 (by decide) promptScreen (fun _ _ => rfl) (middleKeys 0x01) (by decide +kernel) (by decide +kernel)

/- Backspace deletes the `a`: the buffer holds `b`, and the cursor is left of where it belongs. -/
theorem middleBackspace :
    Reach consoleSystem (fun _ event => event.roomy) bootedConsole ∧ 1 ≤ unsigned 128 ∧ (∀ i ≥ promptScreen.cursor, promptScreen.cells i = ascii ' ') ∧
    (run readSystem (bootedConsole.takeRequest 5 1000 128) (middleKeys 0x7f)).rdActive = true ∧
    ¬ ∃ sent, (run readSystem (bootedConsole.takeRequest 5 1000 128) (middleKeys 0x7f)).uart = bootedConsole.uart ++ sent ∧
      promptScreen.Shows (promptScreen.feed sent) (run readSystem (bootedConsole.takeRequest 5 1000 128) (middleKeys 0x7f)) := by
  refine ⟨bootedReach,by decide,fun _ _ => rfl,by decide +kernel,?_⟩
  rintro ⟨sent,uart,shows⟩
  have sent' : sent = asciiText "ab" ++ [8,8] ++ asciiText "b" ++ [8,ascii ' ',8,8] := by
    refine List.append_cancel_left (uart.symm.trans ?_)
    decide +kernel
  have cursor := shows.cursor
  rw [sent'] at cursor
  revert cursor
  decide +kernel

end Mukern
