import Mathlib.Data.List.Destutter
import Mukern.LineRefinement
import Mukern.Library.Trace

/-! The command history of the console driver after any sequence of `hist_push` calls. -/
namespace Mukern
open Buffers

/- A call of `hist_push(s, n)`, with the memory it finds. -/
structure LinePush where
  memory : Buffer Byte
  s : Nat
  n : Nat

def LinePush.line (push : LinePush) : List Byte := read push.memory push.s push.n

/- The lines as the history can hold them. -/
def shortened (lines : List (List Byte)) : List (List Byte) := (lines.map (·.take 127)).filter (· ≠ [])

/- The newest 16 of them without immediate repetitions, the newest first. -/
def keptLines (lines : List (List Byte)) : List (List Byte) := ((shortened lines).reverse.destutter (· ≠ ·)).take 16

namespace Console

def pushLine (con : Console) (push : LinePush) : Console := { con with memory := push.memory }.histPush push.s push.n

def pushLines (con : Console) (pushes : List LinePush) : Console := pushes.foldl pushLine con

/- The history holds the newest lines, and no entry twice in a row. -/
structure KeepsLines (con : Console) (lines : List (List Byte)) : Prop where
  count : con.hCount ≤ 16
  short : ∀ i, con.histLen i ≤ 127
  apart : con.textOf.history.IsChain (· ≠ ·)
  newest : con.textOf.history = keptLines lines

/- The indices of the history stay in its array, and the lengths in its rows. -/
structure Rung (con : Console) : Prop where
  count : con.hCount ≤ 16
  next : con.hNext < 16
  short : ∀ i, con.histLen i ≤ 127

end Console

/- It fits the history, or begins unlike the line before it. -/
def LinePush.Distinct (push : LinePush) (lines : List (List Byte)) : Prop :=
  128 ≤ push.n → (shortened lines).getLast? ≠ some (push.line.take 127)

section spec
variable {line : List Byte} {lines : List (List Byte)}

theorem destutterHead (lines : List (List Byte)) : (lines.destutter (· ≠ ·)).head? = lines.head? := by
  have head : ∀ (lines : List (List Byte)) (line : List Byte), (lines.destutter' (· ≠ ·) line).head? = some line := by
    intro lines
    induction lines with
    | nil => exact fun _ => rfl
    | cons next lines ih =>
      intro line
      by_cases other : line ≠ next
      · rw [List.destutter'_cons_pos _ other,List.head?_cons]
      · rw [List.destutter'_cons_neg _ other]
        exact ih line
  cases lines with
  | nil => rfl
  | cons line lines => exact head lines line

theorem destutterCons (line : List Byte) (lines : List (List Byte)) : (line :: lines).destutter (· ≠ ·) =
    if lines.head? = some line then lines.destutter (· ≠ ·) else line :: lines.destutter (· ≠ ·) := by
  cases lines with
  | nil => rfl
  | cons next lines =>
    rw [List.destutter_cons_cons,List.head?_cons,List.destutter_cons']
    by_cases same : next = line
    · rw [if_pos (congrArg some same),if_neg (not_not.mpr same.symm),same]
    · rw [if_neg (fun equal => same (Option.some.inj equal)),if_pos (fun equal => same equal.symm)]

theorem keptHead (lines : List (List Byte)) : (keptLines lines).head? = (shortened lines).getLast? := by
  rw [keptLines,List.head?_take,if_neg (by decide),destutterHead,List.head?_reverse]

theorem keptApart (lines : List (List Byte)) : (keptLines lines).IsChain (· ≠ ·) := (List.isChain_destutter _ _).take 16

theorem keptSnoc (line : List Byte) (lines : List (List Byte)) : keptLines (lines ++ [line]) =
    if line = [] ∨ (keptLines lines).head? = some (line.take 127) then keptLines lines
    else (line.take 127 :: keptLines lines).take 16 := by
  have cut : line.take 127 = [] ↔ line = [] := by
    rw [List.take_eq_nil_iff]
    exact or_iff_right (by decide)
  by_cases empty : line = []
  · have same : shortened (lines ++ [line]) = shortened lines := by
      rw [shortened,List.map_append,List.filter_append,empty]
      exact List.append_nil _
    rw [if_pos (.inl empty),keptLines,same]
    rfl
  · have more : shortened (lines ++ [line]) = shortened lines ++ [line.take 127] := by
      have some : line.take 127 ≠ [] := mt cut.mp empty
      rw [shortened,List.map_append,List.filter_append,List.map_singleton,List.filter_singleton]
      simp only [decide_eq_true some]
      rfl
    rw [keptHead,keptLines,more,List.reverse_append,List.reverse_singleton,List.singleton_append,destutterCons,List.head?_reverse]
    by_cases again : (shortened lines).getLast? = some (line.take 127)
    · rw [if_pos again,if_pos (.inr again)]
      rfl
    · rw [if_neg again,if_neg (not_or.mpr ⟨empty,again⟩),keptLines,List.take_succ_cons,List.take_succ_cons,List.take_take]
      rfl

end spec

namespace Console
variable {con : Console} {push : LinePush} {lines : List (List Byte)}

/- What a call does to the history: an empty line, and one that the newest entry is, are skipped. -/
theorem historyStep (rung : Rung con) (push : LinePush) : Rung (con.pushLine push) ∧ (con.pushLine push).textOf.history =
    if push.line = [] ∨ con.textOf.history.head? = some push.line then con.textOf.history
    else (push.line.take 127 :: con.textOf.history).take 16 := by
  obtain ⟨memory,s,n⟩ := push
  let given : Console := { con with memory := memory }
  have history : given.textOf.history = con.textOf.history := rfl
  have newest : con.textOf.history.head? = some (read memory s n) ↔ given.hCount ≠ 0 ∧
      given.histLen ((given.hNext + 16 - 1) % 16) = n ∧ ∀ i < n, given.hist ((given.hNext + 16 - 1) % 16) i = given.memory (s + i) :=
    given.newestIs s n
  change Rung (given.histPush s n) ∧ (given.histPush s n).textOf.history =
    if read memory s n = [] ∨ con.textOf.history.head? = some (read memory s n) then con.textOf.history
    else ((read memory s n).take 127 :: con.textOf.history).take 16
  have empty : read memory s n = [] ↔ n = 0 := by rw [← List.length_eq_zero_iff,readLength]
  simp only [empty,newest]
  unfold histPush
  by_cases none : n = 0
  · rw [if_pos none,if_pos (.inl none)]
    exact ⟨⟨rung.count,rung.next,rung.short⟩,history⟩
  rw [if_neg none]
  dsimp only
  by_cases same : given.hCount ≠ 0 ∧ given.histLen ((given.hNext + 16 - 1) % 16) = n ∧
      ∀ i < n, given.hist ((given.hNext + 16 - 1) % 16) i = given.memory (s + i)
  · rw [if_pos same,if_pos (.inr same)]
    exact ⟨⟨rung.count,rung.next,rung.short⟩,history⟩
  rw [if_neg same,if_neg (not_or.mpr ⟨none,same⟩)]
  have length : (if n ≥ 128 then 128 - 1 else n) = min 127 n := by
    split <;> omega
  rw [length]
  constructor
  · refine ⟨?_,Nat.mod_lt _ (by decide),fun i => ?_⟩
    · have count := rung.count
      change (if con.hCount < 16 then con.hCount + 1 else con.hCount) ≤ 16
      split <;> omega
    · change Function.update con.histLen con.hNext (min 127 n) i ≤ 127
      rcases Decidable.em (i = con.hNext) with rfl | other
      · rw [Function.update_self]
        exact Nat.min_le_left 127 n
      · rw [Function.update_of_ne other]
        exact rung.short i
  · have pushed := historyPushed rung.count rung.next (copy (given.hist given.hNext) 0 memory s (min 127 n)) (min 127 n)
    rw [copyRead,← readTake] at pushed
    exact pushed

theorem entryShort (rung : Rung con) {line : List Byte} (newest : con.textOf.history.head? = some line) : line.length ≤ 127 := by
  rw [List.head?_eq_getElem?,historyGet] at newest
  split at newest
  · cases newest
    rw [entry,readLength]
    exact rung.short _
  · cases newest

theorem bootRung (memory : Buffer Byte) (waiting : List Byte) (self : Nat) : Rung (boot memory waiting self) :=
  ⟨Nat.zero_le 16,(by decide : 0 < 16),fun _ => Nat.zero_le 127⟩

theorem pushesRung (rung : Rung con) (pushes : List LinePush) : Rung (con.pushLines pushes) := by
  induction pushes generalizing con with
  | nil => exact rung
  | cons push pushes ih => exact ih (historyStep rung push).1

theorem pushSnoc (con : Console) (pushes : List LinePush) (push : LinePush) :
    con.pushLines (pushes ++ [push]) = (con.pushLines pushes).pushLine push := List.foldl_append

theorem lineLength (push : LinePush) : push.line.length = push.n := readLength

/- One more call keeps it all, unless the line is too long for the history and begins like the one before. -/
theorem keepsStep (rung : Rung con) (keeps : KeepsLines con lines) (distinct : push.Distinct lines) :
    KeepsLines (con.pushLine push) (lines ++ [push.line]) := by
  obtain ⟨rung',history⟩ := historyStep rung push
  have same : (keptLines lines).head? = some push.line ↔ (keptLines lines).head? = some (push.line.take 127) := by
    rcases Nat.lt_or_ge push.n 128 with fits | long
    · rw [List.take_of_length_le (by rw [lineLength]; omega)]
    · refine iff_of_false (fun head => ?_) fun head => distinct long ?_
      · have bound := entryShort rung (keeps.newest ▸ head)
        rw [lineLength] at bound
        omega
      · rwa [keptHead] at head
  have newest : (con.pushLine push).textOf.history = keptLines (lines ++ [push.line]) := by
    rw [history,keeps.newest,keptSnoc]
    simp only [same]
  exact ⟨rung'.count,rung'.short,newest ▸ keptApart _,newest⟩

/- A line that is not skipped although the newest entry is all the history keeps of it. -/
theorem repeatedEntry (rung : Rung con) (keeps : KeepsLines con lines) (long : 128 ≤ push.n)
    (same : (shortened lines).getLast? = some (push.line.take 127)) : ¬ (con.pushLine push).textOf.history.IsChain (· ≠ ·) := by
  have head : con.textOf.history.head? = some (push.line.take 127) := by rw [keeps.newest,keptHead,same]
  have other : ¬ (push.line = [] ∨ con.textOf.history.head? = some push.line) := by
    rintro (empty | whole)
    · have length := lineLength push
      rw [empty,List.length_nil] at length
      omega
    · have bound := entryShort rung whole
      rw [lineLength] at bound
      omega
  rw [(historyStep rung push).2,if_neg other]
  obtain ⟨rest,entries⟩ := List.head?_eq_some_iff.mp head
  rw [entries,List.take_succ_cons,List.take_succ_cons]
  exact fun chain => (List.isChain_cons_cons.mp chain).1 rfl

/- After every call the history is what it is for, exactly when no line of 128 or more
bytes begins with the 127 bytes that are the last entry. -/
theorem historyKeeps (memory : Buffer Byte) (waiting : List Byte) (self : Nat) (pushes : List LinePush) :
    (∀ front rest, pushes = front ++ rest → KeepsLines ((boot memory waiting self).pushLines front) (front.map LinePush.line)) ↔
      ∀ front push rest, pushes = front ++ push :: rest → push.Distinct (front.map LinePush.line) := by
  constructor
  · intro keeps front push rest split long same
    have before := keeps front (push :: rest) split
    have after := keeps (front ++ [push]) rest (by rw [split,List.append_assoc]; rfl)
    rw [pushSnoc] at after
    exact repeatedEntry (pushesRung (bootRung memory waiting self) front) before long same after.apart
  · intro distinct
    refine Trace.beginnings ⟨Nat.zero_le 16,fun _ => Nat.zero_le 127,.nil,rfl⟩ fun front push rest split keeps => ?_
    rw [pushSnoc,List.map_append]
    exact keepsStep (pushesRung (bootRung memory waiting self) front) keeps (distinct front push rest split)

/- A line of 128 letters. -/
def longLine : LinePush := ⟨fun _ => ascii 'x',0,128⟩

theorem longLineTwice : ¬ KeepsLines ((boot (fun _ => 0) [] 1).pushLines [longLine,longLine]) [longLine.line,longLine.line] := by
  have first : KeepsLines (boot (fun _ => 0) [] 1) [] := ⟨Nat.zero_le 16,fun _ => Nat.zero_le 127,.nil,rfl⟩
  have rung := bootRung (fun _ => 0) [] 1
  have once : KeepsLines ((boot (fun _ => 0) [] 1).pushLine longLine) [longLine.line] := keepsStep rung first fun _ => nofun
  have same : (shortened [longLine.line]).getLast? = some (longLine.line.take 127) := by decide +kernel
  intro keeps
  rw [pushLines,List.foldl_cons,List.foldl_cons,List.foldl_nil] at keeps
  exact repeatedEntry (historyStep rung longLine).1 once (le_refl 128) same keeps.apart

end Console
end Mukern
