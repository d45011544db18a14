import Mathlib.Algebra.Ring.Nat
import Mathlib.Logic.Function.Basic
import Mathlib.Data.List.Range

/-! Arrays as functions from indices, the runs of cells read from them, and the
loops that shift and copy them in place. -/
namespace Buffers
variable {α : Type}

abbrev Buffer (α : Type) : Type := Nat → α

def Buffer.set (b : Buffer α) (i : Nat) (x : α) : Buffer α := fun j => if j = i then x else b j

/- The `n` cells from index `lo` on. -/
def read (b : Buffer α) (lo n : Nat) : List α := (List.range' lo n).map b

/- `for (i = lo + n; i > lo; i--) b[i] = b[i - 1]`. -/
def shiftUp (b : Buffer α) (lo : Nat) : (n : Nat) → Buffer α
  | 0 => b
  | n + 1 => shiftUp (b.set (lo + n + 1) (b (lo + n))) lo n

/- `for (i = lo; i < lo + n; i++) b[i] = b[i + k]`. -/
def shiftDown (b : Buffer α) (k : Nat) : (lo n : Nat) → Buffer α
  | _, 0 => b
  | lo, n + 1 => shiftDown (b.set lo (b (lo + k))) k (lo + 1) n

/- `for (i = 0; i < n; i++) b[lo + i] = source[from + i]`. -/
def copy (b : Buffer α) (lo : Nat) (source : Buffer α) (start : Nat) : (n : Nat) → Buffer α
  | 0 => b
  | n + 1 => copy (b.set lo (source start)) (lo + 1) source (start + 1) n

variable {b b' source : Buffer α} {lo start n m k i j : Nat} {x : α}

@[simp] theorem setSame : b.set i x i = x := if_pos rfl

theorem setOther (other : j ≠ i) : b.set i x j = b j := if_neg other

@[simp] theorem readNil : read b lo 0 = [] := rfl

theorem readCons : read b lo (n + 1) = b lo :: read b (lo + 1) n := rfl

@[simp] theorem readLength : (read b lo n).length = n := by simp [read]

theorem readAppend : read b lo (m + n) = read b lo m ++ read b (lo + m) n := by
  rw [read,← List.range'_append_1,List.map_append]
  rfl

theorem readLast : read b lo (n + 1) = read b lo n ++ [b (lo + n)] := readAppend

theorem readCongr (same : ∀ i, lo ≤ i → i < lo + n → b' i = b i) : read b' lo n = read b lo n :=
  List.map_congr_left fun i inside => same i (List.mem_range'_1.mp inside).1 (List.mem_range'_1.mp inside).2

/- Two runs that agree cell by cell, at whatever places the arrays keep them. -/
theorem readMoved (same : ∀ i < n, b' (lo + i) = b (start + i)) : read b' lo n = read b start n := by
  induction n generalizing lo start with
  | zero => rfl
  | succ n ih =>
    have rest : ∀ i < n, b' (lo + 1 + i) = b (start + 1 + i) := by
      intro i low
      rw [Nat.add_right_comm,Nat.add_right_comm start,Nat.add_assoc,Nat.add_assoc]
      exact same (i + 1) (by omega)
    rw [readCons,readCons,ih rest,← Nat.add_zero lo,same 0 (by omega),Nat.add_zero]

theorem readGet (inside : i < n) : (read b lo n)[i]? = some (b (lo + i)) := by
  simp [read,inside]

theorem readTake : (read b lo n).take m = read b lo (min m n) := by
  rcases Nat.le_total m n with short | long
  · obtain ⟨k,rfl⟩ := Nat.exists_eq_add_of_le short
    rw [Nat.min_eq_left short,readAppend,List.take_left' readLength]
  · rw [Nat.min_eq_right long,List.take_of_length_le (by rwa [readLength])]

theorem readPrefix (short : m ≤ n) (member : x ∈ read b lo m) : x ∈ read b lo n := by
  rw [← Nat.min_eq_left short,← readTake] at member
  exact List.mem_of_mem_take member

theorem readSame {b' : Buffer α} {lo' : Nat} : read b lo n = read b' lo' m ↔ n = m ∧ ∀ i < n, b (lo + i) = b' (lo' + i) := by
  constructor
  · intro same
    have length : n = m := by simpa using congrArg List.length same
    refine ⟨length,fun i inside => ?_⟩
    have cells := congrArg (fun run => run[i]?) same
    simpa [read,inside,length ▸ inside] using cells
  · intro ⟨length,same⟩
    subst length
    exact readMoved same

theorem shiftUpOther (outside : i ≤ lo ∨ lo + n < i) : shiftUp b lo n i = b i := by
  induction n generalizing b with
  | zero => rfl
  | succ n ih =>
    rw [shiftUp,ih (by omega)]
    exact setOther (by omega)

theorem shiftDownOther (outside : i < lo ∨ lo + n ≤ i) : shiftDown b k lo n i = b i := by
  induction n generalizing b lo with
  | zero => rfl
  | succ n ih =>
    rw [shiftDown,ih (by omega)]
    exact setOther (by omega)

theorem copyOther (outside : i < lo ∨ lo + n ≤ i) : copy b lo source start n i = b i := by
  induction n generalizing b lo start with
  | zero => rfl
  | succ n ih =>
    rw [copy,ih (by omega)]
    exact setOther (by omega)

theorem shiftUpInside (inside : i < n) : shiftUp b lo n (lo + 1 + i) = b (lo + i) := by
  induction n generalizing b with
  | zero => cases inside
  | succ n ih =>
    rw [shiftUp]
    rcases Nat.lt_succ_iff_lt_or_eq.mp inside with below | top
    · rw [ih below]
      exact setOther (by omega)
    · have last : lo + 1 + i = lo + n + 1 := by omega
      rw [shiftUpOther (by omega),last,setSame,top]

theorem shiftDownInside (positive : 0 < k) (inside : i < n) : shiftDown b k lo n (lo + i) = b (lo + i + k) := by
  induction n generalizing b lo i with
  | zero => cases inside
  | succ n ih =>
    rw [shiftDown]
    cases i with
    | zero =>
      rw [shiftDownOther (by omega)]
      exact setSame
    | succ i =>
      have next : lo + (i + 1) = lo + 1 + i := by omega
      rw [next,ih (by omega)]
      exact setOther (by omega)

theorem copyInside (inside : i < n) : copy b lo source start n (lo + i) = source (start + i) := by
  induction n generalizing b lo start i with
  | zero => cases inside
  | succ n ih =>
    rw [copy]
    cases i with
    | zero =>
      rw [copyOther (by omega)]
      exact setSame
    | succ i =>
      have next : lo + (i + 1) = lo + 1 + i := by omega
      have next' : start + (i + 1) = start + 1 + i := by omega
      rw [next,next',ih (by omega)]

theorem shiftUpRead : read (shiftUp b lo n) (lo + 1) n = read b lo n := readMoved fun _ => shiftUpInside

theorem shiftDownRead (b : Buffer α) (lo n : Nat) (positive : 0 < k) : read (shiftDown b k lo n) lo n = read b (lo + k) n :=
  readMoved fun i inside => by rw [shiftDownInside positive inside,Nat.add_right_comm]

theorem copyRead : read (copy b lo source start n) lo n = read source start n := readMoved fun _ => copyInside

/- Making room at `lo` and writing a cell there inserts it into the run. -/
theorem insertRead (b : Buffer α) (lo : Nat) (x : α) (inside : m ≤ n) : read ((shiftUp b (lo + m) (n - m)).set (lo + m) x) lo (n + 1) = read b lo m ++ x :: read b (lo + m) (n - m) := by
  have cells : n + 1 = m + (n - m + 1) := by omega
  have before : read ((shiftUp b (lo + m) (n - m)).set (lo + m) x) lo m = read b lo m := readCongr fun i _ high => by
    rw [setOther (by omega),shiftUpOther (by omega)]
  have after : read ((shiftUp b (lo + m) (n - m)).set (lo + m) x) (lo + m + 1) (n - m) = read b (lo + m) (n - m) :=
    (readCongr fun i low _ => setOther (by omega)).trans shiftUpRead
  rw [cells,readAppend,before,readCons,after,setSame]

/- Closing the gap at `lo + m` takes that cell out of the run. -/
theorem deleteRead (b : Buffer α) (lo : Nat) (inside : m < n) : read (shiftDown b 1 (lo + m) (n - 1 - m)) lo (n - 1) = read b lo m ++ read b (lo + m + 1) (n - 1 - m) := by
  obtain ⟨k,rfl⟩ := Nat.exists_eq_add_of_lt inside
  have cells : m + k + 1 - 1 = m + k := rfl
  have rest : m + k - m = k := by omega
  have before : read (shiftDown b 1 (lo + m) k) lo m = read b lo m := readCongr fun i _ high => shiftDownOther (by omega)
  rw [cells,rest,readAppend,before,shiftDownRead _ _ _ Nat.one_pos]

/- Both read no more of the array than the run. -/
theorem insertSame {b' : Buffer α} (same : ∀ i < n, b' (lo + i) = b (lo + i)) (inside : m ≤ n) :
    ∀ i < n + 1, ((shiftUp b' (lo + m) (n - m)).set (lo + m) x) (lo + i) = ((shiftUp b (lo + m) (n - m)).set (lo + m) x) (lo + i) := by
  have before : read b' lo m = read b lo m := readMoved fun i low => same i (by omega)
  have after : read b' (lo + m) (n - m) = read b (lo + m) (n - m) := readMoved fun i low => by
    rw [Nat.add_assoc]
    exact same (m + i) (by omega)
  have whole := insertRead b' lo x inside
  rw [before,after,← insertRead b lo x inside] at whole
  exact (readSame.mp whole).2

theorem deleteSame {b' : Buffer α} (same : ∀ i < n, b' (lo + i) = b (lo + i)) (inside : m < n) :
    ∀ i < n - 1, shiftDown b' 1 (lo + m) (n - 1 - m) (lo + i) = shiftDown b 1 (lo + m) (n - 1 - m) (lo + i) := by
  have before : read b' lo m = read b lo m := readMoved fun i low => same i (by omega)
  have after : read b' (lo + m + 1) (n - 1 - m) = read b (lo + m + 1) (n - 1 - m) := readMoved fun i low => by
    rw [Nat.add_assoc,Nat.add_assoc]
    exact same (m + (1 + i)) (by omega)
  have whole := deleteRead b' lo inside
  rw [before,after,← deleteRead b lo inside] at whole
  exact (readSame.mp whole).2

theorem copySame {source' : Buffer α} (same : ∀ i < n, source' (start + i) = source (start + i)) : copy b lo source' start n = copy b lo source start n := by
  induction n generalizing b lo start with
  | zero => rfl
  | succ n ih =>
    have first := same 0 (by omega)
    have rest : ∀ i < n, source' (start + 1 + i) = source (start + 1 + i) := by
      intro i low
      rw [Nat.add_assoc]
      exact same (1 + i) (by omega)
    rw [copy,copy,ih rest]
    exact congrArg (fun x => copy (b.set lo x) (lo + 1) source (start + 1) n) first

end Buffers
