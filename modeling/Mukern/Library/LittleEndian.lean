import Mukern.Library.Buffers

/-! Numbers of fixed width as runs of bytes, the lowest byte first. -/
namespace LittleEndian
open Buffers

abbrev Bytes : Type := Buffer (BitVec 8)

def bytes : (n value : Nat) → List (BitVec 8)
  | 0, _ => []
  | n + 1, value => BitVec.ofNat 8 value :: bytes n (value / 256)

def value : List (BitVec 8) → Nat
  | [] => 0
  | b :: rest => b.toNat + 256 * value rest

/- The number in the `n` bytes from `lo` on. -/
def load (b : Bytes) (lo n : Nat) : Nat := value (read b lo n)

/- The run lies in the buffer from `lo` on. -/
def Stored (b : Bytes) (lo : Nat) (run : List (BitVec 8)) : Prop := read b lo run.length = run

instance (b : Bytes) (lo run) : Decidable (Stored b lo run) := inferInstanceAs (Decidable (_ = _))

variable {b : Bytes} {lo n v : Nat} {xs ys : List (BitVec 8)}

@[simp] theorem bytesLength : (bytes n v).length = n := by
  induction n generalizing v with
  | zero => rfl
  | succ n ih => rw [bytes,List.length_cons,ih]

theorem bytesAppend {m : Nat} : bytes (m + n) v = bytes m v ++ bytes n (v / 256 ^ m) := by
  induction m generalizing v with
  | zero => rw [Nat.zero_add,Nat.pow_zero,Nat.div_one,bytes,List.nil_append]
  | succ m ih => rw [Nat.succ_add,bytes,bytes,ih,Nat.div_div_eq_div_mul,← Nat.pow_succ',List.cons_append]

theorem valueBytes (fits : v < 256 ^ n) : value (bytes n v) = v := by
  induction n generalizing v with
  | zero =>
    have zero : v = 0 := by simpa using fits
    rw [zero]
    rfl
  | succ n ih =>
    have rest : v / 256 < 256 ^ n := Nat.div_lt_of_lt_mul (by rwa [Nat.mul_comm,← Nat.pow_succ])
    have low : (BitVec.ofNat 8 v).toNat = v % 256 := BitVec.toNat_ofNat ..
    rw [bytes,value,ih rest,low]
    exact Nat.mod_add_div v 256

theorem storedAppend : Stored b lo (xs ++ ys) ↔ Stored b lo xs ∧ Stored b (lo + xs.length) ys := by
  unfold Stored
  rw [List.length_append,readAppend]
  constructor
  · intro same
    exact List.append_inj same readLength
  · intro ⟨first,second⟩
    rw [first,second]

theorem storedKept {b' : Bytes} (stored : Stored b lo xs) (same : ∀ i, lo ≤ i → i < lo + xs.length → b' i = b i) :
    Stored b' lo xs := (readCongr same).trans stored

theorem loadStored (stored : Stored b lo (bytes n v)) (fits : v < 256 ^ n) : load b lo n = v := by
  unfold Stored at stored
  rw [bytesLength] at stored
  rw [load,stored,valueBytes fits]

/- The bytes stored from `lo` on. -/
def put (b : Bytes) (lo : Nat) : List (BitVec 8) → Bytes
  | [] => b
  | x :: run => put (b.set lo x) (lo + 1) run

theorem putOther {i : Nat} (outside : i < lo ∨ lo + xs.length ≤ i) : put b lo xs i = b i := by
  induction xs generalizing b lo with
  | nil => rfl
  | cons x xs ih =>
    rw [List.length_cons] at outside
    rw [put,ih (by omega)]
    exact setOther (by omega)

theorem putStored : Stored (put b lo xs) lo xs := by
  induction xs generalizing b lo with
  | nil => rfl
  | cons x xs ih =>
    have first : put (b.set lo x) (lo + 1) xs lo = x := (putOther (.inl (Nat.lt_succ_self lo))).trans setSame
    have rest : read (put (b.set lo x) (lo + 1) xs) (lo + 1) xs.length = xs := ih
    rw [Stored,put,List.length_cons,readCons,first,rest]

/- The 64-bit number in the eight bytes from `lo` on. -/
def word (b : Bytes) (lo : Nat) : BitVec 64 := BitVec.ofNat 64 (load b lo 8)

def putWord (b : Bytes) (lo : Nat) (w : BitVec 64) : Bytes := put b lo (bytes 8 w.toNat)

def words (b : Bytes) : (lo n : Nat) → List (BitVec 64)
  | _,0 => []
  | lo,n + 1 => word b lo :: words b (lo + 8) n

def putWords (b : Bytes) (lo : Nat) : List (BitVec 64) → Bytes
  | [] => b
  | w :: ws => putWords (putWord b lo w) (lo + 8) ws

section
variable {b' : Bytes} {w : BitVec 64} {ws : List (BitVec 64)} {i k : Nat}

theorem wordPut : word (putWord b lo w) lo = w := by
  have stored : Stored (putWord b lo w) lo (bytes 8 w.toNat) := putStored
  rw [word,loadStored stored w.isLt]
  exact BitVec.ofNat_toNat 64 w

theorem putWordOther (outside : i < lo ∨ lo + 8 ≤ i) : putWord b lo w i = b i := putOther (by rwa [bytesLength])

theorem wordCongr (same : ∀ i, lo ≤ i → i < lo + 8 → b' i = b i) : word b' lo = word b lo := by
  rw [word,load,readCongr same]
  rfl

theorem wordApart {other : Nat} (apart : other + 8 ≤ lo ∨ lo + 8 ≤ other) : word (putWord b lo w) other = word b other :=
  wordCongr fun i _ _ => putWordOther (by omega)

@[simp] theorem wordsLength : (words b lo n).length = n := by
  induction n generalizing lo with
  | zero => rfl
  | succ n ih => rw [words,List.length_cons,ih]

theorem wordsAppend : words b lo (k + n) = words b lo k ++ words b (lo + 8 * k) n := by
  induction k generalizing lo with
  | zero => simp [words]
  | succ k ih =>
    have next : lo + 8 * (k + 1) = lo + 8 + 8 * k := by omega
    rw [Nat.succ_add,words,ih,words,next]
    rfl

theorem wordsCongr (same : ∀ i, lo ≤ i → i < lo + 8 * n → b' i = b i) : words b' lo n = words b lo n := by
  induction n generalizing lo with
  | zero => rfl
  | succ n ih =>
    rw [words,words,wordCongr fun i low high => same i low (by omega),ih fun i low high => same i (by omega) (by omega)]

theorem wordsApart {other : Nat} (apart : other + 8 * n ≤ lo ∨ lo + 8 ≤ other) : words (putWord b lo w) other n = words b other n :=
  wordsCongr fun i _ _ => putWordOther (by omega)

theorem putWordsOther (outside : i < lo ∨ lo + 8 * ws.length ≤ i) : putWords b lo ws i = b i := by
  induction ws generalizing b lo with
  | nil => rfl
  | cons w ws ih =>
    rw [List.length_cons] at outside
    rw [putWords,ih (by omega),putWordOther (by omega)]

theorem wordsPut : words (putWords b lo ws) lo ws.length = ws := by
  induction ws generalizing b lo with
  | nil => rfl
  | cons w ws ih =>
    have first : word (putWords (putWord b lo w) (lo + 8) ws) lo = w :=
      (wordCongr fun i _ high => putWordsOther (.inl high)).trans wordPut
    rw [putWords,List.length_cons,words,first,ih]

/- One of the words is overwritten. -/
theorem wordsSet (inside : k < n) : words (putWord b (lo + 8 * k) w) lo n = (words b lo n).set k w := by
  induction n generalizing lo k with
  | zero => cases inside
  | succ n ih =>
    cases k with
    | zero =>
      rw [words,words,List.set_cons_zero,Nat.mul_zero,Nat.add_zero,wordPut,wordsApart (.inr (Nat.le_refl _))]
    | succ k =>
      have place : lo + 8 * (k + 1) = lo + 8 + 8 * k := by omega
      rw [words,words,List.set_cons_succ,wordApart (by omega),place,ih (Nat.lt_of_succ_lt_succ inside)]

/- A double word with nothing above it. -/
theorem wordHalves {v : BitVec 32} (low : Stored b lo (bytes 4 v.toNat)) (high : Stored b (lo + 4) (bytes 4 0)) :
    word b lo = v.setWidth 64 := by
  have fits := v.isLt
  have upper : v.toNat / 256 ^ 4 = 0 := Nat.div_eq_of_lt fits
  have both : Stored b lo (bytes 8 v.toNat) := by
    change Stored b lo (bytes (4 + 4) v.toNat)
    rw [bytesAppend,upper]
    exact storedAppend.mpr ⟨low,by rwa [bytesLength]⟩
  rw [word,loadStored both (by omega)]
  exact BitVec.ofNat_toNat 64 v

end

end LittleEndian
