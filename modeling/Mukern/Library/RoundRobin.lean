import Mathlib.Algebra.Ring.Nat
import Mathlib.Data.Fin.Basic
import Mathlib.Data.List.Basic

/-! A scan over `n` slots in cyclic order from a start that moves behind the slot
found last. The distance of a slot from the start falls with every scan that finds
another one. -/
namespace RoundRobin

variable {n : Nat}

/- How many slots a scan from `start` looks at before it comes to `t`. -/
def distance (start : Nat) (t : Fin n) : Nat := (t.val + (n - start % n)) % n

variable [NeZero n]

def slot (start k : Nat) : Fin n := ⟨(start + k) % n,Nat.mod_lt _ (Nat.pos_of_neZero n)⟩

def scan (start : Nat) (p : Fin n → Bool) : Option (Fin n) := ((List.range n).map (slot start)).find? p

section
variable {start k : Nat} {t m : Fin n} {p : Fin n → Bool}

theorem distanceLt : distance start t < n := Nat.mod_lt _ (Nat.pos_of_neZero n)

theorem distanceEq : distance start t = if start % n ≤ t.val then t.val - start % n else t.val + n - start % n := by
  have room : start % n < n := Nat.mod_lt _ (Nat.pos_of_neZero n)
  have inside := t.isLt
  unfold distance
  split
  · have whole : t.val + (n - start % n) = t.val - start % n + n := by omega
    rw [whole,Nat.add_mod_right,Nat.mod_eq_of_lt (by omega)]
  · have whole : t.val + (n - start % n) = t.val + n - start % n := by omega
    rw [whole,Nat.mod_eq_of_lt (by omega)]

theorem slotDistance : slot start (distance start t) = t := by
  have room : start % n < n := Nat.mod_lt _ (Nat.pos_of_neZero n)
  have inside := t.isLt
  apply Fin.ext
  show (start + distance start t) % n = t.val
  rw [← Nat.mod_add_mod,distanceEq]
  split
  · have whole : start % n + (t.val - start % n) = t.val := by omega
    rw [whole,Nat.mod_eq_of_lt inside]
  · have whole : start % n + (t.val + n - start % n) = t.val + n := by omega
    rw [whole,Nat.add_mod_right,Nat.mod_eq_of_lt inside]

theorem distanceSlot (low : k < n) : distance start (slot start k : Fin n) = k := by
  have room : start % n < n := Nat.mod_lt _ (Nat.pos_of_neZero n)
  have value : ((slot start k : Fin n).val) = (start % n + k) % n := by
    rw [Nat.mod_add_mod]
    rfl
  rw [distanceEq,value]
  by_cases wraps : start % n + k < n
  · rw [Nat.mod_eq_of_lt wraps,if_pos (by omega)]
    omega
  · have wrapped : (start % n + k) % n = start % n + k - n := by
      rw [Nat.mod_eq_sub_mod (by omega),Nat.mod_eq_of_lt (by omega)]
    rw [wrapped,if_neg (by omega)]
    omega

/- The slot that is found is no further off than any other that meets `p`. -/
theorem scanNearest (found : scan start p = some m) (meets : p t) : distance start m ≤ distance start t := by
  rw [scan,List.find?_map,Option.map_eq_some_iff] at found
  obtain ⟨k,first,rfl⟩ := found
  obtain ⟨_,inRange,earlier⟩ := List.find?_range_eq_some.mp first
  rw [distanceSlot (List.mem_range.mp inRange)]
  by_contra nearer
  have passed := earlier (distance start t) (by omega)
  rw [Function.comp_apply,slotDistance,meets] at passed
  cases passed

theorem scanFinds (meets : p t) : ∃ m, scan start p = some m ∧ p m := by
  cases found : scan start p with
  | some m => exact ⟨m,rfl,List.find?_some found⟩
  | none =>
    have missed := List.find?_eq_none.mp found t (List.mem_map.mpr ⟨distance start t,List.mem_range.mpr distanceLt,slotDistance⟩)
    exact absurd meets missed

theorem distanceNext (nearer : distance start m < distance start t) :
    distance (m.val + 1) t = distance start t - distance start m - 1 := by
  have reaches : slot (m.val + 1) (distance start t - distance start m - 1) = t := by
    apply Fin.ext
    have from' : (slot start (distance start m) : Fin n) = m := slotDistance
    have to' : (slot start (distance start t) : Fin n) = t := slotDistance
    have place : m.val = (start + distance start m) % n := (congrArg Fin.val from').symm
    have target : t.val = (start + distance start t) % n := (congrArg Fin.val to').symm
    show (m.val + 1 + (distance start t - distance start m - 1)) % n = t.val
    have whole : m.val + 1 + (distance start t - distance start m - 1) = m.val + (distance start t - distance start m) := by omega
    rw [whole,place,Nat.mod_add_mod,target]
    congr 1
    omega
  have short : distance start t - distance start m - 1 < n := by
    have room : distance start t < n := distanceLt
    omega
  calc distance (m.val + 1) t = distance (m.val + 1) (slot (m.val + 1) (distance start t - distance start m - 1)) := by rw [reaches]
    _ = distance start t - distance start m - 1 := distanceSlot short

/- One scan: it comes to `t`, or `t` is nearer to the next start. -/
theorem scanCloser (found : scan start p = some m) (meets : p t) : m = t ∨ distance (m.val + 1) t < distance start t := by
  by_cases same : m = t
  · exact .inl same
  · right
    have nearest := scanNearest found meets
    have apart : distance start m ≠ distance start t := by
      intro equal
      have found' : (slot start (distance start m) : Fin n) = m := slotDistance
      rw [equal,slotDistance] at found'
      exact same found'.symm
    have nearer : distance start m < distance start t := by omega
    rw [distanceNext nearer]
    omega

end
end RoundRobin
