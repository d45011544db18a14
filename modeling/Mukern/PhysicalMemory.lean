import Mukern.Abi

/-! Physical memory as 64-bit words. The kernel reads and writes page tables a
word at a time; messages and user data are single bytes of these words. -/
namespace Mukern

/- The word at physical address `8 * n`. -/
abbrev Words := Nat → Word

def Words.set (m : Words) (n : Nat) (v : Word) : Words := fun j => if j = n then v else m j

@[simp] theorem Words.setSame (m : Words) (n v) : m.set n v n = v := if_pos rfl

theorem Words.setOther {m : Words} {n v j} (h : j ≠ n) : m.set n v j = m j := if_neg h

/- Byte `pa % 8` of the word that holds physical address `pa` (little endian). -/
def Words.byte (m : Words) (pa : Nat) : BitVec 8 := (m (pa / 8)).extractLsb' (8 * (pa % 8)) 8

def Words.setByte (m : Words) (pa : Nat) (b : BitVec 8) : Words :=
  let keep := m (pa / 8) &&& ~~~((0xFF : Word) <<< (8 * (pa % 8)))
  m.set (pa / 8) (keep ||| (b.setWidth 64 <<< (8 * (pa % 8))))

theorem Words.setByteWord {m : Words} {pa b j} (h : j ≠ pa / 8) : m.setByte pa b j = m j :=
  Words.setOther h

theorem Words.setByteOther {m : Words} {pa other : Nat} {b} (h : other ≠ pa) :
    (m.setByte pa b).byte other = m.byte other := by
  unfold Words.byte
  by_cases word : other / 8 = pa / 8
  · unfold Words.setByte
    rw [word,Words.setSame]
    have apart : other % 8 ≠ pa % 8 := by omega
    refine BitVec.eq_of_getLsbD_eq fun n high => ?_
    simp only [BitVec.getLsbD_extractLsb',high,decide_true,Bool.true_and,BitVec.getLsbD_or,BitVec.getLsbD_and,
      BitVec.getLsbD_not,BitVec.getLsbD_shiftLeft,BitVec.getLsbD_setWidth]
    by_cases below : 8 * (other % 8) + n < 8 * (pa % 8)
    · simp [below]
      omega
    · have outside : b.getLsbD (8 * (other % 8) + n - 8 * (pa % 8)) = false :=
        BitVec.getLsbD_of_ge _ _ (by omega)
      have clear : (255#64).getLsbD (8 * (other % 8) + n - 8 * (pa % 8)) = false := by
        have wide : 255#64 = (255#8).setWidth 64 := by decide
        rw [wide,BitVec.getLsbD_setWidth,BitVec.getLsbD_of_ge _ _ (by omega)]
        simp
      simp [outside,clear]
      omega
  · rw [Words.setByteWord word]

/- The bytes stored one after the other. -/
def Words.store (m : Words) (bytes : List (Nat × BitVec 8)) : Words :=
  bytes.foldl (fun m at' => m.setByte at'.1 at'.2) m

theorem Words.storeOther {m : Words} {bytes : List (Nat × BitVec 8)} {pa : Nat} (h : pa ∉ bytes.map Prod.fst) :
    (m.store bytes).byte pa = m.byte pa := by
  induction bytes generalizing m with
  | nil => rfl
  | cons first rest ih =>
    simp only [List.map_cons,List.mem_cons,not_or] at h
    exact (ih h.2).trans (Words.setByteOther h.1)

theorem Words.setByteOwn {words : Words} {pa : Nat} {b : BitVec 8} : (words.setByte pa b).byte pa = b := by
  unfold Words.byte Words.setByte
  rw [Words.setSame]
  have inside : pa % 8 < 8 := Nat.mod_lt pa (by decide)
  refine BitVec.eq_of_getLsbD_eq fun n high => ?_
  have place : 8 * (pa % 8) + n < 64 := by omega
  have start : ¬ 8 * (pa % 8) + n < 8 * (pa % 8) := by omega
  have offset : 8 * (pa % 8) + n - 8 * (pa % 8) = n := by omega
  have all : ∀ j : Fin 8, (0xFF : Word).getLsbD j.val = true := by decide
  have full : (0xFF : Word).getLsbD n = true := all ⟨n,high⟩
  have low : n < 64 := by omega
  simp only [BitVec.getLsbD_extractLsb',high,decide_true,Bool.true_and,BitVec.getLsbD_or,BitVec.getLsbD_and,BitVec.getLsbD_not,
    BitVec.getLsbD_shiftLeft,BitVec.getLsbD_setWidth,place,start,decide_false,offset,full,low,Bool.not_false,Bool.not_true,
    Bool.and_false,Bool.false_or]

/- Bytes stored at different addresses are all there in the end. -/
theorem Words.storeOwn {words : Words} {span : List Nat} {bytes : List (BitVec 8)} (nodup : span.Nodup) (length : span.length = bytes.length)
    {j : Nat} (low : j < span.length) : (words.store (span.zip bytes)).byte span[j] = bytes[j] := by
  induction span generalizing words bytes j with
  | nil => cases low
  | cons pa span ih =>
    cases bytes with
    | nil => cases length
    | cons b bytes =>
      obtain ⟨fresh,nodup⟩ := List.nodup_cons.mp nodup
      have length' : span.length = bytes.length := Nat.succ.inj length
      cases j with
      | zero =>
        have rest : pa ∉ (span.zip bytes).map Prod.fst := by rwa [List.map_fst_zip (Nat.le_of_eq length')]
        exact (Words.storeOther rest).trans Words.setByteOwn
      | succ j => exact ih nodup length' (Nat.lt_of_succ_lt_succ low)

/- The four bytes-of-words of a `struct ipc_msg`, in memory order. -/
def wordBytes (w : Word) : List (BitVec 8) := (List.range 8).map (fun j => w.extractLsb' (8 * j) 8)

def msgBytes (m : IpcMsg) : List (BitVec 8) :=
  wordBytes m.label ++ wordBytes m.data0 ++ wordBytes m.data1 ++ wordBytes m.cap

def bytesWord : List (BitVec 8) → Word
  | [] => 0
  | b :: rest => b.setWidth 64 ||| (bytesWord rest <<< 8)

def bytesMsg (bs : List (BitVec 8)) : IpcMsg :=
  ⟨bytesWord (bs.take 8), bytesWord ((bs.drop 8).take 8), bytesWord ((bs.drop 16).take 8),
    bytesWord ((bs.drop 24).take 8)⟩

end Mukern
