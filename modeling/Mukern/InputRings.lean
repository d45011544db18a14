import Mukern.Library.Fifo
import Mukern.VgaTerminal

/-! The input rings of the console driver and of the VGA terminal with the indices and
the result types of the source: `ring_push`, `ring_pop`, `kr_push` and `kr_pop`. -/
namespace Mukern
open Buffers

/- The array and its two indices, which are `unsigned`. -/
structure ByteRing where
  cells : Buffer Byte
  head : BitVec 32
  tail : BitVec 32

namespace ByteRing

def push (size : BitVec 32) (r : ByteRing) (c : Byte) : ByteRing :=
  let n := (r.head + 1) % size
  if n ≠ r.tail then { r with cells := r.cells.set r.head.toNat c, head := n } else r

/- `value` is the conversion of the element type to `int`. -/
def pop (size : BitVec 32) (value : Byte → Int) (r : ByteRing) : Int × ByteRing :=
  if r.head = r.tail then (-1,r)
  else
    let c := r.cells r.tail.toNat
    (value c,{ r with tail := (r.tail + 1) % size })

/- The statics of a server that starts. -/
def zero : ByteRing := ⟨fun _ => 0,0,0⟩

end ByteRing

/- `unsigned char`. -/
def ucharInt (c : Byte) : Int := c.toNat

/- `char`, which is signed on this machine. -/
def charInt (c : Byte) : Int := c.toInt

def ringPush : ByteRing → Byte → ByteRing := ByteRing.push 256

def ringPop : ByteRing → Int × ByteRing := ByteRing.pop 256 ucharInt

def krPush : ByteRing → Byte → ByteRing := ByteRing.push 128

def krPop : ByteRing → Int × ByteRing := ByteRing.pop 128 charInt

def rxRing : Fifo.Implementation ByteRing Byte Int := ⟨ringPush,ringPop⟩

def krRing : Fifo.Implementation ByteRing Byte Int := ⟨krPush,krPop⟩

/- The ring of the servers' models, with the same cells. -/
structure ByteRing.Is (size : Nat) (r : ByteRing) (ring : Ring Byte size) : Prop where
  cells : r.cells = ring.cells
  head : r.head.toNat = ring.head
  tail : r.tail.toNat = ring.tail

/- What a run of pushes and pops on such a ring does, against a queue of `capacity` bytes. -/
structure QueueRun (capacity : Nat) (value : Byte → Int) (I : Fifo.Implementation ByteRing Byte Int) (ops : List (Fifo.Op Byte)) : Prop where
  returns : I.returned .zero ops = (Fifo.popped capacity [] ops).map fun c => c.elim (-1) value
  conserves : Fifo.accepted capacity [] ops = (Fifo.popped capacity [] ops).reduceOption ++ Fifo.run capacity [] ops
  headInside : (I.run .zero ops).head.toNat ≤ capacity
  tailInside : (I.run .zero ops).tail.toNat ≤ capacity

/- A pop returns -1 exactly where the queue is empty. -/
def EmptyShown (capacity : Nat) (I : Fifo.Implementation ByteRing Byte Int) (ops : List (Fifo.Op Byte)) : Prop :=
  ∀ front rest, ops = front ++ .pop :: rest → ((I.pop (I.run .zero front)).1 = -1 ↔ Fifo.run capacity [] front = [])

section
variable {size : Nat} {r : ByteRing} {ring : Ring Byte size}

/- The next index does not overflow and is the one of the ring. -/
theorem nextIndex {i : BitVec 32} (inside : i.toNat < size) (small : size < 2 ^ 32) :
    ((i + 1) % BitVec.ofNat 32 size).toNat = (i.toNat + 1) % size := by
  have one : (1 : BitVec 32).toNat = 1 := rfl
  have fits : i.toNat + 1 < 2 ^ 32 := by omega
  rw [BitVec.toNat_umod,BitVec.toNat_add,BitVec.toNat_ofNat,one,Nat.mod_eq_of_lt fits,Nat.mod_eq_of_lt small]

theorem pushIs (is : r.Is size ring) (small : size < 2 ^ 32) (c : Byte) :
    (r.push (BitVec.ofNat 32 size) c).Is size (ring.push c) := by
  have next := nextIndex (is.head ▸ ring.headInside) small
  rw [is.head] at next
  have full : (r.head + 1) % BitVec.ofNat 32 size = r.tail ↔ (ring.head + 1) % size = ring.tail := by
    rw [← BitVec.toNat_inj,next,is.tail]
  unfold ByteRing.push Ring.push
  by_cases crowded : (ring.head + 1) % size = ring.tail
  · rw [if_pos crowded,if_neg (not_not.mpr (full.mpr crowded))]
    exact is
  · rw [if_neg crowded,if_pos (mt full.mp crowded)]
    refine ⟨?_,next,is.tail⟩
    rw [is.cells,is.head]

theorem popIs (value : Byte → Int) (is : r.Is size ring) (small : size < 2 ^ 32) :
    (r.pop (BitVec.ofNat 32 size) value).1 = (((Fifo.ofRing Byte size).pop ring).1).elim (-1) value ∧
      (r.pop (BitVec.ofNat 32 size) value).2.Is size ((Fifo.ofRing Byte size).pop ring).2 := by
  have next := nextIndex (is.tail ▸ ring.tailInside) small
  rw [is.tail] at next
  have empty : r.head = r.tail ↔ ring.head = ring.tail := by rw [← BitVec.toNat_inj,is.head,is.tail]
  simp only [ByteRing.pop,Fifo.ofRing,Ring.pop]
  by_cases same : ring.head = ring.tail
  · rw [if_pos same,if_pos (empty.mpr same)]
    exact ⟨rfl,is⟩
  · rw [if_neg same,if_neg (mt empty.mp same)]
    refine ⟨?_,is.cells,is.head,next⟩
    rw [is.cells,is.tail]
    rfl

/- The ring of a server behaves as a queue that holds one byte less than it has cells. -/
theorem byteRingRefines (value : Byte → Int) (small : size < 2 ^ 32) :
    (⟨ByteRing.push (BitVec.ofNat 32 size),ByteRing.pop (BitVec.ofNat 32 size) value⟩ : Fifo.Implementation ByteRing Byte Int).Refines (size - 1)
      (fun c => c.elim (-1) value) fun r queue => ∃ ring : Ring Byte size, r.Is size ring ∧ ring.contents = queue where
  push := by
    rintro r queue c ⟨ring,is,held⟩
    exact ⟨ring.push c,pushIs is small c,(Fifo.ringRefines size).push c held⟩
  pop := by
    rintro r queue ⟨ring,is,held⟩
    obtain ⟨returned,is'⟩ := popIs value is small
    obtain ⟨first,held'⟩ := (Fifo.ringRefines size).pop held
    refine ⟨?_,_,is',held'⟩
    rw [returned,first]
    rfl

theorem zeroRing (positive : 0 < size) : ∃ ring : Ring Byte size, ByteRing.zero.Is size ring ∧ ring.contents = [] :=
  ⟨⟨fun _ => 0,0,0,positive,positive⟩,⟨rfl,rfl,rfl⟩,rfl⟩

theorem byteRingRun (size : Nat) (value : Byte → Int) (positive : 0 < size) (small : size < 2 ^ 32) (ops : List (Fifo.Op Byte)) :
    QueueRun (size - 1) value ⟨ByteRing.push (BitVec.ofNat 32 size),ByteRing.pop (BitVec.ofNat 32 size) value⟩ ops := by
  obtain ⟨⟨ring,is,_⟩,returns⟩ := (byteRingRefines value small).runs (zeroRing positive) ops
  have head := ring.headInside
  have tail := ring.tailInside
  refine ⟨returns,Fifo.conserved _ [] ops,?_,?_⟩
  · rw [is.head]
    omega
  · rw [is.tail]
    omega

/- Bytes whose `int` is not -1 are told from an empty queue. -/
theorem byteRingShown (size : Nat) (value : Byte → Int) (positive : 0 < size) (small : size < 2 ^ 32) {ops : List (Fifo.Op Byte)} (proper : ∀ c, .push c ∈ ops → value c ≠ -1) :
    EmptyShown (size - 1) ⟨ByteRing.push (BitVec.ofNat 32 size),ByteRing.pop (BitVec.ofNat 32 size) value⟩ ops := by
  intro front rest split
  have refines := byteRingRefines value small
  have returned := (refines.pop (refines.runs (zeroRing positive) front).1).1
  rw [returned]
  rcases held : Fifo.run (size - 1) [] front with _ | ⟨c,queue⟩
  · exact ⟨fun _ => rfl,fun _ => rfl⟩
  · have inside : c ∈ Fifo.run (size - 1) [] front := held ▸ List.mem_cons_self
    have pushed := (Fifo.runMember inside).resolve_left List.not_mem_nil
    have known := proper c (split ▸ List.mem_append_left _ pushed)
    exact ⟨fun shown => absurd shown known,fun empty => by cases empty⟩

/- The two maps hold no character from 0x80 on. -/
theorem keysLow : (mapLo ++ mapHi).all (fun c => c.toNat < 0x80) = true := by decide +kernel

theorem keysPositive : ∀ c ∈ mapLo ++ mapHi, charInt c ≠ -1 := by
  intro c key
  have low : c.toNat < 0x80 := of_decide_eq_true (List.all_eq_true.mp keysLow c key)
  rw [charInt,BitVec.toInt_eq_toNat_of_lt (by omega)]
  omega

theorem ringsAreQueues (ops : List (Fifo.Op Byte)) :
    QueueRun 255 ucharInt rxRing ops ∧ EmptyShown 255 rxRing ops ∧ QueueRun 127 charInt krRing ops ∧
      ((∀ c, .push c ∈ ops → c ∈ mapLo ++ mapHi) → EmptyShown 127 krRing ops) := by
  have serial := byteRingRun 256 ucharInt (by decide) (by decide) ops
  have shown : EmptyShown 255 rxRing ops := byteRingShown 256 ucharInt (by decide) (by decide) fun c _ => by
    unfold ucharInt
    omega
  have keys := byteRingRun 128 charInt (by decide) (by decide) ops
  refine ⟨serial,shown,keys,fun decoded => ?_⟩
  exact byteRingShown 128 charInt (by decide) (by decide) fun c pushed => keysPositive c (decoded c pushed)

theorem ringsTellKeys : EmptyShown 127 krRing [.push (ascii 'a'),.pop,.pop] :=
  (ringsAreQueues [.push (ascii 'a'),.pop,.pop]).2.2.2 fun c pushed => by
    have only : c = ascii 'a' := by simpa using pushed
    rw [only]
    decide

end
end Mukern
