import Mukern.Library.Ring

/-! A queue of bounded length under any order of pushes and pops, and when an
implementation with states of its own behaves as one. -/
namespace Fifo
open Buffers

inductive Op (α : Type) where
  | push (x : α)
  | pop

structure Implementation (σ α β : Type) where
  push : σ → α → σ
  pop : σ → β × σ

variable {σ α β : Type} {capacity : Nat} {queue : List α} {ops : List (Op α)}

/- A full queue drops the new element. -/
def push (capacity : Nat) (queue : List α) (x : α) : List α := if queue.length < capacity then queue ++ [x] else queue

def after (capacity : Nat) (queue : List α) : Op α → List α
  | .push x => push capacity queue x
  | .pop => queue.tail

def run (capacity : Nat) (queue : List α) (ops : List (Op α)) : List α := ops.foldl (after capacity) queue

/- What the pops return, `none` from an empty queue. -/
def popped (capacity : Nat) : List α → List (Op α) → List (Option α)
  | _,[] => []
  | queue,.push x :: ops => popped capacity (push capacity queue x) ops
  | queue,.pop :: ops => queue.head? :: popped capacity queue.tail ops

/- The pushed elements that found room. -/
def accepted (capacity : Nat) : List α → List (Op α) → List α
  | _,[] => []
  | queue,.push x :: ops => (if queue.length < capacity then [x] else []) ++ accepted capacity (push capacity queue x) ops
  | queue,.pop :: ops => accepted capacity queue.tail ops

theorem pushAccepts (x : α) : push capacity queue x = queue ++ if queue.length < capacity then [x] else [] := by
  unfold push
  split
  · rfl
  · exact (List.append_nil queue).symm

/- Nothing is lost, doubled or overtaken. -/
theorem conserved (capacity : Nat) (queue : List α) (ops : List (Op α)) :
    queue ++ accepted capacity queue ops = (popped capacity queue ops).reduceOption ++ run capacity queue ops := by
  induction ops generalizing queue with
  | nil => exact List.append_nil queue
  | cons op ops ih =>
    cases op with
    | push x =>
      have rest := ih (push capacity queue x)
      rwa [pushAccepts,List.append_assoc,← pushAccepts] at rest
    | pop =>
      have rest := ih queue.tail
      cases queue with
      | nil => exact rest
      | cons x queue => exact congrArg (x :: ·) rest

/- What the queue holds was there at the start or has been pushed. -/
theorem runMember {x : α} (held : x ∈ run capacity queue ops) : x ∈ queue ∨ .push x ∈ ops := by
  induction ops generalizing queue with
  | nil => exact .inl held
  | cons op ops ih =>
    rcases ih held with first | later
    · cases op with
      | push y =>
        have first' : x ∈ push capacity queue y := first
        rw [pushAccepts] at first'
        rcases List.mem_append.mp first' with old | new
        · exact .inl old
        · split at new
          · rw [List.mem_singleton.mp new]
            exact .inr List.mem_cons_self
          · cases new
      | pop => exact .inl (List.mem_of_mem_tail first)
    · exact .inr (List.mem_cons_of_mem op later)

namespace Implementation
variable (I : Implementation σ α β) {s : σ}

def after (s : σ) : Op α → σ
  | .push x => I.push s x
  | .pop => (I.pop s).2

def run (s : σ) (ops : List (Op α)) : σ := ops.foldl I.after s

def returned : σ → List (Op α) → List β
  | _,[] => []
  | s,.push x :: ops => returned (I.push s x) ops
  | s,.pop :: ops => (I.pop s).1 :: returned (I.pop s).2 ops

/- `holds s queue` is kept by every push and pop, and a pop returns what the queue says. -/
structure Refines (capacity : Nat) (answer : Option α → β) (holds : σ → List α → Prop) : Prop where
  push : ∀ {s queue} x, holds s queue → holds (I.push s x) (Fifo.push capacity queue x)
  pop : ∀ {s queue}, holds s queue → (I.pop s).1 = answer queue.head? ∧ holds (I.pop s).2 queue.tail

variable {I} {answer : Option α → β} {holds : σ → List α → Prop}

theorem Refines.runs (refines : I.Refines capacity answer holds) (start : holds s queue) (ops : List (Op α)) :
    holds (I.run s ops) (Fifo.run capacity queue ops) ∧ I.returned s ops = (popped capacity queue ops).map answer := by
  induction ops generalizing s queue with
  | nil => exact ⟨start,rfl⟩
  | cons op ops ih =>
    cases op with
    | push x => exact ih (refines.push x start)
    | pop =>
      obtain ⟨first,kept⟩ := refines.pop start
      obtain ⟨rest,same⟩ := ih kept
      refine ⟨rest,?_⟩
      rw [returned,popped,List.map_cons,first,same]

end Implementation

/- A ring of `size` cells holds one element less. -/
def ofRing (α : Type) (size : Nat) : Implementation (Ring α size) α (Option α) where
  push := Ring.push
  pop ring := match ring.pop with
    | none => (none,ring)
    | some (x,rest) => (some x,rest)

theorem ringRefines (size : Nat) : (ofRing α size).Refines (size - 1) id fun ring queue => ring.contents = queue where
  push := by
    rintro ring _ x rfl
    have pushed := Ring.pushContents ring x
    have same : ring.used + 1 < size ↔ ring.contents.length < size - 1 := by
      rw [Ring.contentsLength]
      omega
    simp only [same] at pushed
    exact pushed
  pop := by
    rintro ring _ rfl
    rcases popped : ring.pop with _ | ⟨x,rest⟩
    · have empty := Ring.popEmpty popped
      simp only [ofRing,popped,empty]
      exact ⟨rfl,rfl⟩
    · have held := Ring.popContents popped
      simp only [ofRing,popped,held]
      exact ⟨rfl,rfl⟩

end Fifo
