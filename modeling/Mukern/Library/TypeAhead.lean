import Mukern.Library.Transition

/-! A server that takes one request at a time and eats input while it is busy with it;
what arrives before is kept in a queue. However the input is cut and wherever the
requests fall, the outcome depends only on the input and on the requests. -/
namespace TypeAhead

structure Discipline (σ β ρ : Type) where
  busy : σ → Bool
  eat : σ → β → σ
  ask : σ → ρ → σ

inductive Arrival (β ρ : Type) where
  | input (bs : List β)
  | request (r : ρ)

def Arrival.bytes {β ρ : Type} : Arrival β ρ → List β
  | .input bs => bs
  | .request _ => []

def Arrival.request? {β ρ : Type} : Arrival β ρ → Option ρ
  | .input _ => none
  | .request r => some r

namespace Discipline
variable {σ τ β ρ : Type} (D : Discipline σ β ρ)

def serve (s : σ) : List β → σ × List β
  | [] => (s,[])
  | b :: queue => if D.busy s then serve (D.eat s b) queue else (s,b :: queue)

def arrive (p : σ × List β) : Arrival β ρ → σ × List β
  | .input bs => D.serve p.1 (p.2 ++ bs)
  | .request r => D.serve (D.ask p.1 r) p.2

/- All the input is there from the start, and each request comes after the one before
has been served. -/
def outcome (s : σ) (input : List β) : List ρ → σ × List β
  | [] => D.serve s input
  | r :: rest =>
    if D.busy (D.serve s input).1 then D.serve s input
    else outcome (D.ask (D.serve s input).1 r) (D.serve s input).2 rest

/- A busy server has eaten its queue. -/
def Settled (p : σ × List β) : Prop := D.busy p.1 = true → p.2 = []

/- No request comes while one is being served. -/
def Timely : σ × List β → List (Arrival β ρ) → Prop
  | _,[] => True
  | p,a :: rest => (a.request?.isSome → D.busy p.1 = false) ∧ Timely (D.arrive p a) rest

variable {D} {s : σ} {p : σ × List β} {bs input : List β}

theorem serveIdle (idle : D.busy s = false) (queue : List β) : D.serve s queue = (s,queue) := by
  cases queue with
  | nil => rfl
  | cons b queue => simp [serve,idle]

theorem serveSettled (s : σ) (queue : List β) : D.Settled (D.serve s queue) := by
  induction queue generalizing s with
  | nil => exact fun _ => rfl
  | cons b queue ih =>
    unfold serve
    split
    · exact ih _
    · rename_i idle
      exact fun busy => absurd busy idle

theorem serveStays (settled : D.Settled p) : D.serve p.1 p.2 = p := by
  cases busy : D.busy p.1 with
  | false => exact serveIdle busy p.2
  | true =>
    have empty := settled busy
    rw [empty,serve,← empty]

theorem serveAppend (s : σ) (bs more : List β) : D.serve (D.serve s bs).1 ((D.serve s bs).2 ++ more) = D.serve s (bs ++ more) := by
  induction bs generalizing s with
  | nil => rfl
  | cons b bs ih =>
    cases busy : D.busy s with
    | true => simpa [serve,busy] using ih (D.eat s b)
    | false => rw [serveIdle busy]

theorem serveMember {b : β} {queue : List β} (member : b ∈ (D.serve s queue).2) : b ∈ queue := by
  induction queue generalizing s with
  | nil => exact member
  | cons c queue ih =>
    unfold serve at member
    split at member
    · exact List.mem_cons_of_mem c (ih member)
    · exact member

theorem outcomeServe (s : σ) (bs more : List β) (rs : List ρ) :
    D.outcome (D.serve s bs).1 ((D.serve s bs).2 ++ more) rs = D.outcome s (bs ++ more) rs := by
  cases rs with
  | nil => exact serveAppend s bs more
  | cons r rs => simp only [outcome,serveAppend]

theorem arriveSettled (p : σ × List β) (a : Arrival β ρ) : D.Settled (D.arrive p a) := by
  cases a with
  | input bs => exact serveSettled _ _
  | request r => exact serveSettled _ _

theorem runOutcome {arrivals : List (Arrival β ρ)} (settled : D.Settled p) (timely : D.Timely p arrivals) :
    arrivals.foldl D.arrive p = D.outcome p.1 (p.2 ++ arrivals.flatMap Arrival.bytes) (arrivals.filterMap Arrival.request?) := by
  induction arrivals generalizing p with
  | nil => simpa [outcome] using (serveStays settled).symm
  | cons a arrivals ih =>
    obtain ⟨free,rest⟩ := timely
    rw [List.foldl_cons,List.flatMap_cons,ih (arriveSettled p a) rest]
    cases a with
    | input bs =>
      rw [List.filterMap_cons_none rfl,← List.append_assoc]
      exact outcomeServe p.1 (p.2 ++ bs) _ _
    | request r =>
      have idle := free rfl
      have asked : (Arrival.request r : Arrival β ρ).request? = some r := rfl
      rw [List.filterMap_cons_some asked,outcome,serveIdle idle,idle]
      exact outcomeServe (D.ask p.1 r) p.2 _ _

/- Two ways to cut the same input and to place the same requests. -/
theorem sameOutcome {queue queue' : List β} {arrivals arrivals' : List (Arrival β ρ)} (settled : D.Settled (s,queue)) (settled' : D.Settled (s,queue'))
    (timely : D.Timely (s,queue) arrivals) (timely' : D.Timely (s,queue') arrivals')
    (bytes : queue ++ arrivals.flatMap Arrival.bytes = queue' ++ arrivals'.flatMap Arrival.bytes)
    (requests : arrivals.filterMap Arrival.request? = arrivals'.filterMap Arrival.request?) :
    arrivals.foldl D.arrive (s,queue) = arrivals'.foldl D.arrive (s,queue') := by
  rw [runOutcome settled timely,runOutcome settled' timely',bytes,requests]

end Discipline

/- A loop that takes its input from a container: `drain n` makes at most `n` turns. -/
structure Drains {κ σ β ρ : Type} (D : Discipline σ β ρ) (drain : Nat → κ → κ) (contents : κ → List β) (good : β → Prop)
    (matching : σ → κ → Prop) : Prop where
  done : ∀ k, drain 0 k = k
  idle : ∀ {s k n}, matching s k → D.busy s = false → drain n k = k
  turn : ∀ {s k b queue n}, matching s k → D.busy s = true → contents k = b :: queue → good b →
    ∃ k', drain (n + 1) k = drain n k' ∧ matching (D.eat s b) k' ∧ contents k' = queue

theorem Drains.drained {κ σ β ρ : Type} {D : Discipline σ β ρ} {drain : Nat → κ → κ} {contents : κ → List β} {good : β → Prop}
    {matching : σ → κ → Prop} (drains : Drains D drain contents good matching) {s : σ} {k : κ} {queue : List β} (start : matching s k)
    (held : contents k = queue) (fine : ∀ b ∈ queue, good b) :
    matching (D.serve s queue).1 (drain queue.length k) ∧ contents (drain queue.length k) = (D.serve s queue).2 := by
  induction queue generalizing s k with
  | nil =>
    rw [List.length_nil,drains.done]
    exact ⟨start,held⟩
  | cons b queue ih =>
    cases busy : D.busy s with
    | false =>
      rw [drains.idle start busy,Discipline.serveIdle busy]
      exact ⟨start,held⟩
    | true =>
      obtain ⟨k',turned,next,left⟩ := drains.turn (n := queue.length) start busy held (fine b List.mem_cons_self)
      rw [List.length_cons,turned,Discipline.serve,if_pos busy]
      exact ih next left fun b member => fine b (List.mem_cons_of_mem _ member)

/- What the steps of a run bring. -/
def arrivals {κ ι β ρ : Type} (S : Transition.System κ ι) (brings : κ → ι → Option (Arrival β ρ)) : κ → List ι → List (Arrival β ρ)
  | _,[] => []
  | k,i :: is => (brings k i).toList ++ arrivals S brings (S.next k i) is

/- A transition system that behaves like the server; the steps that bring nothing leave
the server alone. -/
structure Runs {κ ι σ β ρ : Type} (S : Transition.System κ ι) (ok : κ → ι → Prop) (D : Discipline σ β ρ)
    (brings : κ → ι → Option (Arrival β ρ)) (matching : κ → σ × List β → Prop) : Prop where
  step : ∀ {k i p}, matching k p → S.enabled k i → ok k i → matching (S.next k i) ((brings k i).toList.foldl D.arrive p)
  free : ∀ {k i p a}, matching k p → ok k i → brings k i = some a → a.request?.isSome → D.busy p.1 = false

theorem Runs.run {κ ι σ β ρ : Type} {S : Transition.System κ ι} {ok : κ → ι → Prop} {D : Discipline σ β ρ}
    {brings : κ → ι → Option (Arrival β ρ)} {matching : κ → σ × List β → Prop} (runs : Runs S ok D brings matching) {k : κ}
    {p : σ × List β} {is : List ι} (start : matching k p) (admits : Transition.Admits S ok k is) :
    matching (Transition.run S k is) ((arrivals S brings k is).foldl D.arrive p) ∧ D.Timely p (arrivals S brings k is) := by
  induction is generalizing k p with
  | nil => exact ⟨start,trivial⟩
  | cons i is ih =>
    obtain ⟨enabled,meets,rest⟩ := admits
    have next := runs.step start enabled meets
    have free := fun a brought => runs.free (a := a) start meets brought
    cases brought : brings k i with
    | none =>
      rw [brought] at next
      rw [arrivals,brought]
      exact ih next rest
    | some a =>
      rw [brought] at next
      rw [arrivals,brought]
      obtain ⟨last,timely⟩ := ih next rest
      exact ⟨last,free a brought,timely⟩

end TypeAhead
