import Mukern.Presence
import Mukern.Authority
import Mukern.Transfer

/-! What a thread in a reclaimed slot takes over from the slot's dead occupant.
`thread_create` resets the slot's own record; the other threads' capabilities, open
calls and staged sends still name the slot. -/
namespace Mukern
open Kernel Rendezvous

def Event.sends (s : Slot) : Event → Bool
  | .sendCall t _ _ => t = s
  | _ => false

/- The slot had an occupant before its present one. -/
def Reused (h : List Event) (i : Slot) : Prop := 1 < h.countP (Event.creates i)

/- Thread `j` has a send staged for slot `i`, or `i` is dead and `j` lives on with a
capability or an open call for it. The spawning thread gets a capability anyway, and
what concerns slot 0 is allowed without one. -/
def refers (k : Kernel) (caller i j : Slot) : Bool :=
  k.waitingSender i j ipcAny ||
    ((k.threads i).state = .dead && i ≠ 0 && j ≠ 0 && !decide (k.Gone j) &&
      (j ≠ caller && (k.threads j).ctable.hasEndpoint (tid i) || (k.threads j).ipcCallTo = tid i))

/- A `SYS_SPAWN` reclaims a slot that another thread still refers to. -/
def ReusesReferenced (k : Kernel) : Input → Bool
  | .trap tf _ =>
    match k.current,k.freeThread with
    | some caller,some i =>
      tf.vec = syscallVector && Syscall.ofRax tf.rax = .spawn && 0 ≤ cint tf.rdi && cint tf.rdi < 12 &&
        (List.finRange 16).any (refers k caller i)
    | _,_ => false
  | .resume _ | .store _ _ => false

/- A capability for `d` was granted for its present occupant. -/
def CapFresh (k : Kernel) (s d : Slot) : Prop :=
  s ≠ 0 → d ≠ 0 → ¬ k.Gone s → Reused k.history d → (k.threads s).ctable.hasEndpoint (tid d) →
    .grantEndpoint s (tid d) ∈ sinceBirth k.history d

/- An open call from `d` to `s` was made by the present occupant of `d`, to that of `s`. -/
def CallFresh (k : Kernel) (s d : Slot) : Prop :=
  s ≠ 0 → d ≠ 0 → ¬ k.Gone d → (k.threads d).ipcCallTo = tid s →
    .openCall d (tid s) ∈ sinceBirth k.history d ∧
      (Reused k.history s → .openCall d (tid s) ∈ sinceBirth k.history s)

/- The message handed over to `d` was sent after `d` was created, and the rights to
send to a thread and to answer it are younger than the threads they name. -/
structure Uninherited (k : Kernel) : Prop where
  delivered : ∀ newer s d older, k.history = newer ++ .handOver s d :: older →
    ∃ m, (sinceBirth older d).find? (Event.sends s) = some (.sendCall s (tid d) m)
  capability : ∀ s d, CapFresh k s d
  call : ∀ s d, CallFresh k s d

section
variable {k₀ k k' : Kernel} {input : Input} {i j s d : Slot} {e : Event} {es h : List Event}

theorem reusedGrow (uncreated : ∀ e ∈ es, e.creates i = false) : Reused (es ++ h) i ↔ Reused h i := by
  have none : es.countP (Event.creates i) = 0 := by
    rw [List.countP_eq_zero]
    intro e member
    simp [uncreated e member]
  rw [Reused,List.countP_append,none,Nat.zero_add]
  rfl

/- No thread waits to send to a slot when the slot gets a new occupant. -/
def Unawaited : List Event → Prop
  | [] => True
  | e :: older => Unawaited older ∧ ∀ d, e.creates d → ∀ φ, Run naming (actions older) φ →
      ∀ s m, φ s ≠ .sending (tid d) m

theorem Unawaited.tail (unawaited : Unawaited (es ++ h)) : Unawaited h := by
  induction es with
  | nil => exact unawaited
  | cons e es ih => exact ih unawaited.1

theorem Unawaited.grow (unawaited : Unawaited h) (uncreated : ∀ d, ∀ e ∈ es, e.creates d = false) :
    Unawaited (es ++ h) := by
  induction es with
  | nil => exact unawaited
  | cons e es ih =>
    refine ⟨ih fun d e member => uncreated d e (List.mem_cons_of_mem _ member),fun d creates => ?_⟩
    rw [uncreated d e List.mem_cons_self] at creates
    cases creates

theorem actionCreates (action : e.action = some a) : e.creates d = false := by
  cases e with
  | create n parent prog => cases action
  | _ => rfl

/- Whoever waits to send to `d` called after `d` was created. -/
theorem sinceBirthCall {φ m} (run : Run naming (actions h) φ) (unawaited : Unawaited h)
    (sending : φ s = .sending (tid d) m) :
    (sinceBirth h d).find? (Event.sends s) = some (.sendCall s (tid d) m) := by
  induction h generalizing φ with
  | nil =>
    cases run
    cases sending
  | cons e older ih =>
    cases action : e.action with
    | none =>
      have same : actions (e :: older) = actions older := by simp [actions,action]
      rw [same] at run
      have creates : e.creates d = false := by
        by_contra creates
        exact unawaited.2 d (by simpa using creates) φ run s m sending
      have sends : e.sends s = false := by
        cases e with
        | sendCall t dest m => cases action
        | _ => rfl
      rw [sinceBirth,List.takeWhile_cons]
      simp only [creates,Bool.not_false,if_true]
      rw [List.find?_cons_of_neg (by simp [sends])]
      exact ih run unawaited.1 sending
    | some a =>
      have same : actions (e :: older) = a :: actions older := by simp [actions,action]
      rw [same] at run
      rw [sinceBirth,List.takeWhile_cons]
      simp only [actionCreates action,Bool.not_false,if_true]
      cases run with
      | cons before step =>
        obtain rfl | earlier := stepSending step sending
        · cases e with
          | sendCall t dest m' =>
            cases action
            exact List.find?_cons_of_pos (by simp [Event.sends])
          | sendRet t r =>
            rw [Event.action] at action
            split at action <;> cases action
          | recvRet t r m' =>
            rw [Event.action] at action
            split at action <;> cases action
          | _ => cases action
        · have sends : e.sends s = false := by
            cases e with
            | sendCall t dest m' =>
              cases action
              cases step with
              | call idle =>
                by_contra own
                have own : t = s := by simpa [Event.sends] using own
                rw [own,earlier] at idle
                cases idle
            | _ => rfl
          rw [List.find?_cons_of_neg (by simp [sends])]
          exact ih before unawaited.1 earlier

/- The invariant of single moves. -/
structure Fresh (k : Kernel) : Prop where
  carries : Carries k
  unawaited : Unawaited k.history
  used : ∀ j, ∀ e ∈ k.history, e.creates j → presence (k.threads j) ≠ .never
  call : ∀ s d, CallFresh k s d

theorem moveUsed (coherent : Coherent k) (used : ∀ j, ∀ e ∈ k.history, e.creates j → presence (k.threads j) ≠ .never)
    (move : Move k₀ input k k') : ∀ j, ∀ e ∈ k'.history, e.creates j → presence (k'.threads j) ≠ .never := by
  intro j e member creates
  cases moveAppears (j := j) coherent move with
  | dies acting dead died => simp [dead]
  | born created live => simp [live]
  | same same =>
    rw [same]
    cases moveCreates coherent move with
    | none new older uncreated =>
      rw [older] at member
      rcases List.mem_append.mp member with now | before
      · rw [uncreated j e now] at creates
        cases creates
      · exact used j e before creates
    | thread n caller tf prog found acting call named before after =>
      rw [after,logHistory] at member
      rcases List.mem_cons.mp member with rfl | before
      · have own : n = j := by simpa [Event.creates] using creates
        subst own
        rw [← same,after]
        simp [presence,plant]
      · exact used j e before creates

/- A slot that gets another occupant is dead, not unused. -/
theorem reusedDead {n parent prog} (used : ∀ j, ∀ e ∈ k.history, e.creates j → presence (k.threads j) ≠ .never)
    (found : k.freeThread = some n) (reused : Reused (.create n parent prog :: k.history) n) :
    (k.threads n).state = .dead := by
  have earlier : 0 < k.history.countP (Event.creates n) := by
    simpa [Reused,Event.creates] using reused
  obtain ⟨e,member,creates⟩ := List.countP_pos_iff.mp earlier
  obtain unused | dead := freeThreadDead found
  · exact absurd (presenceNever.mpr unused) (used n e member creates)
  · exact dead

theorem reusedOther {n parent prog} (other : d ≠ n) :
    Reused (.create n parent prog :: h) d ↔ Reused h d := by
  have uncreated : ∀ e ∈ [Event.create n parent prog], e.creates d = false := by
    simp [Event.creates,Ne.symm other]
  exact reusedGrow uncreated

theorem unreferenced {n caller tf} (clean : ReusesReferenced k₀ input = false) (acting : Acting k₀ caller)
    (call : IsCall input .spawn tf) (low : 0 ≤ cint tf.rdi) (high : cint tf.rdi < 12)
    (found : k₀.freeThread = some n) (j : Slot) : refers k₀ caller n j = false := by
  obtain ⟨hw,rfl,vec,number⟩ := call
  have none : (List.finRange 16).any (refers k₀ caller n) = false := by
    simpa [ReusesReferenced,acting.2,found,vec,number,low,high] using clean
  simpa using List.any_eq_false.mp none j (List.mem_finRange j)

theorem moveUnawaited (coherent : Coherent k) (carries : Carries k) (unawaited : Unawaited k.history)
    (clean : ReusesReferenced k₀ input = false) (move : Move k₀ input k k') : Unawaited k'.history := by
  cases moveCreates coherent move with
  | none new older uncreated =>
    rw [older]
    exact unawaited.grow uncreated
  | thread n caller tf prog found acting call named before after =>
    rw [after]
    refine ⟨unawaited,fun d creates φ run s m sending => ?_⟩
    have own : n = d := by simpa [Event.creates] using creates
    subst own
    have free : refers k₀ caller n s = false := by
      subst before
      exact unreferenced clean acting call (by omega) (by omega) found s
    cases run.unique carries
    obtain ⟨ipcState,peer,_⟩ := wireSending sending
    have blocked : (k.threads s).state = .blocked := by
      by_contra awake
      obtain none | ⟨receiving,_⟩ := coherent.awake awake
      · simp [ipcState] at none
      · simp [ipcState] at receiving
    subst before
    rw [logThreads] at ipcState peer blocked
    simp [refers,waitingSender,ipcState,peer,blocked] at free

theorem callGrow {new : List Event} (older : k'.history = new ++ k.history)
    (uncreated : ∀ d, ∀ e ∈ new, e.creates d = false) (live : k.Gone d → k'.Gone d)
    (called : (k'.threads d).ipcCallTo = tid s → (k.threads d).ipcCallTo = tid s ∨ .openCall d (tid s) ∈ new)
    (fresh : CallFresh k s d) : CallFresh k' s d := by
  intro sender receiver present open'
  rw [older,sinceBirthGrow (uncreated d),sinceBirthGrow (uncreated s),reusedGrow (uncreated s)]
  rcases called open' with before | now
  · obtain ⟨own,other⟩ := fresh sender receiver (fun gone => present (live gone)) before
    exact ⟨List.mem_append_right _ own,fun reused => List.mem_append_right _ (other reused)⟩
  · exact ⟨List.mem_append_left _ now,fun _ => List.mem_append_left _ now⟩

theorem capGrow {new : List Event} (older : k'.history = new ++ k.history)
    (uncreated : ∀ d, ∀ e ∈ new, e.creates d = false) (live : k.Gone s → k'.Gone s)
    (held : (k'.threads s).ctable.hasEndpoint (tid d) →
      (k.threads s).ctable.hasEndpoint (tid d) ∨ .grantEndpoint s (tid d) ∈ new)
    (fresh : CapFresh k s d) : CapFresh k' s d := by
  intro sender receiver present reused holds
  rw [older,sinceBirthGrow (uncreated d)]
  rw [older,reusedGrow (uncreated d)] at reused
  rcases held holds with before | now
  · exact List.mem_append_right _ (fresh sender receiver (fun gone => present (live gone)) reused before)
  · exact List.mem_append_left _ now

theorem grantResult {t : CTable} {ep : Int} (held : (t.grantEndpoint ep).1.hasEndpoint ep) : (t.grantEndpoint ep).2 = 0 := by
  unfold CTable.grantEndpoint at *
  split
  · rfl
  · rename_i missing
    rw [if_neg missing] at held
    split
    · rfl
    · rename_i full
      rw [full] at held
      exact absurd held missing

/- Whoever holds a capability after a grant held it before or was granted it now. -/
theorem grantHolds {t : Option Slot} {ep target : Int}
    (held : ((k.capGrantEndpoint t ep).1.threads s).ctable.hasEndpoint target) :
    (k.threads s).ctable.hasEndpoint target ∨
      (k.capGrantEndpoint t ep).1.history = .grantEndpoint s target :: k.history := by
  cases t with
  | none => exact .inl held
  | some t =>
    rw [grantTable] at held
    split at held
    · rename_i own
      subst own
      rcases grantEndpointOnly held with before | rfl
      · exact .inl before
      · right
        simp only [capGrantEndpoint,if_pos (grantResult held)]
        rfl
    · exact .inl held

theorem grantCallTo {t : Option Slot} {ep : Int} :
    ((k.capGrantEndpoint t ep).1.threads d).ipcCallTo = (k.threads d).ipcCallTo := by
  unfold capGrantEndpoint
  split
  · rfl
  · dsimp only
    split <;> simp only [logThreads,updThreads] <;> split <;> simp [*]

theorem grantIoCallTo {t : Option Slot} {base len : BitVec 16} :
    ((k.capGrantIo t base len).1.threads d).ipcCallTo = (k.threads d).ipcCallTo := by
  unfold capGrantIo
  split
  · rfl
  · dsimp only
    split <;> simp only [logThreads,updThreads] <;> split <;> simp [*]

theorem grantIoHolds {t : Option Slot} {base len : BitVec 16} {target : Int}
    (held : ((k.capGrantIo t base len).1.threads s).ctable.hasEndpoint target) :
    (k.threads s).ctable.hasEndpoint target := by
  cases t with
  | none => exact held
  | some t =>
    rw [grantIoTable] at held
    split at held
    · rename_i own
      subst own
      exact grantIoEndpoint held
    · exact held

theorem moveCallTo (move : Move k₀ input k k') (called : (k'.threads d).ipcCallTo = tid s) :
    (k.threads d).ipcCallTo = tid s ∨ k'.history = .openCall d (tid s) :: k.history := by
  obtain same | authorises := moveAuthority move
  · have callTo : (k'.threads d).ipcCallTo = (k.threads d).ipcCallTo := congrArg Prod.snd (same d)
    exact .inl (callTo.symm.trans called)
  · cases authorises with
    | @openCall _ i dest acting allowed =>
      by_cases own : d = i
      · subst own
        have named : dest = tid s := by simpa [openCall] using called
        rw [named]
        exact .inr rfl
      · exact .inl (by simpa [openCall,own] using called)
    | @closeCall _ i source acting =>
      left
      rw [updThreads] at called
      split at called
      · rename_i own
        unfold closeCall at called
        split at called
        · have := tidNonneg s
          dsimp only at called
          omega
        · rwa [own]
      · exact called
    | create parent prog =>
      left
      unfold threadCreate at called
      split at called
      · rw [logThreads,updThreads] at called
        split at called
        · have := tidNonneg s
          simp only [plant] at called
          omega
        · exact called
      · exact called
    | grantChild child acting created => exact .inl (grantCallTo.symm.trans called)
    | grantCap acting call held => exact .inl (grantCallTo.symm.trans called)
    | grantIo target base len => exact .inl (grantIoCallTo.symm.trans called)

theorem moveHolds {target : Int} (move : Move k₀ input k k') (held : (k'.threads s).ctable.hasEndpoint target) :
    (k.threads s).ctable.hasEndpoint target ∨ k'.history = .grantEndpoint s target :: k.history := by
  obtain same | authorises := moveAuthority move
  · have table : (k'.threads s).ctable = (k.threads s).ctable := congrArg Prod.fst (same s)
    exact .inl (table ▸ held)
  · cases authorises with
    | @openCall _ i dest acting allowed =>
      left
      simp only [openCall,logThreads,updThreads] at held
      split at held
      · rename_i own
        rwa [own]
      · exact held
    | @closeCall _ i source acting =>
      left
      rw [updThreads] at held
      split at held
      · rename_i own
        unfold closeCall at held
        rw [own]
        split at held <;> exact held
      · exact held
    | create parent prog =>
      left
      unfold threadCreate at held
      split at held
      · rw [logThreads,updThreads] at held
        split at held
        · simp [plant,clearEndpoint] at held
        · exact held
      · exact held
    | grantChild child acting created => exact grantHolds held
    | grantCap acting call held' => exact grantHolds (k := k₀.log _) held
    | grantIo target base len => exact .inl (grantIoHolds held)

theorem callMove {new : List Event} (coherent : Coherent k) (move : Move k₀ input k k')
    (older : k'.history = new ++ k.history) (uncreated : ∀ d, ∀ e ∈ new, e.creates d = false)
    (fresh : CallFresh k s d) : CallFresh k' s d := by
  refine callGrow older uncreated (moveGone coherent move older uncreated) (fun called => ?_) fresh
  rcases moveCallTo move called with before | now
  · exact .inl before
  · have same : new = [.openCall d (tid s)] := List.append_cancel_right (older.symm.trans now)
    exact .inr (by simp [same])

theorem capMove {new : List Event} (coherent : Coherent k) (move : Move k₀ input k k')
    (older : k'.history = new ++ k.history) (uncreated : ∀ d, ∀ e ∈ new, e.creates d = false)
    (fresh : CapFresh k s d) : CapFresh k' s d := by
  refine capGrow older uncreated (moveGone coherent move older uncreated) (fun held => ?_) fresh
  rcases moveHolds move held with before | now
  · exact .inl before
  · have same : new = [.grantEndpoint s (tid d)] := List.append_cancel_right (older.symm.trans now)
    exact .inr (by simp [same])

/- What nobody refers to, nobody inherits. -/
theorem referenceFree {n caller} (free : refers k caller n j = false) (dead : (k.threads n).state = .dead)
    (slot : n ≠ 0) (other : j ≠ 0) (live : ¬ k.Gone j) :
    (j ≠ caller → (k.threads j).ctable.hasEndpoint (tid n) = false) ∧ (k.threads j).ipcCallTo ≠ tid n := by
  simp only [refers,Bool.or_eq_false_iff] at free
  simpa [dead,slot,other,live] using free.2

theorem callCreate {n caller prog} (used : ∀ j, ∀ e ∈ k.history, e.creates j → presence (k.threads j) ≠ .never)
    (found : k.freeThread = some n) (free : ∀ j, refers k caller n j = false) (fresh : CallFresh k s d) :
    CallFresh ((k.upd n (plant · (k.stackTop n) prog)).log (.create n (some caller) prog)) s d := by
  intro sender receiver present called
  by_cases own : d = n
  · have := tidNonneg s
    simp only [logThreads,updThreads,if_pos own,plant] at called
    omega
  · simp only [Gone,logThreads,updThreads,if_neg own] at present called
    obtain ⟨mine,other⟩ := fresh sender receiver present called
    rw [logHistory,updHistory,sinceBirthOther own]
    refine ⟨List.mem_cons_of_mem _ mine,fun reused => ?_⟩
    by_cases spawned : s = n
    · subst spawned
      have dead := reusedDead used found reused
      exact absurd called (referenceFree (free d) dead sender receiver present).2
    · rw [sinceBirthOther spawned]
      exact List.mem_cons_of_mem _ (other ((reusedOther spawned).mp reused))

theorem capCreate {n caller prog} (used : ∀ j, ∀ e ∈ k.history, e.creates j → presence (k.threads j) ≠ .never)
    (found : k.freeThread = some n) (free : ∀ j, refers k caller n j = false) (parent : ¬ (s = caller ∧ d = n))
    (fresh : CapFresh k s d) :
    CapFresh ((k.upd n (plant · (k.stackTop n) prog)).log (.create n (some caller) prog)) s d := by
  intro sender receiver present reused held
  by_cases spawned : s = n
  · simp only [logThreads,updThreads,if_pos spawned,plant,clearEndpoint] at held
    cases held
  · simp only [Gone,logThreads,updThreads,if_neg spawned] at present held
    by_cases own : d = n
    · subst own
      have dead := reusedDead used found reused
      have none := (referenceFree (free s) dead receiver sender present).1 fun same => parent ⟨same,rfl⟩
      rw [none] at held
      cases held
    · rw [logHistory,updHistory,sinceBirthOther own]
      exact List.mem_cons_of_mem _ (fresh sender receiver present ((reusedOther own).mp reused) held)

theorem moveFresh (coherent : Coherent k) (fresh : Fresh k) (clean : ReusesReferenced k₀ input = false)
    (move : Move k₀ input k k') : Fresh k' := by
  refine ⟨moveCarries fresh.carries coherent move,moveUnawaited coherent fresh.carries fresh.unawaited clean move,
    moveUsed coherent fresh.used move,fun s d => ?_⟩
  cases moveCreates coherent move with
  | none new older uncreated => exact callMove coherent move older uncreated (fresh.call s d)
  | thread n caller tf prog found acting call named before after =>
    subst before after
    have free := unreferenced clean acting call (by omega) (by omega) found
    exact callCreate fresh.used found free (fresh.call s d)

/- A step that is no spawn leaves the capabilities fresh. -/
theorem stepCapFresh (coherent : Coherent k₀) (enabled : k₀.Enabled input) (other : ∀ tf, ¬ IsCall input .spawn tf)
    (fresh : CapFresh k₀ s d) : CapFresh (k₀.step input) s d := by
  have all : ∀ k, Moves k₀ input k₀ k → CapFresh k s d := by
    intro k moves
    induction moves with
    | refl => exact fresh
    | tail before move ih =>
      have between := movesCoherent coherent before
      cases moveCreates between move with
      | none new older uncreated => exact capMove between move older uncreated ih
      | thread n caller tf prog found acting call named start after => exact absurd call (other tf)
  exact all _ (stepMoves enabled)

theorem capLog (e : Event) (uncreated : ∀ d, e.creates d = false) (fresh : CapFresh k s d) : CapFresh (k.log e) s d := by
  have older : (k.log e).history = [e] ++ k.history := rfl
  exact capGrow older (by simpa using uncreated) id .inl fresh

theorem capGrant {t ep} (fresh : CapFresh k s d) : CapFresh (k.capGrantEndpoint t ep).1 s d := by
  obtain ⟨new,older,uncreated⟩ : ∃ new, (k.capGrantEndpoint t ep).1.history = new ++ k.history ∧
      ∀ d, ∀ e ∈ new, e.creates d = false := by
    unfold capGrantEndpoint
    split
    · exact ⟨[],rfl,by simp⟩
    · rename_i t
      dsimp only
      split
      · exact ⟨[.grantEndpoint t ep],rfl,by simp [Event.creates]⟩
      · exact ⟨[],rfl,by simp⟩
  refine capGrow older uncreated (fun gone => ?_) (fun held => ?_) fresh
  · rw [presenceGone] at *
    rwa [presenceGrant]
  · rcases grantHolds held with before | now
    · exact .inl before
    · have same : new = [.grantEndpoint s (tid d)] := List.append_cancel_right (older.symm.trans now)
      exact .inr (by simp [same])

/- A grant that leaves the capability in the table is on record, also if it was there. -/
theorem grantLogged {t : Slot} {ep : Int}
    (held : ((k.capGrantEndpoint (some t) ep).1.threads t).ctable.hasEndpoint ep) :
    (k.capGrantEndpoint (some t) ep).1.history = .grantEndpoint t ep :: k.history := by
  rw [grantTable,if_pos rfl] at held
  simp only [capGrantEndpoint,if_pos (grantResult held)]
  rfl

/- The parent of a new thread is granted the capability in the same step. -/
theorem spawnCapFresh {tf} (used : ∀ j, ∀ e ∈ k.history, e.creates j → presence (k.threads j) ≠ .never)
    (free : ∀ n, k.freeThread = some n → 0 ≤ cint tf.rdi → cint tf.rdi < 12 → ∀ j, refers k i n j = false)
    (fresh : CapFresh k s d) : CapFresh (k.sysSpawn i tf) s d := by
  unfold sysSpawn procSpawn
  by_cases valid : 0 ≤ cint tf.rdi ∧ cint tf.rdi < 12
  · rw [dif_pos valid,threadCreate]
    cases found : k.freeThread with
    | none => exact capLog _ (fun _ => rfl) fresh
    | some n =>
      simp only [if_pos (tidNonneg n)]
      refine capLog _ (fun _ => rfl) ?_
      by_cases parent : s = i ∧ d = n
      · obtain ⟨rfl,rfl⟩ := parent
        intro _ _ _ _ held
        rw [grantLogged held]
        have grant : ∀ e ∈ [Event.grantEndpoint s (tid d)], e.creates d = false := by simp [Event.creates]
        have since := sinceBirthGrow (h := .create d (some s) ⟨(cint tf.rdi).toNat,by omega⟩ :: k.history) grant
        exact since ▸ List.mem_cons_self
      · exact capGrant (capCreate used found (free n found valid.1 valid.2) parent fresh)
  · rw [dif_neg valid]
    exact capLog _ (fun _ => rfl) fresh

theorem stepCaps (coherent : Coherent k) (fresh : Fresh k) (clean : ReusesReferenced k input = false)
    (enabled : k.Enabled input) (caps : ∀ s d, CapFresh k s d) : ∀ s d, CapFresh (k.step input) s d := by
  intro s d
  by_cases spawns : ∃ tf, IsCall input .spawn tf
  · obtain ⟨tf,hw,rfl,vec,number⟩ := spawns
    have notTimer : tf.vec ≠ vecTimer := by simp [vec,syscallVector,vecTimer]
    cases current : k.current with
    | none =>
      have idle : k.step (.trap tf hw) = k := by simp only [step,isrHandler,if_neg notTimer,if_pos vec,current]
      rw [idle]
      exact caps s d
    | some i =>
      simp only [step,isrHandler,if_neg notTimer,if_pos vec,current,doSyscall,number]
      have acting : Acting k i := ⟨enabled.1,current⟩
      have used : ∀ j, ∀ e ∈ (k.log (.syscall i tf)).history, e.creates j → presence (k.threads j) ≠ .never := by
        intro j e member creates
        rcases List.mem_cons.mp member with rfl | before
        · cases creates
        · exact fresh.used j e before creates
      have free : ∀ n, (k.log (.syscall i tf)).freeThread = some n → 0 ≤ cint tf.rdi → cint tf.rdi < 12 →
          ∀ j, refers (k.log (.syscall i tf)) i n j = false := by
        intro n found low high
        have found' : k.freeThread = some n := found
        have free : ∀ j, refers k i n j = false := unreferenced clean acting ⟨hw,rfl,vec,number⟩ low high found'
        exact free
      exact spawnCapFresh (k := k.log (.syscall i tf)) used free (capLog _ (fun _ => rfl) (caps s d))
  · exact stepCapFresh coherent enabled (fun tf call => spawns ⟨tf,call⟩) (caps s d)

theorem bootFresh (memory : Memory) (stackBase : Word) : Fresh (boot memory stackBase) := by
  have parked : ∀ j, j ≠ 0 → (boot memory stackBase).threads j = threadZero := fun j other => if_neg other
  refine ⟨bootCarries memory stackBase,⟨trivial,?_⟩,?_,?_⟩
  · intro d _ φ run s m sending
    cases run
    cases sending
  · intro j e member creates
    cases List.mem_singleton.mp member
    have own : 0 = j := by simpa [Event.creates] using creates
    subst own
    exact Presence.noConfusion
  · intro s d _ receiver present
    rw [Gone,parked d receiver] at present
    exact absurd (.inl rfl) present

theorem reachFresh (h : Transition.Reach machine (fun k input => ReusesReferenced k input = false) k) : Fresh k :=
  reachUnder Fresh bootFresh
    (fun _ _ _ _ clean _ _ _ coherent fresh move => moveFresh coherent fresh clean move) h

theorem reachCaps (h : Transition.Reach machine (fun k input => ReusesReferenced k input = false) k) :
    ∀ s d, CapFresh k s d := by
  have facts : ∀ k, Transition.Reach machine (fun k input => ReusesReferenced k input = false) k → Coherent k ∧ Fresh k :=
    fun k h => ⟨reachCoherent h,reachFresh h⟩
  refine h.invariantUnder (fun k => ∀ s d, CapFresh k s d) facts ?_ ?_
  · rintro _ ⟨memory,stackBase,rfl⟩ s d _ _ _ reused
    have once : (boot memory stackBase).history = [.create 0 none 0] := rfl
    rw [Reused,once] at reused
    have short := List.countP_le_length (p := Event.creates d) (l := [.create 0 none 0])
    simp only [List.length_singleton] at short
    omega
  · rintro k input ⟨coherent,fresh⟩ caps enabled clean
    exact stepCaps coherent fresh clean enabled caps

/- In a run that reclaims no slot while another thread refers to it, a reused slot
inherits nothing from its previous occupant. -/
theorem slotReuse (h : Transition.Reach machine (fun k input => ReusesReferenced k input = false) k) :
    Uninherited k := by
  have fresh := reachFresh h
  refine ⟨fun newer s d older split => ?_,reachCaps h,fresh.call⟩
  have unawaited := fresh.unawaited
  have carries := fresh.carries
  rw [split] at unawaited
  rw [Carries,split,actions,List.filterMap_append] at carries
  obtain ⟨φ,handed⟩ := carries.tail
  cases handed with
  | cons before step =>
    cases step with
    | handOver sender receiver accepts => exact ⟨_,sinceBirthCall before unawaited.tail.1 sender⟩

/- Init spawns thread 1, which exits, and spawns again into its slot. -/
theorem slotReuseOwn :
    Uninherited (Transition.run machine Script.start [.tick,.go,.call 4 1 0 0,.tick,.go,.call 0 0 0 0,.go,.call 4 2 0 0]) :=
  slotReuse (Transition.Reach.run (S := machine) (.start ⟨Script.memory,0x110000,rfl⟩) (by decide +kernel))

/- Init waits to send to thread 1, which exits; thread 2 spawns into slot 1, and the
new thread receives the message. -/
def Script.staleSend : List Input :=
  [.tick,.go,.call 4 1 0 0,.call 4 1 0 0,.call 2 1 Script.userPage 0,.go,.call 0 0 0 0,.go,.call 4 2 0 0,.tick,.go,
    .call 3 (-1) Script.userPage 0]

theorem staleDelivered : ∃ k, Reachable k ∧ ¬ Uninherited k := by
  refine ⟨Transition.run machine Script.start Script.staleSend,Script.reach (by decide +kernel),fun fresh => ?_⟩
  obtain ⟨m,found⟩ := fresh.delivered ((Transition.run machine Script.start Script.staleSend).history.take 3) 0 1
    ((Transition.run machine Script.start Script.staleSend).history.drop 4) (by decide +kernel)
  have none : (sinceBirth ((Transition.run machine Script.start Script.staleSend).history.drop 4) 1).find?
      (Event.sends 0) = .none := by decide +kernel
  cases none.symm.trans found

end
end Mukern
