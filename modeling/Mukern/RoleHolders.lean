import Mukern.Roles
import Mukern.IrqAccount
import Mukern.Presence
import Mukern.Library.Trace

/-! Who holds a role of the kernel, against who has taken it. The tables name slots, and
any thread may write them. -/
namespace Mukern
open Kernel Trace

/- The occupant of slot `i` has taken the role itself. -/
def Took (h : List Event) (i : Slot) (r : Role) : Prop := ∃ e ∈ sinceBirth h i, e.takes i r

instance (h : List Event) (i : Slot) (r : Role) : Decidable (Took h i r) := by unfold Took; infer_instance

/- A `SYS_SPAWN` reclaims a slot that a routing table still names. -/
def InheritsRole (k : Kernel) : Input → Bool
  | .trap tf _ =>
    match k.current,k.freeThread with
    | some _,some n =>
      tf.vec = syscallVector && Syscall.ofRax tf.rax = .spawn && 0 ≤ cint tf.rdi && cint tf.rdi < 12 &&
        (k.pagerTid = tid n || (List.finRange 16).any fun line => k.irqTid line = tid n)
    | _,_ => false
  | .resume _ | .store _ _ => false

/- Interrupts and page faults have gone to threads that asked for them themselves, and
nobody else has been told of an interrupt. -/
structure OwnRoles (k : Kernel) : Prop where
  posted : Always (fun e older => ∀ line d, e = .irqPost line d → Took older d (.irq line)) k.history
  forwarded : Always (fun e older => ∀ f addr pager, e = .fault f addr pager → ∃ p, pager = tid p ∧ Took older p .pager) k.history
  signalled : Always (fun e older => ∀ d m, e = .recvRet d ipcIrqSender m → ∃ line, Took older d (.irq line)) k.history

/- The tables name nobody or a thread that has taken the role. -/
structure Appointed (k : Kernel) : Prop where
  named : ∀ r, k.roleTid r = -1 ∨ ∃ i, k.roleTid r = tid i
  took : ∀ i r, k.roleTid r = tid i → Took k.history i r

section
variable {k₀ k k' : Kernel} {input : Input} {i d : Slot} {r : Role} {e : Event} {h es : List Event}

theorem Took.grow (took : Took h i r) (uncreated : ∀ e ∈ es, e.creates i = false) : Took (es ++ h) i r := by
  obtain ⟨e,member,takes⟩ := took
  exact ⟨e,by rw [sinceBirthGrow uncreated]; exact List.mem_append_right _ member,takes⟩

theorem sinceBirthSplit (member : e ∈ sinceBirth h i) : ∃ above below, h = above ++ e :: below ∧ ∀ e' ∈ above ++ [e], e'.creates i = false := by
  obtain ⟨above,below,split⟩ := List.append_of_mem member
  have whole : h = sinceBirth h i ++ h.dropWhile fun e => !e.creates i := List.takeWhile_append_dropWhile.symm
  refine ⟨above,below ++ h.dropWhile fun e => !e.creates i,?_,fun e' inside => ?_⟩
  · conv_lhs => rw [whole,split]
    simp
  · have since : e' ∈ sinceBirth h i := by
      rw [split]
      simp only [List.mem_append,List.mem_cons] at inside ⊢
      tauto
    simpa using List.all_eq_true.mp List.all_takeWhile e' since

/- Whoever an interrupt was posted to has registered for it. -/
theorem postedTook {line : Fin 16} (posted : Always (fun e older => ∀ line d, e = .irqPost line d → Took older d (.irq line)) h)
    (member : .irqPost line d ∈ sinceBirth h d) : Took h d (.irq line) := by
  obtain ⟨above,below,split,uncreated⟩ := sinceBirthSplit member
  have took : Took below d (.irq line) := posted above _ below split line d rfl
  have grown : Took ((above ++ [.irqPost line d]) ++ below) d (.irq line) := took.grow uncreated
  rw [split]
  simpa using grown

theorem alone (older : k'.history = es ++ k.history) (only : k'.history = e :: k.history) : es = [e] :=
  List.append_cancel_right (older.symm.trans only)

/- A new event with nothing under it that has happened in the same move. -/
theorem growAlone {P : Event → List Event → Prop} (always : Always P k.history) (older : k'.history = es ++ k.history)
    (fits : ∀ e ∈ es, P e k.history ∧ k'.history = e :: k.history ∨ ∀ below, P e below) : Always P k'.history := by
  rw [older]
  refine always.grow fun above e below split => ?_
  have member : e ∈ es := by simp [split]
  rcases fits e member with ⟨fit,only⟩ | trivially
  · have single := alone older only
    rw [single] at split
    have none : below = [] := by
      have := congrArg List.length split
      simp only [List.length_append,List.length_cons,List.length_nil] at this
      exact List.eq_nil_of_length_eq_zero (by omega)
    rwa [none]
  · exact trivially _

theorem takesGrow (takes : e.takes i r) (fresh : e.creates i = false) : Took (e :: h) i r := by
  refine ⟨e,?_,takes⟩
  have grown : sinceBirth ([e] ++ h) i = [e] ++ sinceBirth h i := sinceBirthGrow (by simpa using fresh)
  rw [List.singleton_append] at grown
  rw [grown]
  exact List.mem_append_left _ (List.mem_singleton_self e)

theorem takesCreates (takes : e.takes i r) : e.creates d = false := by
  cases e <;> first | rfl | simp [Event.takes] at takes

theorem moveAppointed (coherent : Coherent k) (meets : InheritsRole k₀ input = false) (appointed : Appointed k) (move : Move k₀ input k k') :
    Appointed k' := by
  constructor
  · intro r
    rcases moveRole move r with same | ⟨i,_,_,_,_,_,_,_,holder⟩
    · rw [same]
      exact appointed.named r
    · exact .inr ⟨i,holder⟩
  · intro i r holder
    rcases moveRole move r with same | ⟨i',_,e,_,_,_,older,takes,holder'⟩
    · have took := appointed.took i r (same.symm.trans holder)
      cases moveCreates coherent move with
      | none new older uncreated =>
        rw [older]
        exact took.grow (uncreated i)
      | thread n caller tf prog found acting call named before after =>
        have other : i ≠ n := by
          rintro rfl
          obtain ⟨hw,rfl,vec,number⟩ := call
          have free : k₀.freeThread = some i := by rw [before] at found; exact found
          have still : k₀.roleTid r = tid i := by rw [same,before] at holder; cases r <;> exact holder
          have range : (0 : Int) ≤ prog.val ∧ (prog.val : Int) < 12 := by omega
          have names : (decide (k₀.pagerTid = tid i) || (List.finRange 16).any fun line => k₀.irqTid line = tid i) = true := by
            cases r with
            | pager => simp [show k₀.pagerTid = tid i from still]
            | irq line =>
              simp only [Bool.or_eq_true,List.any_eq_true,decide_eq_true_eq]
              exact .inr ⟨line,List.mem_finRange line,still⟩
          have inherits : InheritsRole k₀ (.trap tf hw) = true := by
            simp only [InheritsRole,acting.2,free,vec,number,named,names,range.1,range.2,Bool.and_true,decide_true]
          rw [inherits] at meets
          cases meets
        have grown : Took ([.create n (some caller) prog] ++ k.history) i r :=
          took.grow (by simp [Event.creates,Ne.symm other])
        rw [after]
        exact grown
    · have own : i = i' := tidInj (holder.symm.trans holder')
      subst own
      rw [older]
      exact takesGrow takes (takesCreates takes)

/- A receive returns an interrupt only to a thread that has registered for it. -/
theorem signalTook {m} (balanced : Balanced k') (older : k'.history = es ++ k.history) (uncreated : ∀ e ∈ es, e.creates d = false)
    (posts : ∀ line, .irqPost line d ∈ es → es = [.irqPost line d]) (member : .recvRet d ipcIrqSender m ∈ es)
    (posted : Always (fun e older => ∀ line d, e = .irqPost line d → Took older d (.irq line)) k.history) :
    ∃ line, Took k.history d (.irq line) := by
  have since : sinceBirth k'.history d = es ++ sinceBirth k.history d := by rw [older,sinceBirthGrow uncreated]
  have account := balanced d
  rw [since] at account
  have returned : 0 < (es ++ sinceBirth k.history d).countP (Event.signals d) :=
    List.countP_pos_iff.mpr ⟨_,List.mem_append_left _ member,by simp [Event.signals]⟩
  have some : 0 < (es ++ sinceBirth k.history d).countP (Event.posts d) := by omega
  obtain ⟨e,inside,posts'⟩ := List.countP_pos_iff.mp some
  cases e with
  | irqPost line t =>
    have own : t = d := by simpa [Event.posts] using posts'
    subst own
    rcases List.mem_append.mp inside with new | old
    · rw [posts line new] at member
      simp at member
    · exact ⟨line,postedTook posted old⟩
  | _ => cases posts'

theorem moveOwnRoles (coherent : Coherent k) (balanced : Balanced k') (appointed : Appointed k) (own : OwnRoles k) (move : Move k₀ input k k') :
    OwnRoles k' := by
  obtain ⟨es,older,justified⟩ := moveGrows coherent move
  have posts : ∀ line d, .irqPost line d ∈ es → es = [.irqPost line d] :=
    fun line d member => alone older (justified _ member).2.2
  constructor
  · refine growAlone own.posted older fun e member => ?_
    cases e with
    | irqPost line d =>
      obtain ⟨named,_,only⟩ := justified _ member
      refine .inl ⟨fun line' d' same => ?_,only⟩
      cases same
      exact appointed.took d (.irq line) named
    | _ => exact .inr fun _ _ _ same => by cases same
  · refine growAlone own.forwarded older fun e member => ?_
    cases e with
    | fault f addr pager =>
      obtain ⟨forwards,before,named,after⟩ := justified _ member
      refine .inl ⟨fun f' addr' pager' same => ?_,by rw [after]; rfl⟩
      cases same
      rcases appointed.named .pager with nobody | ⟨p,holder⟩
      · have there := forwards.pager
        have nobody' : k₀.pagerTid = -1 := by rw [← before]; exact nobody
        omega
      · exact ⟨p,named.trans holder,appointed.took p .pager holder⟩
    | _ => exact .inr fun _ _ _ _ same => by cases same
  · rw [older]
    refine own.signalled.grow fun above e below split => ?_
    have member : e ∈ es := by simp [split]
    cases e with
    | recvRet d r m =>
      intro d' m' same
      cases same
      cases moveCreates coherent move with
      | none new older' uncreated =>
        have whole : new = es := List.append_cancel_right (older'.symm.trans older)
        subst whole
        obtain ⟨line,took⟩ := signalTook balanced older (uncreated d) (fun line => posts line d) member own.posted
        exact ⟨line,took.grow fun e inside => uncreated d e (by simp [split,inside])⟩
      | thread n caller tf prog found acting call named before after =>
        have single : es = [.create n (some caller) prog] := alone older (by rw [after]; rfl)
        simp [single] at member
    | _ => exact fun _ _ same => by cases same

theorem bootRole (memory : Memory) (stackBase : Word) : (boot memory stackBase).roleTid r = -1 := by
  cases r <;> rfl

theorem bootAppointed (memory : Memory) (stackBase : Word) : Appointed (boot memory stackBase) := by
  refine ⟨fun r => .inl (bootRole memory stackBase),fun i r holder => ?_⟩
  have nobody := (bootRole memory stackBase).symm.trans holder
  have := tidNonneg i
  omega

theorem bootOwnRoles (memory : Memory) (stackBase : Word) : OwnRoles (boot memory stackBase) := by
  have only : (boot memory stackBase).history = [.create 0 none 0] := rfl
  refine ⟨?_,?_,?_⟩ <;> rw [only] <;> refine Always.nil.cons ?_
  · intro line d same
    cases same
  · intro f addr pager same
    cases same
  · intro d m same
    cases same

/- In a run that gives no slot that still has a role to a new thread. -/
theorem rolesOwned (h : Transition.Reach machine (fun k input => InheritsRole k input = false) k) : OwnRoles k := by
  refine (reachUnder (fun k => Carries k ∧ Balanced k ∧ Appointed k ∧ OwnRoles k) ?_ ?_ h).2.2.2
  · intro memory stackBase
    exact ⟨bootCarries memory stackBase,bootBalanced memory stackBase,bootAppointed memory stackBase,bootOwnRoles memory stackBase⟩
  · rintro k₀ input k k' meets _ _ _ coherent ⟨carries,balanced,appointed,own⟩ move
    have balanced' := moveBalanced carries coherent balanced move
    exact ⟨moveCarries carries coherent move,balanced',moveAppointed coherent meets appointed move,
      moveOwnRoles coherent balanced' appointed own move⟩

theorem rolesOwnedKeys : OwnRoles (Transition.run machine Script.start Script.keystrokes) := by
  have first : Transition.Reach machine (fun k input => InheritsRole k input = false) Script.start := .start ⟨_,_,rfl⟩
  exact rolesOwned (first.run (by decide +kernel))

/- Thread 1 registers for line 1 and exits; the next thread 1 receives the interrupt. -/
def Script.inheritedLine : List Input :=
  [.tick,.go,.call 4 1 0 0,.tick,.go,.call 15 1 0 0,.call 0 0 0 0,.go,.call 4 2 0 0,.tick,.go,.irq 1,.call 3 0 Script.userPage 0]

theorem lineInherited : ∃ k, Reachable k ∧ ¬ OwnRoles k := by
  refine ⟨Transition.run machine Script.start Script.inheritedLine,Script.reach (by decide +kernel),fun own => ?_⟩
  obtain ⟨line,took⟩ := own.signalled ((Transition.run machine Script.start Script.inheritedLine).history.take 2)
    (.recvRet 1 ipcIrqSender ⟨msgIrq,0,0,0⟩) ((Transition.run machine Script.start Script.inheritedLine).history.drop 3) (by decide +kernel) 1 _ rfl
  have never : ∀ line, ¬ Took ((Transition.run machine Script.start Script.inheritedLine).history.drop 3) 1 (.irq line) := by decide +kernel
  exact never line took

end
end Mukern
