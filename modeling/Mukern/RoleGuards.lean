import Mukern.RoleHolders

/-! Whether a role stays with the thread that has taken it. `SYS_SET_PAGER` and
`SYS_IRQ_REGISTER` ask for no capability, so another thread may take it over. -/
namespace Mukern
open Kernel Trace

/- Thread `i` has taken the role, has not died since, and root has not taken it over. -/
def holds (i : Slot) (r : Role) : List Event → Bool
  | [] => false
  | e :: older => e.takes i r || e ≠ .dead i && !e.takes 0 r && holds i r older

/- A thread other than root takes a role that another living thread has taken. -/
def Hijacks (k : Kernel) (input : Input) : Bool :=
  match k.taking input with
  | none => false
  | some (i,r) => i ≠ 0 && (List.finRange 16).any fun d => d ≠ i && holds d r k.history

/- The tables name those who have taken the roles, and every interrupt and every
forwarded page fault has gone to them. -/
structure RolesKept (k : Kernel) : Prop where
  routed : ∀ d r, holds d r k.history → k.roleTid r = tid d
  notified : ∀ d line, holds d (.irq line) k.history → (k.irqNotify line).history = .irqPost line d :: k.history
  posted : Always (fun e older => ∀ line t, e = .irqPost line t → ∀ d, holds d (.irq line) older → t = d) k.history
  forwarded : Always (fun e older => ∀ f addr pager, e = .fault f addr pager → ∀ p, holds p .pager older → pager = tid p) k.history

section
variable {k₀ k k' : Kernel} {input : Input} {i d : Slot} {r : Role} {e : Event} {h es : List Event}

theorem holdsCons : holds i r (e :: h) ↔ e.takes i r ∨ e ≠ .dead i ∧ e.takes 0 r = false ∧ holds i r h := by
  simp [holds]
  tauto

theorem holdsGrown (held : holds i r (es ++ h)) :
    (∃ e ∈ es, e.takes i r) ∨ holds i r h ∧ ∀ e ∈ es, e ≠ .dead i ∧ e.takes 0 r = false := by
  induction es with
  | nil => exact .inr ⟨held,by simp⟩
  | cons e es ih =>
    rcases holdsCons.mp held with takes | ⟨alive,kept,rest⟩
    · exact .inl ⟨e,List.mem_cons_self,takes⟩
    · rcases ih rest with ⟨e',member,takes⟩ | ⟨before,quiet⟩
      · exact .inl ⟨e',List.mem_cons_of_mem _ member,takes⟩
      · refine .inr ⟨before,fun e' member => ?_⟩
        rcases List.mem_cons.mp member with rfl | rest
        · exact ⟨alive,kept⟩
        · exact quiet e' rest

/- Whoever takes a role has it. -/
theorem takesRole (justified : Justified k₀ input k k' e) (takes : e.takes i r) : Acting k' i ∧ k'.roleTid r = tid i := by
  cases e with
  | setPager j =>
    obtain ⟨own,role⟩ : j = i ∧ r = .pager := by simpa [Event.takes] using takes
    subst own role
    exact justified
  | irqRegister j line =>
    obtain ⟨own,role⟩ : j = i ∧ r = .irq line := by simpa [Event.takes] using takes
    subst own role
    exact justified
  | _ => cases takes

theorem heldAlive (coherent : Coherent k) (coherent' : Coherent k') (alive : ∀ d r, holds d r k.history → ¬ k.Gone d)
    (move : Move k₀ input k k') (held : holds d r k'.history) : ¬ k'.Gone d := by
  obtain ⟨es,older,justified⟩ := moveGrows coherent move
  rw [older] at held
  rcases holdsGrown held with ⟨e,member,takes⟩ | ⟨before,quiet⟩
  · have running := (takesRole (justified e member) takes).1.state coherent'
    simp [Gone,running]
  · have present := alive d r before
    rw [presenceGone,not_not] at present ⊢
    cases moveAppears (j := d) coherent move with
    | same same => rw [same,present]
    | dies acting dead died =>
      have single := alone older died
      exact absurd rfl (quiet (.dead d) (by simp [single])).1
    | born created live => exact live

theorem heldRouted (coherent : Coherent k) (meets : Hijacks k₀ input = false) (routed : ∀ d r, holds d r k.history → k.roleTid r = tid d)
    (move : Move k₀ input k k') (held : holds d r k'.history) : k'.roleTid r = tid d := by
  obtain ⟨es,older,justified⟩ := moveGrows coherent move
  rw [older] at held
  rcases holdsGrown held with ⟨e,member,takes⟩ | ⟨before,quiet⟩
  · exact (takesRole (justified e member) takes).2
  · rcases moveRole move r with same | ⟨i,tf,e,acting,taking,entered,only,takes,holder⟩
    · exact same.trans (routed d r before)
    · have single := alone older only
      have other : i ≠ 0 := by
        rintro rfl
        exact absurd takes (by simp [(quiet e (by simp [single])).2])
      by_cases own : d = i
      · rw [own,holder]
      · have old : holds d r k₀.history := by
          rw [entered] at before
          exact (holdsCons.mp before).resolve_left (by simp [Event.takes]) |>.2.2
        have hijacks : Hijacks k₀ input = true := by
          simp only [Hijacks,taking,Bool.and_eq_true,decide_eq_true_eq,List.any_eq_true]
          exact ⟨other,d,List.mem_finRange d,own,old⟩
        rw [hijacks] at meets
        cases meets

theorem heldNotified (routed : ∀ d r, holds d r k.history → k.roleTid r = tid d) (alive : ∀ d r, holds d r k.history → ¬ k.Gone d)
    {line : Fin 16} (held : holds d (.irq line) k.history) : (k.irqNotify line).history = .irqPost line d :: k.history := by
  have named : k.irqTid line = tid d := routed d (.irq line) held
  have live := not_or.mp (alive d _ held)
  unfold irqNotify
  rw [named,threadByIdTid]
  dsimp only
  rw [if_pos live]
  rfl

theorem moveKept (coherent : Coherent k) (coherent' : Coherent k') (meets : Hijacks k₀ input = false) (kept : RolesKept k)
    (alive : ∀ d r, holds d r k.history → ¬ k.Gone d) (move : Move k₀ input k k') : RolesKept k' := by
  obtain ⟨es,older,justified⟩ := moveGrows coherent move
  have routed : ∀ d r, holds d r k'.history → k'.roleTid r = tid d := fun d r held => heldRouted coherent meets kept.routed move held
  refine ⟨routed,fun d line held => ?_,?_,?_⟩
  · exact heldNotified routed (fun d r held => heldAlive coherent coherent' alive move held) held
  · refine growAlone kept.posted older fun e member => ?_
    cases e with
    | irqPost line d =>
      obtain ⟨named,_,only⟩ := justified _ member
      refine .inl ⟨fun line' t same d' held => ?_,only⟩
      cases same
      exact tidInj (named.symm.trans (kept.routed d' (.irq line) held))
    | _ => exact .inr fun _ _ _ same => by cases same
  · refine growAlone kept.forwarded older fun e member => ?_
    cases e with
    | fault f addr pager =>
      obtain ⟨_,_,named,after⟩ := justified _ member
      refine .inl ⟨fun f' addr' pager' same p held => ?_,by rw [after]; rfl⟩
      cases same
      exact named.trans (kept.routed p .pager held)
    | _ => exact .inr fun _ _ _ _ same => by cases same

theorem bootKept (memory : Memory) (stackBase : Word) : RolesKept (boot memory stackBase) ∧
    ∀ d r, holds d r (boot memory stackBase).history → ¬ (boot memory stackBase).Gone d := by
  have only : (boot memory stackBase).history = [.create 0 none 0] := rfl
  have none : ∀ d r, ¬ holds d r (boot memory stackBase).history := by
    intro d r
    rw [only]
    simp [holds,Event.takes]
  refine ⟨⟨fun d r held => absurd held (none d r),fun d line held => absurd held (none d _),?_,?_⟩,fun d r held => absurd held (none d r)⟩
  all_goals
    rw [only]
    refine Always.nil.cons ?_
  · intro line t same
    cases same
  · intro f addr pager same
    cases same

/- In a run in which no thread but root takes over the role of a living thread. -/
theorem rolesKept (h : Transition.Reach machine (fun k input => Hijacks k input = false) k) : RolesKept k := by
  refine (reachUnder (fun k => RolesKept k ∧ ∀ d r, holds d r k.history → ¬ k.Gone d) bootKept ?_ h).1
  rintro k₀ input k k' meets coherent₀ _ _ coherent ⟨kept,alive⟩ move
  have coherent' := moveCoherent coherent₀ coherent move
  exact ⟨moveKept coherent coherent' meets kept alive move,fun d r held => heldAlive coherent coherent' alive move held⟩

theorem rolesKeptKeys : RolesKept (Transition.run machine Script.start Script.keystrokes) := by
  have first : Transition.Reach machine (fun k input => Hijacks k input = false) Script.start := .start ⟨_,_,rfl⟩
  exact rolesKept (first.run (by decide +kernel))

/- Thread 1 drives line 1 until thread 2 registers for it, without any capability. -/
def Script.stolenLine : List Input :=
  [.tick,.go,.call 4 1 0 0,.call 4 2 0 0,.tick,.go,.call 15 1 0 0,.tick,.go,.call 15 1 0 0,.irq 1]

theorem lineStolen : ∃ k, Reachable k ∧ ¬ RolesKept k := by
  refine ⟨Transition.run machine Script.start Script.stolenLine,Script.reach (by decide +kernel),fun kept => ?_⟩
  have taker : (2 : Slot) = 1 := kept.posted [] (.irqPost 1 2) ((Transition.run machine Script.start Script.stolenLine).history.drop 1)
    (by decide +kernel) 1 2 rfl 1 (by decide +kernel)
  exact absurd taker (by decide)

end
end Mukern
