import Mukern.Authority

/-! Root is slot 0. `proc_start_init` puts init there; `thread_create` takes the
first free slot, so once init is gone the next spawn puts its child there. -/
namespace Mukern
open Kernel

/- A `SYS_SPAWN` of a program that exists, while slot 0 is free. -/
def ReplacesRoot (k : Kernel) : Input → Prop
  | .trap tf _ => k.Gone 0 ∧ tf.vec = syscallVector ∧ Syscall.ofRax tf.rax = .spawn ∧
      0 ≤ cint tf.rdi ∧ cint tf.rdi < 12
  | .resume _ | .store _ _ => False

instance (k : Kernel) (input : Input) : Decidable (ReplacesRoot k input) :=
  match input with
  | .trap tf _ =>
    inferInstanceAs (Decidable (k.Gone 0 ∧ tf.vec = syscallVector ∧ Syscall.ofRax tf.rax = .spawn ∧ 0 ≤ cint tf.rdi ∧ cint tf.rdi < 12))
  | .resume _ | .store _ _ => inferInstanceAs (Decidable False)

section
variable {k₀ k k' : Kernel} {input : Input} {i : Slot}

theorem moveRoot (coherent : Coherent k) (kept : ¬ ReplacesRoot k₀ input) (move : Move k₀ input k k') :
    birth k'.history 0 = birth k.history 0 := by
  obtain ⟨es,older,justified⟩ := moveGrows coherent move
  rw [older]
  refine birthSame fun parent prog created => kept ?_
  obtain ⟨found,_,tf,_,_,⟨hw,rfl,vec,number⟩,named,rfl,_⟩ := justified _ created
  have gone : k₀.Gone 0 := freeThreadDead found
  exact ⟨gone,vec,number,by omega,by omega⟩

theorem freeThreadZero (gone : k.Gone 0) : k.freeThread = some 0 := by
  have first : List.finRange 16 = 0 :: (List.finRange 16).tail := by decide
  unfold freeThread
  rw [first]
  obtain unused | dead := gone
  · simp [unused]
  · simp [dead]

/- The condition is exact: such a spawn makes its child the root task. -/
theorem rootReplaced (enabled : k.Enabled input) (replaces : ReplacesRoot k input) :
    ∃ caller prog, birth (k.step input).history 0 = some (.create 0 (some caller) prog) := by
  cases input with
  | trap tf hw =>
    obtain ⟨gone,vec,number,low,high⟩ := replaces
    obtain ⟨_,irq | ⟨thread,_⟩⟩ := enabled
    · rw [vec] at irq
      exact absurd irq.2 (by decide)
    · obtain ⟨i,current⟩ := Option.ne_none_iff_exists'.mp thread
      refine ⟨i,⟨(cint tf.rdi).toNat,by omega⟩,?_⟩
      have notTimer : tf.vec ≠ vecTimer := by simp [vec,syscallVector,vecTimer]
      have free : (k.log (.syscall i tf)).freeThread = some 0 := freeThreadZero gone
      simp only [step,isrHandler,if_neg notTimer,if_pos vec,current,doSyscall,number,sysSpawn,procSpawn,
        dif_pos (And.intro low high),threadCreate,free,if_pos (tidNonneg 0),capGrantEndpoint]
      split <;> rfl
  | _ => exact absurd replaces id

/- In a run that never reclaims slot 0, whoever passes the check `self->id == 0` is
the thread of `proc_start_init`. -/
theorem rootUnique (h : Transition.Reach machine (fun k input => ¬ ReplacesRoot k input) k) :
    ∀ i, tid i = 0 → birth k.history i = some (.create 0 none progInit) := by
  intro i root
  have slot : i = 0 := tidZero.mp root
  subst slot
  refine reachUnder (fun k => birth k.history 0 = some (.create 0 none progInit)) (fun _ _ => rfl) ?_ h
  intro k₀ input k k' kept _ _ _ coherent born move
  rw [moveRoot coherent kept move,born]

/- Init spawns thread 1 and parks; slot 0 stays its own. -/
theorem rootUniqueParked :
    birth (Transition.run machine Script.start [.tick,.go,.call 4 1 0 0,.call 3 (-1) Script.userPage 0,.go]).history 0 =
      some (.create 0 none progInit) :=
  rootUnique (Transition.Reach.run (S := machine) (.start ⟨Script.memory,0x110000,rfl⟩) (by decide +kernel)) 0 rfl

/- Init spawns thread 1 and exits; thread 1 spawns a program, which becomes slot 0
and grants itself the keyboard ports. -/
theorem rootUsurped :
    ∃ k, Reachable k ∧ k.current = some 0 ∧ birth k.history 0 = some (.create 0 (some 1) 1) ∧
      ((k.step (.call 11 0 0x60 8)).threads 0).ctable.hasPort 0x60 = true :=
  ⟨Transition.run machine Script.start
      [.tick,.go,.call 4 1 0 0,.call 0 0 0 0,.go,.call 4 1 0 0,.tick,.go],
    Script.reach (by decide +kernel),by decide +kernel,by decide +kernel,by decide +kernel⟩

end
end Mukern
