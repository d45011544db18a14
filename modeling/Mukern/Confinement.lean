import Mukern.Authority

/-! Endpoint confinement: an endpoint that root never hands out, and that no other
thread has spawned, is in nobody's capability table but root's. -/
namespace Mukern
open Kernel

/- Thread 0 executes `SYS_GRANT_CAP` for `ep`. -/
def Event.rootGrants (ep : Int) : Event → Bool
  | .syscall i tf => i = 0 && Syscall.ofRax tf.rax = .grantCap && cint tf.rsi = ep
  | _ => false

/- A `SYS_SPAWN` returns `ep` to a caller other than thread 0. -/
def Event.spawns (ep : Int) : Event → Bool
  | .create child (some parent) _ => parent ≠ 0 && tid child = ep
  | _ => false

def RootGranted (k : Kernel) (ep : Int) : Prop := ∃ e ∈ k.history, e.rootGrants ep
def SpawnReturned (k : Kernel) (ep : Int) : Prop := ∃ e ∈ k.history, e.spawns ep

instance (k : Kernel) (ep : Int) : Decidable (RootGranted k ep) := by unfold RootGranted; infer_instance
instance (k : Kernel) (ep : Int) : Decidable (SpawnReturned k ep) := by unfold SpawnReturned; infer_instance

section
variable {k₀ k k' : Kernel} {input : Input} {i j : Slot} {ep : Int}

theorem RootGranted.grow (granted : RootGranted k ep) (grows : Grows k₀ input k k') : RootGranted k' ep := by
  obtain ⟨e,member,grants⟩ := granted
  obtain ⟨es,older,_⟩ := grows
  exact ⟨e,older ▸ List.mem_append_right _ member,grants⟩

theorem SpawnReturned.grow (spawned : SpawnReturned k ep) (grows : Grows k₀ input k k') : SpawnReturned k' ep := by
  obtain ⟨e,member,spawns⟩ := spawned
  obtain ⟨es,older,_⟩ := grows
  exact ⟨e,older ▸ List.mem_append_right _ member,spawns⟩

end
end Mukern
