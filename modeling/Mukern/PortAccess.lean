import Mukern.Authority

/-! Which thread may touch which I/O port: the ranges that root has granted to it since
its creation. -/
namespace Mukern
open Kernel

/- Root's `SYS_GRANT_IO` of `[base, base + len)` to thread `t`, that `cap_grant_io` has
carried out. -/
def PortGrant (h : List Event) (t : Slot) (base len : BitVec 16) : Prop :=
  ∃ newer tf older, h = newer ++ .grantIo t base len :: .syscall 0 tf :: older ∧
    Syscall.ofRax tf.rax = .grantIo ∧ cint tf.rdi = tid t ∧ base = tf.rsi.setWidth 16 ∧ len = tf.rdx.setWidth 16

section
variable {k₀ k k' : Kernel} {input : Input} {i t : Slot} {h es : List Event} {base len : BitVec 16} {table : CTable} {n : Fin 16}

theorem PortGrant.grow (granted : PortGrant h t base len) (es : List Event) : PortGrant (es ++ h) t base len := by
  obtain ⟨newer,tf,older,same,rest⟩ := granted
  exact ⟨es ++ newer,tf,older,by rw [same,List.append_assoc],rest⟩

theorem grantEndpointPorts {target : Int} (type : ((table.grantEndpoint target).1 n).type = .ioport) :
    (table.grantEndpoint target).1 n = table n := by
  unfold CTable.grantEndpoint at type ⊢
  split
  · rfl
  · split
    · rename_i m found
      simp only [CTable.set]
      split
      · rename_i own
        simp_all [CTable.set]
      · rfl
    · rfl

end
end Mukern
