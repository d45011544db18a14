import Mukern.Trap
import Mukern.Library.Transition

/-! Runs of the machine: the state that `kmain` leaves when it enables interrupts,
the events that can strike in a state, and the states that runs reach. -/
namespace Mukern

/- `resume` lets the switched-to context continue; `trap` enters `isr_handler`;
`store` is a store by Ring 3 code. -/
inductive Input where
  | resume (junk : IpcMsg)
  | trap (tf : Trapframe) (hw : Hardware)
  | store (va : Word) (b : BitVec 8)
  deriving DecidableEq, Repr

namespace Kernel

/- `sched_init` and the tables of `hal_traps_init`. -/
def schedInit (memory : Memory) (stackBase : Word) : Kernel :=
  { threads := fun _ => threadZero, current := none, mode := .user, rsp0 := 0, pagerTid := -1,
    irqTid := fun _ => -1, irqMask := 0xFFFE, ticks := 0, stackBase := stackBase,
    memory := memory, history := [] }

/- The words that `boot_long_mode` writes: one table each for PML4, PDPT and PD from
`base` on, and 512 identity-mapped pages of 2 MiB. -/
def loaderWords (base : Nat) : Words := fun j =>
  if j = base / 8 then BitVec.ofNat 64 (base + 4096) ||| 3
  else if j = base / 8 + 512 then BitVec.ofNat 64 (base + 8192) ||| 3
  else if base / 8 + 1024 ≤ j ∧ j < base / 8 + 1536 then BitVec.ofNat 64 (0x200000 * (j - base / 8 - 1024)) ||| 0x83
  else 0

/- `proc_start_init`, after which the boot context is the idle loop. The memory
is whatever `pmm_init` and `rootfs_load_all` have left. -/
def boot (memory : Memory) (stackBase : Word) : Kernel :=
  ((schedInit memory stackBase).procSpawn none (progInit.val : Int)).1

/- Interrupts strike at any time in `user` mode; the idle loop raises nothing
else; Ring 3 code raises exceptions and `int 0x80`. -/
def Enabled (k : Kernel) : Input → Prop
  | .resume _ => k.mode = .resume
  | .trap tf _ => k.mode = .user ∧
      (32 ≤ tf.vec ∧ tf.vec < 48 ∨
        k.current ≠ none ∧ fromUser tf ∧ (tf.vec < 32 ∨ tf.vec = syscallVector))
  | .store va _ => k.mode = .user ∧ k.current ≠ none ∧ (k.memory.userAccess va true).isSome

instance (k : Kernel) (i : Input) : Decidable (k.Enabled i) := by
  cases i <;> unfold Enabled <;> infer_instance

def step (k : Kernel) : Input → Kernel
  | .resume junk => k.resume junk
  | .trap tf hw => k.isrHandler tf hw
  | .store va b => match k.memory.userStore va b with
    | some memory => { k with memory := memory }
    | none => k

end Kernel

def machine : Transition.System Kernel Input where
  start k := ∃ memory stackBase, k = Kernel.boot memory stackBase
  enabled := Kernel.Enabled
  next := Kernel.step

instance (k : Kernel) (i : Input) : Decidable (machine.enabled k i) := inferInstanceAs (Decidable (k.Enabled i))

abbrev Reachable : Kernel → Prop := Transition.Reach machine fun _ _ => True

/- The run from boot that takes the given inputs, each where it can strike. -/
theorem reachScript {memory : Memory} {stackBase : Word} {script : List Input}
    (admits : Transition.Admits machine (fun _ _ => True) (Kernel.boot memory stackBase) script) :
    Reachable (Transition.run machine (Kernel.boot memory stackBase) script) :=
  Transition.Reach.run (S := machine) (.start ⟨memory,stackBase,rfl⟩) admits

/-! Scripts of single runs: the inputs by short names, and a memory with the
loader's tables and one page of user memory. -/
namespace Input

def userCs : Word := 0x1B

def noise : IpcMsg := ⟨0,0,0,0⟩

def call (rax rdi rsi rdx : Word) : Input :=
  .trap ⟨Kernel.syscallVector,userCs,rax,rdi,rsi,rdx⟩ ⟨0,0,noise⟩

def exception (vec : Nat) (cr2 : Word) : Input := .trap ⟨vec,userCs,0,0,0,0⟩ ⟨cr2,0,noise⟩

def irq (line : Nat) : Input := .trap ⟨32 + line,userCs,0,0,0,0⟩ ⟨0,0,noise⟩

def tick : Input := irq 0

def go : Input := .resume noise

end Input

namespace Script

def userPage : Word := 0x400000000000

def memory : Memory :=
  let loaded : Memory :=
    { words := Kernel.loaderWords 0x101000
      pmm := ⟨fun _ => 0,2048,1024,1024⟩
      cr3 := 0x101000 }
  (loaded.vmmMap userPage 0x600000 vmUserRw).1

def start : Kernel := Kernel.boot memory 0x110000

theorem reach {script : List Input} (admits : Transition.Admits machine (fun _ _ => True) start script) :
    Reachable (Transition.run machine start script) := reachScript admits

end Script
end Mukern
