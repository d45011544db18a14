import Mathlib.Algebra.Ring.Nat
import Mathlib.Data.Fin.Basic
import Mathlib.Data.List.FinRange

/-! Kernel/user ABI: messages, labels, capabilities and the numbers of
`ipc.h`, `cap.h`, `sched.h` and `syscall.h`. A thread is named by its slot in
the table, so the `id` that `sched_init` writes once is the slot itself. -/
namespace Mukern

abbrev Slot := Fin 16
abbrev Word := BitVec 64

instance slotsNonzero : NeZero 16 := ⟨by decide⟩
instance progsNonzero : NeZero 12 := ⟨by decide⟩

/- `t->id`: `sched_init` stores the index of the slot, and nothing writes it again. -/
def tid (i : Slot) : Int := (i.val : Int)

theorem slotInRange {id : Int} (h : 0 ≤ id ∧ id < 16) : id.toNat < 16 := by omega

theorem progInRange {prog : Int} (h : 0 ≤ prog ∧ prog < 12) : prog.toNat < 12 := by omega

def threadById (id : Int) : Option Slot :=
  if h : 0 ≤ id ∧ id < 16 then some ⟨id.toNat, slotInRange h⟩ else none

theorem tidInj {i j : Slot} (h : tid i = tid j) : i = j := by
  simp only [tid] at h; exact Fin.ext (by omega)

@[simp] theorem tidEq {i j : Slot} : tid i = tid j ↔ i = j := ⟨tidInj, congrArg tid⟩

theorem tidNonneg (i : Slot) : 0 ≤ tid i := by simp only [tid]; omega

theorem tidZero {i : Slot} : tid i = 0 ↔ i = 0 := by
  simp only [tid, Fin.ext_iff, Fin.val_zero]; omega

theorem threadByIdSome {id : Int} {i : Slot} : threadById id = some i ↔ id = tid i := by
  unfold threadById tid
  split
  · simp only [Option.some.injEq, Fin.ext_iff]; omega
  · have := i.isLt
    simp only [reduceCtorEq, false_iff]; omega

@[simp] theorem threadByIdTid (i : Slot) : threadById (tid i) = some i := threadByIdSome.mpr rfl

/- `(int)x` for a 64-bit register: the low half, read as a signed number. -/
def cint (x : Word) : Int := (x.setWidth 32).toInt

/- `(uint64_t)(int64_t)r` for an `int` result. -/
def cword (r : Int) : Word := BitVec.ofInt 64 r

def ipcAny : Int := -1
def ipcIrqSender : Int := -2

structure IpcMsg where
  label : Word
  data0 : Word
  data1 : Word
  cap : Word
  deriving DecidableEq, Repr

def msgReady : Word := 1
def msgSpawn : Word := 2
def msgReply : Word := 3
def msgFault : Word := 4
def msgIrq : Word := 20

inductive IpcState where
  | none
  | sending
  | receiving
  deriving DecidableEq, Repr

inductive ThreadState where
  | unused
  | runnable
  | running
  | blocked
  | dead
  deriving DecidableEq, Repr

/- The value of the C enumerator, as `SYS_TINFO` returns it. -/
def ThreadState.code : ThreadState → Int
  | .unused => 0
  | .runnable => 1
  | .running => 2
  | .blocked => 3
  | .dead => 4

inductive CapType where
  | null
  | endpoint
  | ioport
  deriving DecidableEq, Repr

def capRightSend : BitVec 32 := 1

structure Cap where
  type : CapType
  target : Int
  rights : BitVec 32
  ioBase : BitVec 16
  ioLen : BitVec 16
  deriving DecidableEq, Repr

abbrev CTable := Fin 16 → Cap

inductive Syscall where
  | exit | putc | send | recv | spawn | map | setPager | gettid | outb | inb | inw
  | grantIo | uptime | meminfo | tinfo | irqRegister | mapPhys | grantCap
  | invalid
  deriving DecidableEq, Repr

/- The `SYS_*` number in `rax`; any other value takes the `default` branch. -/
def Syscall.ofRax (rax : Word) : Syscall :=
  match rax.toNat with
  | 0 => .exit
  | 1 => .putc
  | 2 => .send
  | 3 => .recv
  | 4 => .spawn
  | 5 => .map
  | 6 => .setPager
  | 7 => .gettid
  | 8 => .outb
  | 9 => .inb
  | 10 => .inw
  | 11 => .grantIo
  | 12 => .uptime
  | 13 => .meminfo
  | 14 => .tinfo
  | 15 => .irqRegister
  | 16 => .mapPhys
  | 17 => .grantCap
  | _ => .invalid

def progInit : Fin 12 := 0

end Mukern
