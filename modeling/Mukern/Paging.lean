import Mukern.FrameBitmap

/-! `arch/x86_64/mm/paging.c` on the active address space, and the hardware
walk that reads the same tables. Low RAM is identity mapped for the kernel, so
a frame address doubles as a pointer to the frame. Accessed and dirty bits are
left out: nothing in the kernel reads them. -/
namespace Mukern

def ptePresent : Word := 1
def pteWrite : Word := 2
def pteUser : Word := 4
def ptePs : Word := 0x80
def addrMask : Word := 0x000FFFFFFFFFF000

def vmPresent : Word := 1
def vmWrite : Word := 2
def vmUser : Word := 4
/- `VM_PRESENT | VM_WRITE | VM_USER`, the flags of every mapping the kernel makes. -/
def vmUserRw : Word := 7

def pageAlignDown (x : Word) : Word := x &&& ~~~(0xFFF : Word)

structure Memory where
  words : Words
  pmm : Pmm
  cr3 : Word

namespace Memory

/- `table[idx]` for a table at physical address `table`. -/
def entry (m : Words) (table : Word) (idx : Nat) : Word := m (table.toNat / 8 + idx)

def setEntry (m : Words) (table : Word) (idx : Nat) (v : Word) : Words :=
  m.set (table.toNat / 8 + idx) v

/- `for (i = 0; i < 512; i++) nt[i] = 0`. -/
def zeroTable (m : Words) (table : Word) : Words := fun j =>
  if table.toNat / 8 ≤ j ∧ j < table.toNat / 8 + 512 then 0 else m j

/- The index of `va` at paging level 4 (`i4`) down to 1 (`i1`). -/
def index (va : Word) (level : Nat) : Nat := ((va >>> (12 + 9 * (level - 1))) &&& 0x1FF).toNat

def flagsToPte (f : Word) : Word :=
  let p := ptePresent
  let p := if f &&& vmWrite ≠ 0 then p ||| pteWrite else p
  if f &&& vmUser ≠ 0 then p ||| pteUser else p

/- Returns the child table, or `none` where the source returns a null pointer. -/
def nextTable (m : Memory) (table : Word) (idx : Nat) (create : Bool) : Memory × Option Word :=
  let e := entry m.words table idx
  if e &&& ptePresent = 0 then
    if create then
      let (pmm, f) := m.pmm.allocFrame
      if f = 0 then ({ m with pmm := pmm }, none)
      else
        let words := zeroTable m.words f
        let words := setEntry words table idx (f ||| ptePresent ||| pteWrite ||| pteUser)
        ({ m with words := words, pmm := pmm }, some f)
    else (m, none)
  else if e &&& ptePs ≠ 0 then (m, none)
  else (m, some (e &&& addrMask))

/- 0 on success; -1 when a table is missing and no frame is left, or a large
page is in the way. -/
def vmmMap (m : Memory) (va pa flags : Word) : Memory × Int :=
  let pml4 := m.cr3 &&& addrMask
  match m.nextTable pml4 (index va 4) true with
  | (m, none) => (m, -1)
  | (m, some pdpt) =>
    match m.nextTable pdpt (index va 3) true with
    | (m, none) => (m, -1)
    | (m, some pd) =>
      match m.nextTable pd (index va 2) true with
      | (m, none) => (m, -1)
      | (m, some pt) =>
        ({ m with words := setEntry m.words pt (index va 1) ((pa &&& addrMask) ||| flagsToPte flags) }, 0)

def vmmUnmap (m : Memory) (va : Word) : Memory :=
  let pml4 := m.cr3 &&& addrMask
  match m.nextTable pml4 (index va 4) false with
  | (m, none) => m
  | (m, some pdpt) =>
    match m.nextTable pdpt (index va 3) false with
    | (m, none) => m
    | (m, some pd) =>
      match m.nextTable pd (index va 2) false with
      | (m, none) => m
      | (m, some pt) => { m with words := setEntry m.words pt (index va 1) 0 }

/- What the hardware walk finds: the physical address and the conjunction of
the write and user bits over the levels. -/
structure Translation where
  pa : Nat
  write : Bool
  user : Bool
  deriving DecidableEq, Repr

/- Large pages end the walk at levels 3 and 2; the bit is reserved at level 4
and means something else at level 1. -/
def walkFrom (m : Words) (va : Word) : (level : Nat) → (table : Word) → (write user : Bool) → Option Translation
  | 0, frame, w, u => some ⟨frame.toNat + va.toNat % 2 ^ 12, w, u⟩
  | level + 1, table, w, u =>
    let e := entry m table (index va (level + 1))
    if e &&& ptePresent = 0 then none
    else
      let w := w && e &&& pteWrite != 0
      let u := u && e &&& pteUser != 0
      if e &&& ptePs ≠ 0 ∧ level ≠ 0 then
        if level = 3 then none
        else
          let span := 2 ^ (12 + 9 * level)
          some ⟨(e &&& addrMask).toNat / span * span + va.toNat % span, w, u⟩
      else walkFrom m va level (e &&& addrMask) w u

/- The 4-level walk on the low 48 bits of `va`. -/
def walk (m : Memory) (va : Word) : Option Translation :=
  walkFrom m.words va 4 (m.cr3 &&& addrMask) true true

def canonical (va : Word) : Bool := (va.setWidth 48).signExtend 64 == va

/- An access at privilege level 0. `CR0.WP` is never set, so a present mapping
is enough for reads and writes alike. -/
def kernelAccess (m : Memory) (va : Word) : Option Nat :=
  if canonical va then (m.walk va).map Translation.pa else none

/- May Ring 3 read (`write = false`) or write the byte at `va`? -/
def userAccess (m : Memory) (va : Word) (write : Bool) : Option Nat :=
  if canonical va then
    match m.walk va with
    | some t => if t.user && (!write || t.write) then some t.pa else none
    | none => none
  else none

/- Where the `n` bytes from `va` on lie; `none` where the kernel faults on one. A
copy is translated by the tables that stand when it starts. -/
def kernelSpan (m : Memory) (va : Word) : Nat → Option (List Nat)
  | 0 => some []
  | n + 1 => do
    let pa ← m.kernelAccess va
    let rest ← m.kernelSpan (va + 1) n
    some (pa :: rest)

/- `*(struct ipc_msg *)va` in kernel mode; `none` is a fault in the kernel. -/
def readMsg (m : Memory) (va : Word) : Option IpcMsg :=
  (m.kernelSpan va 32).map fun span => bytesMsg (span.map m.words.byte)

def writeMsg (m : Memory) (va : Word) (msg : IpcMsg) : Option Memory :=
  (m.kernelSpan va 32).map fun span => { m with words := m.words.store (span.zip (msgBytes msg)) }

/- A one-byte store by Ring 3 code. -/
def userStore (m : Memory) (va : Word) (b : BitVec 8) : Option Memory :=
  (m.userAccess va true).map (fun pa => { m with words := m.words.setByte pa b })

end Memory
end Mukern
