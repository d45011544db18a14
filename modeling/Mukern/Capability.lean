import Mukern.KernelState

/-! `kernel/cap.c`: the capability table of a thread. -/
namespace Mukern

def capNull : Cap := ⟨.null, -1, 0, 0, 0⟩

def capClear : CTable := fun _ => capNull

namespace CTable

def set (t : CTable) (n : Fin 16) (c : Cap) : CTable := fun j => if j = n then c else t j

/- The loop shared by both grants: the first slot of type `CAP_NULL`. -/
def freeSlot (t : CTable) : Option (Fin 16) := (List.finRange 16).find? (fun n => (t n).type = .null)

def grantIo (t : CTable) (base len : BitVec 16) : CTable × Int :=
  match t.freeSlot with
  | some n => (t.set n { t n with type := .ioport, ioBase := base, ioLen := len }, 0)
  | none => (t, -1)

/- `port >= io_base && port < (uint16_t)(io_base + io_len)`. -/
def hasPort (t : CTable) (port : BitVec 16) : Bool :=
  (List.finRange 16).any fun n =>
    (t n).type = .ioport && (t n).ioBase ≤ port && port < (t n).ioBase + (t n).ioLen

def hasEndpoint (t : CTable) (target : Int) : Bool :=
  (List.finRange 16).any fun n => (t n).type = .endpoint && (t n).target = target

def grantEndpoint (t : CTable) (target : Int) : CTable × Int :=
  if t.hasEndpoint target then (t, 0)
  else
    match t.freeSlot with
    | some n => (t.set n { t n with type := .endpoint, target := target, rights := capRightSend }, 0)
    | none => (t, -1)

end CTable

namespace Kernel

/- `cap_grant_endpoint(thread_by_id(id), target)`. -/
def capGrantEndpoint (k : Kernel) (t : Option Slot) (target : Int) : Kernel × Int :=
  match t with
  | none => (k, -1)
  | some t =>
    let (table, r) := (k.threads t).ctable.grantEndpoint target
    let k := k.upd t ({ · with ctable := table })
    (if r = 0 then k.log (.grantEndpoint t target) else k, r)

def capGrantIo (k : Kernel) (t : Option Slot) (base len : BitVec 16) : Kernel × Int :=
  match t with
  | none => (k, -1)
  | some t =>
    let (table, r) := (k.threads t).ctable.grantIo base len
    let k := k.upd t ({ · with ctable := table })
    (if r = 0 then k.log (.grantIo t base len) else k, r)

end Kernel
end Mukern
