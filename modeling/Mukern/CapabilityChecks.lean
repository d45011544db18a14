import Mukern.PortAccess
import Mukern.Library.Trace

/-! What the checks of `kernel/cap.c` let through, against the calls that have filled the
table: port ranges in exact integers, and the two tests for an endpoint. -/
namespace Mukern
open Kernel

structure PortRange where
  base : BitVec 16
  len : BitVec 16
  deriving DecidableEq, Repr

/- A range may end at the last port or pass it. -/
def PortRange.Covers (r : PortRange) (port : Nat) : Prop := r.base.toNat ≤ port ∧ port < r.base.toNat + r.len.toNat

/- The end of the range is a port again: `io_base + io_len` does not wrap. -/
def PortRange.Ends (r : PortRange) : Prop := r.base.toNat + r.len.toNat < 2 ^ 16

instance PortRange.decidableCovers (r : PortRange) (port) : Decidable (r.Covers port) := by unfold PortRange.Covers; infer_instance
instance PortRange.decidableEnds (r : PortRange) : Decidable r.Ends := by unfold PortRange.Ends; infer_instance

inductive CapCall where
  | clear
  | grantIo (base len : BitVec 16)
  | grantEndpoint (target : Int)
  deriving DecidableEq, Repr

/- The kernel, and the ranges that the thread was granted since its last `cap_clear`. -/
structure Granting where
  kernel : Kernel
  ranges : List PortRange

namespace Granting

def step (t : Slot) (s : Granting) : CapCall → Granting
  | .clear => ⟨s.kernel.upd t ({ · with ctable := capClear }), []⟩
  | .grantIo base len =>
    let (k, r) := s.kernel.capGrantIo (some t) base len
    ⟨k, if r = 0 then ⟨base,len⟩ :: s.ranges else s.ranges⟩
  | .grantEndpoint target => ⟨(s.kernel.capGrantEndpoint (some t) target).1, s.ranges⟩

/- `thread_create` clears the table, so every sequence of calls starts with that. -/
def run (k : Kernel) (t : Slot) (calls : List CapCall) : Granting := calls.foldl (step t) (step t ⟨k,[]⟩ .clear)

def Covered (s : Granting) (port : Nat) : Prop := ∃ r ∈ s.ranges, r.Covers port

/- The slots of type `CAP_IOPORT` are the ranges granted. -/
def Kept (s : Granting) (t : Slot) : Prop := ∀ r, r ∈ s.ranges ↔ ∃ n, ((s.kernel.threads t).ctable n).type = .ioport ∧
  PortRange.mk ((s.kernel.threads t).ctable n).ioBase ((s.kernel.threads t).ctable n).ioLen = r

end Granting

/- The port call reaches the port instruction. -/
def Kernel.PortPermitted (k : Kernel) (i : Slot) (tf : Trapframe) (hw : Hardware) : Prop :=
  ∃ rax, (k.doSyscall i tf hw).history = .sysRet i rax :: .portIo i (tf.rdi.setWidth 16) :: .syscall i tf :: k.history

/- `SYS_OUTB` and `SYS_INB` touch the port, `SYS_INW` the next one as well. -/
structure Granting.PortsExact (s : Granting) (t : Slot) (port : BitVec 16) : Prop where
  byte : ∀ tf hw, tf.rdi.setWidth 16 = port → Syscall.ofRax tf.rax = .outb ∨ Syscall.ofRax tf.rax = .inb →
    (s.kernel.PortPermitted t tf hw ↔ s.Covered port.toNat)
  word : ∀ tf hw, tf.rdi.setWidth 16 = port → Syscall.ofRax tf.rax = .inw →
    (s.kernel.PortPermitted t tf hw ↔ s.Covered port.toNat ∧ s.Covered (port.toNat + 1))

section
variable {k : Kernel} {t i : Slot} {s : Granting} {c : CapCall} {calls : List CapCall} {table : CTable} {n m : Fin 16} {r : PortRange}
  {port : BitVec 16} {tf : Trapframe} {hw : Hardware}

theorem freeSlotNull (found : table.freeSlot = some n) : (table n).type = .null := by
  simpa using List.find?_some found

theorem tableOther {c : Cap} (other : m ≠ n) : (table.set n c) m = table m := if_neg other

theorem tableOwn {c : Cap} : (table.set n c) n = c := if_pos rfl

/- The check in 16 bits: a range whose end wraps covers nothing. -/
theorem rangeCheckIff : (r.base ≤ port ∧ port < r.base + r.len) ↔ r.Covers port.toNat ∧ r.Ends := by
  have base := r.base.isLt
  have len := r.len.isLt
  have within := port.isLt
  simp only [PortRange.Covers,PortRange.Ends,BitVec.le_def,BitVec.lt_def,BitVec.toNat_add]
  by_cases ends : r.base.toNat + r.len.toNat < 2 ^ 16
  · rw [Nat.mod_eq_of_lt ends]
    tauto
  · have wrapped : (r.base.toNat + r.len.toNat) % 2 ^ 16 = r.base.toNat + r.len.toNat - 2 ^ 16 := by omega
    rw [wrapped]
    omega

theorem hasPortIff : table.hasPort port ↔ ∃ n, (table n).type = .ioport ∧
    (PortRange.mk (table n).ioBase (table n).ioLen).Covers port.toNat ∧ (PortRange.mk (table n).ioBase (table n).ioLen).Ends := by
  simp only [CTable.hasPort,List.any_eq_true,Bool.and_eq_true,decide_eq_true_eq,List.mem_finRange,true_and,← rangeCheckIff,and_assoc]

theorem clearKept : (s.step t .clear).Kept t := by
  intro r
  simp [Granting.step,capClear,capNull]

theorem grantIoKept {base len : BitVec 16} (kept : s.Kept t) : (s.step t (.grantIo base len)).Kept t := by
  intro r
  simp only [Granting.step]
  rw [grantIoTable,if_pos rfl]
  have result : (s.kernel.capGrantIo (some t) base len).2 = ((s.kernel.threads t).ctable.grantIo base len).2 := rfl
  rw [result]
  unfold CTable.grantIo
  split
  · rename_i n found
    have null := freeSlotNull found
    dsimp only
    rw [if_pos rfl,List.mem_cons,kept r]
    constructor
    · rintro (rfl | ⟨m,type,range⟩)
      · exact ⟨n,by rw [tableOwn],by rw [tableOwn]⟩
      · have other : m ≠ n := fun own => by simp [own,null] at type
        exact ⟨m,by rw [tableOther other,type],by rw [tableOther other,range]⟩
    · rintro ⟨m,type,range⟩
      by_cases own : m = n
      · subst own
        rw [tableOwn] at range
        exact .inl range.symm
      · rw [tableOther own] at type range
        exact .inr ⟨m,type,range⟩
  · dsimp only
    rw [if_neg (by simp)]
    exact kept r

theorem grantEndpointKept {target : Int} (kept : s.Kept t) : (s.step t (.grantEndpoint target)).Kept t := by
  intro r
  simp only [Granting.step]
  rw [grantTable,if_pos rfl,kept r]
  constructor
  · intro ⟨n,type,range⟩
    have same : ((s.kernel.threads t).ctable.grantEndpoint target).1 n = (s.kernel.threads t).ctable n := by
      unfold CTable.grantEndpoint
      split
      · rfl
      · split
        · rename_i m found
          exact tableOther fun own => by simp [own,freeSlotNull found] at type
        · rfl
    exact ⟨n,by rw [same,type],by rw [same,range]⟩
  · intro ⟨n,type,range⟩
    have same := grantEndpointPorts type
    exact ⟨n,same ▸ type,same ▸ range⟩

theorem stepKept (kept : s.Kept t) : (s.step t c).Kept t := by
  cases c with
  | clear => exact clearKept
  | grantIo base len => exact grantIoKept kept
  | grantEndpoint target => exact grantEndpointKept kept

theorem runKept : (Granting.run k t calls).Kept t := by
  unfold Granting.run
  have kept : (Granting.step t ⟨k,[]⟩ .clear).Kept t := clearKept
  generalize Granting.step t ⟨k,[]⟩ .clear = s at kept ⊢
  induction calls generalizing s with
  | nil => exact kept
  | cons c calls ih => exact ih _ (stepKept kept)

/- The three port calls ask `cap_has_port` about the same port. -/
theorem portPermittedIff (call : Syscall.ofRax tf.rax = .outb ∨ Syscall.ofRax tf.rax = .inb ∨ Syscall.ofRax tf.rax = .inw) :
    k.PortPermitted i tf hw ↔ (k.threads i).ctable.hasPort (tf.rdi.setWidth 16) := by
  have checked : ∀ result, (∃ rax, ((k.log (.syscall i tf)).sysPort i tf result).history =
      .sysRet i rax :: .portIo i (tf.rdi.setWidth 16) :: .syscall i tf :: k.history) ↔
        (k.threads i).ctable.hasPort (tf.rdi.setWidth 16) := by
    intro result
    unfold sysPort
    by_cases allowed : ((k.log (.syscall i tf)).threads i).ctable.hasPort (tf.rdi.setWidth 16)
    · dsimp only
      rw [if_pos allowed]
      exact ⟨fun _ => allowed,fun _ => ⟨result,rfl⟩⟩
    · dsimp only
      rw [if_neg allowed]
      refine ⟨fun ⟨rax,same⟩ => ?_,fun held => absurd held allowed⟩
      simp [sysRet] at same
  unfold Kernel.PortPermitted doSyscall
  rcases call with call | call | call <;> simp only [call] <;> exact checked _

theorem keptPermittedIff (kept : s.Kept t) (named : tf.rdi.setWidth 16 = port)
    (call : Syscall.ofRax tf.rax = .outb ∨ Syscall.ofRax tf.rax = .inb ∨ Syscall.ofRax tf.rax = .inw) :
    s.kernel.PortPermitted t tf hw ↔ ∃ r ∈ s.ranges, r.Covers port.toNat ∧ r.Ends := by
  rw [portPermittedIff call,named,hasPortIff]
  constructor
  · intro ⟨n,type,covers⟩
    exact ⟨_,(kept _).mpr ⟨n,type,rfl⟩,covers⟩
  · intro ⟨r,member,covers⟩
    obtain ⟨n,type,rfl⟩ := (kept r).mp member
    exact ⟨n,type,covers⟩

/- The checks are exact at a port unless it is covered only by ranges whose end passes
0xFFFF, or is the last port of what the thread holds there. -/
theorem portsExactIff : (Granting.run k t calls).PortsExact t port ↔ ((Granting.run k t calls).Covered port.toNat →
    (∃ r ∈ (Granting.run k t calls).ranges, r.Covers port.toNat ∧ r.Ends) ∧ (Granting.run k t calls).Covered (port.toNat + 1)) := by
  have kept : (Granting.run k t calls).Kept t := runKept
  obtain ⟨idle⟩ : Nonempty Hardware := ⟨⟨0,0,⟨0,0,0,0⟩⟩⟩
  have named : ∀ rax, (Trapframe.mk 0x80 0 rax (port.setWidth 64) 0 0).rdi.setWidth 16 = port := by
    intro rax
    simp
  constructor
  · intro exact' covered
    have byte := (exact'.byte (⟨0x80,0,8,port.setWidth 64,0,0⟩) idle (named 8) (.inl rfl)).mpr covered
    have ending := (keptPermittedIff kept (named 8) (.inl rfl)).mp byte
    have word : (Granting.run k t calls).kernel.PortPermitted t ⟨0x80,0,10,port.setWidth 64,0,0⟩ idle :=
      (keptPermittedIff kept (named 10) (.inr (.inr rfl))).mpr ending
    exact ⟨ending,((exact'.word _ idle (named 10) rfl).mp word).2⟩
  · intro condition
    constructor
    · intro tf hw named call
      rw [keptPermittedIff kept named (call.imp_right .inl)]
      exact ⟨fun ⟨r,member,covers,_⟩ => ⟨r,member,covers⟩,fun covered => (condition covered).1⟩
    · intro tf hw named call
      rw [keptPermittedIff kept named (.inr (.inr call))]
      constructor
      · intro ⟨r,member,covers,_⟩
        exact ⟨⟨r,member,covers⟩,(condition ⟨r,member,covers⟩).2⟩
      · intro ⟨covered,_⟩
        exact (condition covered).1

/- The block driver's grant of the ATA ports lets a word be read from the last of them,
whose second byte is on a port that was not granted. -/
theorem portsInexact : ¬ ∀ k t calls port, (Granting.run k t calls).PortsExact t port := by
  intro always
  have covered : ∀ p, (Granting.run Script.start 1 [.grantIo 0x1F0 8]).Covered p ↔ PortRange.Covers ⟨0x1F0,8⟩ p := by
    intro p
    show (∃ r ∈ [PortRange.mk 0x1F0 8], r.Covers p) ↔ _
    simp
  have permitted : (Granting.run Script.start 1 [.grantIo 0x1F0 8]).kernel.PortPermitted 1 ⟨0x80,0,10,0x1F7,0,0⟩ ⟨0,0,⟨0,0,0,0⟩⟩ :=
    (keptPermittedIff runKept rfl (.inr (.inr rfl))).mpr ⟨⟨0x1F0,8⟩,List.mem_singleton_self _,by decide,by decide⟩
  have both := ((always Script.start 1 [.grantIo 0x1F0 8] 0x1F7).word _ _ rfl rfl).mp permitted
  exact absurd ((covered 0x1F8).mp both.2) (by decide)

end

namespace CTable

def install (t : CTable) (slot target : Int) (rights : BitVec 32) : CTable × Int :=
  if h : 0 ≤ slot ∧ slot < 16 then
    let n : Fin 16 := ⟨slot.toNat, slotInRange h⟩
    (t.set n { t n with type := .endpoint, target := target, rights := rights }, 0)
  else (t, -1)

/- The check of `ipc_send_cap`, and the endpoint that it sends to. -/
def sendTarget (t : CTable) (slot : Int) : Option Int :=
  if h : 0 ≤ slot ∧ slot < 16 then
    let c := t ⟨slot.toNat, slotInRange h⟩
    if c.type ≠ .endpoint ∨ c.rights &&& capRightSend = 0 then none else some c.target
  else none

end CTable

inductive TableCall where
  | clear
  | install (slot target : Int) (rights : BitVec 32)
  | grantIo (base len : BitVec 16)
  | grantEndpoint (target : Int)
  deriving DecidableEq, Repr

def CTable.call (t : CTable) : TableCall → CTable × Int
  | .clear => (capClear, 0)
  | .install slot target rights => t.install slot target rights
  | .grantIo base len => t.grantIo base len
  | .grantEndpoint target => t.grantEndpoint target

def CTable.after (calls : List TableCall) : CTable := calls.foldl (fun t c => (t.call c).1) capClear

/- `cap_has_endpoint` and `ipc_send_cap` let the same sends through, and a grant that
reports success has made one possible. -/
structure ChecksAgree (t : CTable) : Prop where
  sends : ∀ target, t.hasEndpoint target ↔ ∃ slot, t.sendTarget slot = some target
  granted : ∀ target, (t.grantEndpoint target).2 = 0 → ∃ slot, (t.grantEndpoint target).1.sendTarget slot = some target

def Cap.Names (c : Cap) (ep : Int) : Prop := c.type = .endpoint ∧ c.target = ep

def Cap.Sends (c : Cap) (ep : Int) : Prop := c.Names ep ∧ c.rights &&& capRightSend ≠ 0

instance Cap.decidableNames (c : Cap) (ep) : Decidable (c.Names ep) := by unfold Cap.Names; infer_instance
instance Cap.decidableSends (c : Cap) (ep) : Decidable (c.Sends ep) := by unfold Cap.Sends; infer_instance

/- An install takes the right to send away from an endpoint that the table still names:
the capability it writes has no right and no other slot sends there, or the one it
overwrites was the last that sends to an endpoint another slot names. -/
def Mutes (t : CTable) : TableCall → Prop
  | .install slot target rights => ∃ n : Fin 16, slot = n.val ∧
    ((rights &&& capRightSend = 0 ∧ ∀ m ≠ n, ¬ (t m).Sends target) ∨
      ∃ ep ≠ target, (t n).Sends ep ∧ (∃ m ≠ n, (t m).Names ep) ∧ ∀ m ≠ n, ¬ (t m).Sends ep)
  | _ => False

section
variable {t : CTable} {n m : Fin 16} {ep target slot : Int} {rights : BitVec 32} {c : TableCall} {calls : List TableCall}

theorem sendTargetIff : (∃ slot, t.sendTarget slot = some ep) ↔ ∃ n, (t n).Sends ep := by
  constructor
  · intro ⟨slot,passed⟩
    unfold CTable.sendTarget at passed
    split at passed
    · rename_i inside
      refine ⟨⟨slot.toNat,by omega⟩,?_⟩
      dsimp only at passed
      split at passed
      · cases passed
      · rename_i right
        rw [not_or,not_not] at right
        exact ⟨⟨right.1,Option.some.inj passed⟩,right.2⟩
    · cases passed
  · intro ⟨n,⟨type,named⟩,right⟩
    refine ⟨n.val,?_⟩
    have inside : (0 : Int) ≤ n.val ∧ (n.val : Int) < 16 := by omega
    unfold CTable.sendTarget
    rw [dif_pos inside]
    have own : (⟨(n.val : Int).toNat,by omega⟩ : Fin 16) = n := Fin.ext (by simp)
    simp only [own]
    rw [if_neg (not_or.mpr ⟨not_not.mpr type,right⟩),named]

/- The table never names an endpoint that it may not send to. -/
theorem agreeIff : ChecksAgree t ↔ ∀ n ep, (t n).Names ep → ∃ m, (t m).Sends ep := by
  constructor
  · intro agree n ep named
    exact sendTargetIff.mp ((agree.sends ep).mp (hasEndpointIff.mpr ⟨n,named⟩))
  · intro speaks
    have sends : ∀ ep, t.hasEndpoint ep ↔ ∃ slot, t.sendTarget slot = some ep := by
      intro ep
      rw [sendTargetIff,hasEndpointIff]
      exact ⟨fun ⟨n,named⟩ => speaks n ep named,fun ⟨n,sends⟩ => ⟨n,sends.1⟩⟩
    refine ⟨sends,fun ep success => ?_⟩
    unfold CTable.grantEndpoint at success ⊢
    split at success
    · rename_i held
      rw [if_pos held]
      exact (sends ep).mp held
    · rename_i fresh
      rw [if_neg fresh]
      split at success
      · rename_i n found
        rw [sendTargetIff]
        exact ⟨n,by simp [CTable.set,Cap.Sends,Cap.Names,capRightSend]⟩
      · cases success

/- A grant fills an empty slot, and only the endpoint granted can become named. -/
theorem setAgree {c : Cap} (agree : ChecksAgree t) (empty : (t n).type = .null) (new : ∀ ep, c.Names ep → c.Sends ep) :
    ChecksAgree (t.set n c) := by
  rw [agreeIff] at agree ⊢
  intro m ep named
  by_cases own : m = n
  · subst own
    rw [tableOwn] at named
    exact ⟨m,by rw [tableOwn]; exact new ep named⟩
  · rw [tableOther own] at named
    obtain ⟨m,sends⟩ := agree m ep named
    have other : m ≠ n := fun own => by simp [own,Cap.Sends,Cap.Names,empty] at sends
    exact ⟨m,by rw [tableOther other]; exact sends⟩

theorem grantEndpointAgree (agree : ChecksAgree t) : ChecksAgree (t.grantEndpoint target).1 := by
  unfold CTable.grantEndpoint
  split
  · exact agree
  · split
    · rename_i n found
      exact setAgree agree (freeSlotNull found) fun ep named => ⟨named,(by decide : capRightSend &&& capRightSend ≠ 0)⟩
    · exact agree

theorem grantIoAgree {base len : BitVec 16} (agree : ChecksAgree t) : ChecksAgree (t.grantIo base len).1 := by
  unfold CTable.grantIo
  split
  · rename_i n found
    exact setAgree agree (freeSlotNull found) fun ep named => by cases named.1
  · exact agree

theorem clearAgree : ChecksAgree capClear := agreeIff.mpr fun n ep named => by cases named.1

theorem installAgreeIff (agree : ChecksAgree t) : ChecksAgree (t.install slot target rights).1 ↔ ¬ Mutes t (.install slot target rights) := by
  unfold CTable.install
  split
  · rename_i inside
    obtain ⟨n,rfl⟩ : ∃ n : Fin 16, slot = n.val := ⟨⟨slot.toNat,by omega⟩,by simp [inside.1]⟩
    have own : (⟨(n.val : Int).toNat,by omega⟩ : Fin 16) = n := Fin.ext (by simp)
    have written : ∀ m ep, ((t.set n { t n with type := .endpoint, target := target, rights := rights }) m).Sends ep ↔
        if m = n then target = ep ∧ rights &&& capRightSend ≠ 0 else (t m).Sends ep := by
      intro m ep
      split
      · rename_i same
        simp [same,tableOwn,Cap.Sends,Cap.Names]
      · rename_i other
        rw [tableOther other]
    dsimp only
    rw [own,agreeIff]
    rw [agreeIff] at agree
    constructor
    · rintro speaks ⟨n',same,mutes⟩
      obtain rfl : n = n' := Fin.ext (by omega)
      rcases mutes with ⟨mute,alone⟩ | ⟨ep,other,_,⟨m,apart,named⟩,alone⟩
      · obtain ⟨m,sends⟩ := speaks n target (by simp [tableOwn,Cap.Names])
        rw [written] at sends
        split at sends
        · exact sends.2 mute
        · rename_i apart
          exact alone m apart sends
      · obtain ⟨m,sends⟩ := speaks m ep (by rw [tableOther apart]; exact named)
        rw [written] at sends
        split at sends
        · exact other sends.1.symm
        · rename_i apart
          exact alone m apart sends
    · intro quiet m ep named
      by_cases same : target = ep
      · subst same
        by_cases mute : rights &&& capRightSend = 0
        · by_contra alone
          refine quiet ⟨n,rfl,.inl ⟨mute,fun m apart sends => alone ⟨m,?_⟩⟩⟩
          rw [written,if_neg apart]
          exact sends
        · exact ⟨n,by rw [written,if_pos rfl]; exact ⟨rfl,mute⟩⟩
      · have apart : m ≠ n := fun own => by simp [own,tableOwn,Cap.Names,same] at named
        rw [tableOther apart] at named
        obtain ⟨m',sends⟩ := agree m ep named
        by_contra alone
        have only : ∀ m ≠ n, ¬ (t m).Sends ep := by
          intro m apart sends
          exact alone ⟨m,by rw [written,if_neg apart]; exact sends⟩
        obtain rfl : m' = n := by_contra fun apart => only m' apart sends
        exact quiet ⟨m',rfl,.inr ⟨ep,Ne.symm same,sends,⟨m,apart,named⟩,only⟩⟩
  · rename_i outside
    refine iff_of_true agree ?_
    rintro ⟨n,rfl,_⟩
    exact outside (by omega)

/- What one call does to a table on which the checks agree. -/
theorem callAgreeIff (agree : ChecksAgree t) : ChecksAgree (t.call c).1 ↔ ¬ Mutes t c := by
  cases c with
  | clear => exact iff_of_true clearAgree id
  | install slot target rights => exact installAgreeIff agree
  | grantIo base len => exact iff_of_true (grantIoAgree agree) id
  | grantEndpoint target => exact iff_of_true (grantEndpointAgree agree) id

theorem afterAppend : CTable.after (calls ++ [c]) = ((CTable.after calls).call c).1 := by
  simp [CTable.after]

/- The checks agree on every table of a run exactly if no install of the run mutes an
endpoint. -/
theorem checksAgreeIff : (∀ earlier later, calls = earlier ++ later → ChecksAgree (CTable.after earlier)) ↔
    ∀ earlier c later, calls = earlier ++ c :: later → ¬ Mutes (CTable.after earlier) c := by
  constructor
  · intro agree earlier c later split
    have next := agree (earlier ++ [c]) later (by simp [split])
    rw [afterAppend] at next
    exact (callAgreeIff (agree earlier (c :: later) split)).mp next
  · intro quiet
    refine Trace.beginnings clearAgree fun earlier c later split agree => ?_
    rw [afterAppend]
    exact (callAgreeIff agree).mpr (quiet earlier c later split)

/- A capability without the right to send satisfies `cap_has_endpoint`, and keeps
`cap_grant_endpoint` from adding one. -/
theorem checksDisagree : ¬ ∀ calls, ChecksAgree (CTable.after calls) := by
  intro always
  have passed := ((always [.install 0 5 0]).sends 5).mp (by decide)
  obtain ⟨n,sends⟩ := sendTargetIff.mp passed
  exact absurd sends (by revert n; decide)

/- No system call installs a capability without the right: on the tables of a running
kernel the checks agree. -/
theorem runningAgree {k : Kernel} (h : Reachable k) : ∀ i, ChecksAgree (k.threads i).ctable := by
  refine reachUnder (fun k => ∀ i, ChecksAgree (k.threads i).ctable) ?_ ?_ h
  · intro memory stackBase i
    rw [agreeIff]
    intro n ep named
    have empty : (((boot memory stackBase).threads i).ctable n).type = .null := by
      show ((if i = 0 then _ else threadZero : Thread).ctable n).type = .null
      split <;> rfl
    cases empty.symm.trans named.1
  · intro k₀ input k k' _ _ _ _ _ agree move i
    have endpoint : ∀ {k₁ : Kernel} {holder ep}, (∀ i, ChecksAgree (k₁.threads i).ctable) →
        ChecksAgree ((k₁.capGrantEndpoint holder ep).1.threads i).ctable := by
      intro k₁ holder ep agree
      cases holder with
      | none => exact agree i
      | some d =>
        rw [grantTable]
        split
        · exact grantEndpointAgree (agree d)
        · exact agree i
    obtain same | authorises := moveAuthority move
    · have table : (k'.threads i).ctable = (k.threads i).ctable := congrArg Prod.fst (same i)
      rw [table]
      exact agree i
    · cases authorises with
      | @openCall _ j dest acting allowed =>
        rw [openCall,logThreads,updThreads]
        split
        · exact agree j
        · exact agree i
      | @closeCall _ j source acting =>
        rw [updThreads]
        split
        · unfold closeCall
          split <;> exact agree j
        · exact agree i
      | create parent prog =>
        unfold threadCreate
        split
        · rw [logThreads,updThreads]
          split
          · exact clearAgree
          · exact agree i
        · exact agree i
      | grantChild child acting created => exact endpoint agree
      | grantCap acting call held => exact endpoint agree
      | grantIo target base len =>
        cases target with
        | none => exact agree i
        | some d =>
          rw [grantIoTable]
          split
          · exact grantIoAgree (agree d)
          · exact agree i

end
end Mukern
