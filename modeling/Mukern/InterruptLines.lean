import Mukern.Moves
import Mukern.Library.InterruptControllers

/-! `pic.h` and what `trap.c` writes to the two interrupt controllers: which lines reach the
kernel over a whole run. -/
namespace Mukern
open Kernel InterruptControllers

def pic1Cmd : BitVec 16 := 0x20
def pic1Data : BitVec 16 := 0x21
def pic2Cmd : BitVec 16 := 0xA0
def pic2Data : BitVec 16 := 0xA1
def picEoi : BitVec 8 := 0x20

namespace Pics

def outb (p : Pair) (port : BitVec 16) (v : BitVec 8) : Pair :=
  if port = pic1Cmd then { p with master := p.master.command v }
  else if port = pic1Data then { p with master := p.master.data v }
  else if port = pic2Cmd then { p with slave := p.slave.command v }
  else if port = pic2Data then { p with slave := p.slave.data v }
  else p

/- A read of a data port gives the mask. -/
def picRemap (p : Pair) (off1 off2 : BitVec 8) : Pair :=
  let m1 := p.master.imr
  let m2 := p.slave.imr
  let p := outb p pic1Cmd 0x11
  let p := outb p pic2Cmd 0x11
  let p := outb p pic1Data off1
  let p := outb p pic2Data off2
  let p := outb p pic1Data 0x04
  let p := outb p pic2Data 0x02
  let p := outb p pic1Data 0x01
  let p := outb p pic2Data 0x01
  let p := outb p pic1Data m1
  outb p pic2Data m2

def picSetMask (p : Pair) (mask : BitVec 16) : Pair := outb (outb p pic1Data (mask.setWidth 8)) pic2Data ((mask >>> 8).setWidth 8)

def picSendEoi (p : Pair) (irq : Nat) : Pair :=
  let p := if 8 ≤ irq then outb p pic2Cmd picEoi else p
  outb p pic1Cmd picEoi

/- What `hal_traps_init` does to the controllers. -/
def halTrapsInit (p : Pair) : Pair := picSetMask (picRemap p 32 40) 0xFFFE

end Pics

/- What `isr_handler` writes to the controllers. -/
def Kernel.portWrites (k : Kernel) (tf : Trapframe) (p : Pair) : Pair :=
  if tf.vec = vecTimer then Pics.picSendEoi p 0
  else if tf.vec = syscallVector then
    match k.current with
    | none => p
    | some self =>
      match Syscall.ofRax tf.rax with
      | .irqRegister => if 0 ≤ cint tf.rdi ∧ cint tf.rdi < 16 then
          Pics.picSetMask p (k.irqMask &&& ~~~((1 : BitVec 16) <<< (cint tf.rdi).toNat)) else p
      | .outb => if (k.threads self).ctable.hasPort (tf.rdi.setWidth 16) then Pics.outb p (tf.rdi.setWidth 16) (tf.rsi.setWidth 8) else p
      | _ => p
  else if vecIrqBase ≤ tf.vec ∧ tf.vec - vecIrqBase < 16 then Pics.picSendEoi p (tf.vec - vecIrqBase)
  else p

/- The controllers between two interrupts: initialised, nothing in service, and the mask
that the kernel's shadow says. -/
structure PicsSettled (p : Pair) (mask : BitVec 16) : Prop where
  master : p.master.stage = .done ∧ p.master.base = 32 ∧ p.master.cascade = 0x04 ∧ p.master.imr = mask.setWidth 8
  slave : p.slave.stage = .done ∧ p.slave.base = 40 ∧ p.slave.imr = (mask >>> 8).setWidth 8
  idle : (∀ n, p.master.isr n = false) ∧ ∀ n, p.slave.isr n = false

section
variable {p : Pair} {mask : BitVec 16}

theorem settledInit (p : Pair) : PicsSettled (Pics.halTrapsInit p) 0xFFFE :=
  ⟨⟨rfl,rfl,rfl,rfl⟩,⟨rfl,rfl,rfl⟩,fun _ => rfl,fun _ => rfl⟩

theorem settledMask (settled : PicsSettled p mask) (mask' : BitVec 16) : PicsSettled (Pics.picSetMask p mask') mask' := by
  obtain ⟨⟨ready,base,cascade,_⟩,⟨ready',base',_⟩,idle,idle'⟩ := settled
  have written : Pics.picSetMask p mask' = ⟨{ p.master with imr := mask'.setWidth 8 },{ p.slave with imr := (mask' >>> 8).setWidth 8 }⟩ := by
    change (⟨p.master.data _,p.slave.data _⟩ : Pair) = _
    rw [dataDone ready,dataDone ready']
  rw [written]
  exact ⟨⟨ready,base,cascade,rfl⟩,⟨ready',base',rfl⟩,idle,idle'⟩

theorem settledLine (settled : PicsSettled p mask) (n : Fin 16) (up : Bool) : PicsSettled (p.line n up) mask := by
  unfold Pair.line
  split <;> exact ⟨settled.master,settled.slave,settled.idle⟩

theorem masterVector (settled : PicsSettled p mask) (n : Fin 8) : p.master.vector n = 32 + n.val := by
  rw [Chip.vector,settled.master.2.1]
  rfl

theorem slaveVector (settled : PicsSettled p mask) (n : Fin 8) : p.slave.vector n = 40 + n.val := by
  rw [Chip.vector,settled.slave.2.1]
  rfl

/- The end of the interrupt that was acknowledged. -/
theorem settledEoi (settled : PicsSettled p mask) {served : Pair} {vec : Nat} (outcome : Outcome p (served,vec)) :
    32 ≤ vec ∧ vec < 48 ∧ PicsSettled (Pics.picSendEoi served (vec - 32)) mask := by
  have low (p : Pair) {irq : Nat} (below : irq < 8) : Pics.picSendEoi p irq = { p with master := p.master.eoi } := by
    rw [Pics.picSendEoi,if_neg (by omega)]
    rfl
  have high (p : Pair) {irq : Nat} (above : 8 ≤ irq) : Pics.picSendEoi p irq = ⟨p.master.eoi,p.slave.eoi⟩ := by
    rw [Pics.picSendEoi,if_pos above]
    rfl
  cases outcome with
  | spurious quiet =>
    rw [masterVector settled]
    refine ⟨by decide,by decide,?_⟩
    rw [low p (by decide),eoiIdle settled.idle.1]
    exact settled
  | @own n found here =>
    have small := n.isLt
    rw [masterVector settled]
    refine ⟨by omega,by omega,?_⟩
    rw [low _ (by omega),eoiServe settled.idle.1]
    exact ⟨settled.master,settled.slave,settled.idle⟩
  | @through n m found there next =>
    have small := m.isLt
    rw [slaveVector settled]
    refine ⟨by omega,by omega,?_⟩
    rw [high _ (by omega),eoiServe settled.idle.1,eoiServe settled.idle.2]
    exact ⟨settled.master,settled.slave,settled.idle⟩
  | @gone n found there =>
    rw [slaveVector settled]
    refine ⟨by decide,by decide,?_⟩
    rw [high _ (by decide),eoiServe settled.idle.1,eoiIdle settled.idle.2]
    exact ⟨settled.master,settled.slave,settled.idle⟩

/- A device waits for the processor, and neither its line nor the way to it is masked. -/
structure LineWaits (p : Pair) (mask : BitVec 16) (n : Fin 16) : Prop where
  device : n ≠ 2
  raised : p.raised n
  clear : mask.getLsbD n.val = false
  cascade : 8 ≤ n.val → mask.getLsbD 2 = false

/- The priority of a line in the order of priority: the slave's lines come after line 1. -/
def priority (n : Fin 16) : Nat := if n.val < 2 then n.val else if n.val < 8 then n.val + 8 else n.val - 6

theorem cascadeBit (n : Fin 8) : (0x04 : BitVec 8).getLsbD n.val = decide (n = 2) := by
  revert n
  decide

theorem masterAdmits (settled : PicsSettled p mask) (n : Fin 8) : p.master.admits n ↔ mask.getLsbD n.val = false := by
  have bit : p.master.imr.getLsbD n.val = mask.getLsbD n.val := by
    rw [settled.master.2.2.2,BitVec.getLsbD_setWidth,decide_eq_true n.isLt,Bool.true_and]
  rw [Chip.admits,bit]
  exact and_iff_left fun m _ => settled.idle.1 m

theorem slaveAdmits (settled : PicsSettled p mask) (n : Fin 8) : p.slave.admits n ↔ mask.getLsbD (8 + n.val) = false := by
  have bit : p.slave.imr.getLsbD n.val = mask.getLsbD (8 + n.val) := by
    rw [settled.slave.2.2,BitVec.getLsbD_setWidth,decide_eq_true n.isLt,Bool.true_and,BitVec.getLsbD_ushiftRight]
  rw [Chip.admits,bit]
  exact and_iff_left fun m _ => settled.idle.2 m

/- What waits, asks the master. -/
theorem waitsAsks {n : Fin 16} (settled : PicsSettled p mask) (waits : LineWaits p mask n) :
    ∃ i : Fin 8, p.inputs i ∧ p.master.admits i ∧ (n.val < 8 ∧ i.val = n.val ∨ 8 ≤ n.val ∧ i = 2) := by
  obtain ⟨device,raised,clear,cascade⟩ := waits
  unfold Pair.raised at raised
  split at raised
  · rename_i low
    have other : (⟨n.val,low⟩ : Fin 8) ≠ 2 := fun same => device (Fin.ext (Fin.mk.inj same))
    refine ⟨⟨n.val,low⟩,?_,(masterAdmits settled _).mpr clear,.inl ⟨low,rfl⟩⟩
    rw [Pair.inputs,settled.master.2.2.1,cascadeBit,decide_eq_false other]
    exact raised
  · rename_i high
    refine ⟨2,?_,(masterAdmits settled _).mpr (cascade (by omega)),.inr ⟨by omega,rfl⟩⟩
    rw [Pair.inputs,settled.master.2.2.1,cascadeBit]
    cases found : p.slave.choose p.slave.irr with
    | some m => rfl
    | none =>
      have refused := chooseNone.mp found ⟨n.val - 8,by omega⟩ raised
      have index : 8 + (n.val - 8) = n.val := by omega
      rw [slaveAdmits settled,index] at refused
      exact absurd clear refused

/- The processor is told the line that comes first of those that wait. -/
theorem ackFirst (settled : PicsSettled p mask) :
    (∃ n, LineWaits p mask n ∧ (∀ m, LineWaits p mask m → priority n ≤ priority m) ∧ (p.acknowledge false).2 = 32 + n.val) ∨
      (∀ n, ¬ LineWaits p mask n) ∧ (p.acknowledge false).2 = 39 := by
  have cascade (n : Fin 8) : p.master.cascade.getLsbD n.val = decide (n = 2) := by rw [settled.master.2.2.1,cascadeBit]
  cases found : p.pending with
  | none =>
    refine .inr ⟨fun n waits => ?_,?_⟩
    · obtain ⟨i,asks,admits,_⟩ := waitsAsks settled waits
      exact chooseNone.mp found i asks admits
    · rw [Pair.acknowledge,found]
      exact masterVector settled 7
  | some n =>
    obtain ⟨asks,admits⟩ := chooseSome found
    have clear := (masterAdmits settled n).mp admits
    refine .inl ?_
    by_cases through : n = 2
    · subst through
      rw [Pair.inputs,cascade] at asks
      obtain ⟨m,next⟩ := Option.isSome_iff_exists.mp asks
      obtain ⟨asked,passes⟩ := chooseSome next
      have inside := m.isLt
      have third : priority ⟨8 + m.val,by omega⟩ = 2 + m.val := by
        unfold priority
        dsimp only
        rw [if_neg (by omega),if_neg (by omega)]
        omega
      refine ⟨⟨8 + m.val,by omega⟩,⟨?_,?_,(slaveAdmits settled m).mp passes,fun _ => clear⟩,fun k waits => ?_,?_⟩
      · intro same
        have value : 8 + m.val = 2 := congrArg Fin.val same
        omega
      · have index : (⟨8 + m.val - 8,by omega⟩ : Fin 8) = m := Fin.ext (Nat.add_sub_cancel_left 8 m.val)
        rw [Pair.raised,dif_neg (by simp),index]
        exact asked
      · obtain ⟨i,calls,may,own⟩ := waitsAsks settled waits
        have least : 2 ≤ i.val := chooseFirst found calls may
        obtain ⟨device,raised,clear',_⟩ := waits
        have device : k.val ≠ 2 := fun same => device (Fin.ext same)
        rw [third]
        unfold priority
        rcases own with ⟨low,same⟩ | ⟨high,_⟩
        · rw [if_neg (by omega),if_pos low]
          omega
        · rw [Pair.raised,dif_neg (by omega)] at raised
          have index : 8 + (k.val - 8) = k.val := by omega
          have first : m ≤ ⟨k.val - 8,by omega⟩ := chooseFirst next raised ((slaveAdmits settled _).mpr (by rw [index]; exact clear'))
          have order : m.val ≤ k.val - 8 := first
          rw [if_neg (by omega),if_neg (by omega)]
          omega
      · have there : p.master.cascade.getLsbD (2 : Fin 8).val = true := cascade 2
        rw [Pair.acknowledge,found]
        dsimp only
        rw [if_pos there,if_neg (by decide),next]
        change p.slave.vector m = 32 + (8 + m.val)
        rw [slaveVector settled]
        omega
    · have inside := n.isLt
      have other : n.val ≠ 2 := fun same => through (Fin.ext same)
      have here : p.master.cascade.getLsbD n.val = false := by rw [cascade,decide_eq_false through]
      rw [Pair.inputs,here] at asks
      refine ⟨⟨n.val,by omega⟩,⟨fun same => other (congrArg Fin.val same),?_,clear,fun high => ?_⟩,fun k waits => ?_,?_⟩
      · rw [Pair.raised,dif_pos inside]
        exact asks
      · have high : 8 ≤ n.val := high
        omega
      · obtain ⟨i,calls,may,own⟩ := waitsAsks settled waits
        have least : n.val ≤ i.val := chooseFirst found calls may
        have device : k.val ≠ 2 := fun same => waits.device (Fin.ext same)
        unfold priority
        dsimp only
        rcases own with ⟨low,same⟩ | ⟨high,same⟩
        · split <;> split <;> omega
        · have two : i.val = 2 := congrArg Fin.val same
          rw [if_pos (by omega),if_neg (by omega),if_neg (by omega)]
          omega
      · rw [Pair.acknowledge,found]
        dsimp only
        rw [if_neg (by rw [here]; decide),masterVector settled]

end
/- An interrupt line is taken, or its interrupt is posted. -/
def Event.onLine : Event → Bool
  | .irqRegister _ _ | .irqPost _ _ => true
  | _ => false

/- The mask and what has happened to the lines. -/
def lineLog (k : Kernel) : BitVec 16 × List Event := (k.irqMask,k.history.filter Event.onLine)

/- The calls and the interrupts that may write it. -/
def TouchesLines (input : Input) : Prop :=
  (∃ tf, IsCall input .irqRegister tf) ∨ ∃ tf hw, input = .trap tf hw ∧ ∃ line : Fin 16, tf.vec = vecIrqBase + line.val

section
variable {k₀ k k' : Kernel} {input : Input} {i : Slot}

theorem linesSchedule {point : Context} : lineLog (k.schedule point) = lineLog k :=
  scheduleFrame lineLog (fun _ _ _ _ _ => rfl) k point

theorem linesSend {dest m caller} : lineLog (k.ipcSendLocked i dest m caller).1 = lineLog k := by
  have outcome := ipcSendOutcome k i dest m caller
  generalize k.ipcSendLocked i dest m caller = result at outcome
  cases outcome with
  | refused nobody | met d named ready => rfl
  | staged d named present busy => exact linesSchedule

theorem linesRecv {src junk caller} : lineLog (k.ipcRecvLocked i src junk caller).1 = lineLog k := by
  have outcome := ipcRecvOutcome k i src junk caller
  generalize k.ipcRecvLocked i src junk caller = result at outcome
  cases outcome with
  | irq pending | taken snd quiet waiting => rfl
  | awaits quiet nobody => exact linesSchedule

theorem linesGrant {t ep} : lineLog (k.capGrantEndpoint t ep).1 = lineLog k := by
  unfold capGrantEndpoint
  split
  · rfl
  · dsimp only
    split <;> rfl

theorem linesGrantIo {t base len} : lineLog (k.capGrantIo t base len).1 = lineLog k := by
  unfold capGrantIo
  split
  · rfl
  · dsimp only
    split <;> rfl

theorem moveLines (quiet : ¬ TouchesLines input) (move : Move k₀ input k k') : lineLog k' = lineLog k := by
  cases move with
  | irqRegister acting call named => exact absurd (.inl ⟨_,call⟩) quiet
  | irq user call vec => exact absurd (.inr ⟨_,_,call,_,vec⟩) quiet
  | send acting called => exact linesSend
  | recv src junk rsi acting => exact linesRecv
  | create prog acting call named =>
    unfold threadCreate
    split <;> rfl
  | grantChild child acting created => exact linesGrant
  | grantCap acting call held => exact linesGrant
  | grantIo acting call => exact linesGrantIo
  | exit acting call => exact linesSchedule
  | faultSend forwards => exact linesSend
  | faultRecv junk acting sent => exact linesRecv
  | kill acting verdict nonzero => exact linesSchedule
  | tick user => exact linesSchedule
  | resumeRecv junk mode current saved =>
    unfold ipcRecvResume
    dsimp only
    split <;> rfl
  | _ => rfl

theorem stepQuiet (quiet : ¬ TouchesLines input) (enabled : k.Enabled input) : lineLog (k.step input) = lineLog k := by
  have moves := stepMoves enabled
  generalize k.step input = k' at moves
  induction moves with
  | refl => rfl
  | tail _ move ih => exact (moveLines quiet move).trans ih

/- What `SYS_IRQ_REGISTER` does. -/
theorem stepRegister {tf : Trapframe} (hw : Hardware) (vec : tf.vec = syscallVector) (call : Syscall.ofRax tf.rax = .irqRegister)
    (current : k.current = some i) : lineLog (k.step (.trap tf hw)) = lineLog k ∧ ¬ (0 ≤ cint tf.rdi ∧ cint tf.rdi < 16) ∨
      ∃ line : Fin 16, cint tf.rdi = (line.val : Int) ∧
        lineLog (k.step (.trap tf hw)) = (k.irqMask &&& ~~~((1 : BitVec 16) <<< line.val),.irqRegister i line :: k.history.filter Event.onLine) := by
  have step : k.step (.trap tf hw) = (k.log (.syscall i tf)).sysIrqRegister i tf := by
    change k.isrHandler tf hw = _
    rw [isrHandler,if_neg (by rw [vec]; decide),if_pos vec,current]
    dsimp only
    rw [doSyscall,call]
  rw [step,sysIrqRegister]
  dsimp only
  split
  · rename_i named
    exact .inr ⟨⟨(cint tf.rdi).toNat,by omega⟩,(Int.toNat_of_nonneg named.1).symm,rfl⟩
  · rename_i outside
    exact .inl ⟨rfl,outside⟩

/- What an interrupt does. -/
theorem stepIrq {tf : Trapframe} (k : Kernel) (hw : Hardware) {line : Fin 16} (vec : tf.vec = vecIrqBase + line.val) :
    lineLog (k.step (.trap tf hw)) = lineLog k ∨ ∃ d, lineLog (k.step (.trap tf hw)) = (k.irqMask,.irqPost line d :: k.history.filter Event.onLine) := by
  have small := line.isLt
  have base : vecIrqBase = 32 := rfl
  have timer : vecTimer = 32 := rfl
  have system : syscallVector = 128 := rfl
  have fault : vecPf = 14 := rfl
  by_cases tick : tf.vec = vecTimer
  · have step : k.step (.trap tf hw) = k.timerTick := if_pos tick
    rw [step]
    exact .inl linesSchedule
  have below : tf.vec - vecIrqBase < 16 := by omega
  have same : (⟨tf.vec - vecIrqBase,below⟩ : Fin 16) = line := Fin.ext (by dsimp only; omega)
  have step : k.step (.trap tf hw) = k.irqNotify line := by
    change k.isrHandler tf hw = _
    rw [isrHandler,if_neg tick,if_neg (by omega),if_neg (by omega),if_neg (by omega),dif_pos below,same]
  rw [step]
  unfold irqNotify
  split
  · exact .inl rfl
  · rename_i d _
    split
    · exact .inr ⟨d,rfl⟩
    · exact .inl rfl

end
/- The machine with its interrupt controllers: a line rises or falls, the processor
acknowledges an interrupt, or anything else happens. -/
structure Board where
  kernel : Kernel
  pics : Pair

inductive BoardInput where
  | line (n : Fin 16) (up : Bool)
  | interrupt (late : Bool) (tf : Trapframe) (hw : Hardware)
  | other (input : Input)

namespace Board

def Enabled (b : Board) : BoardInput → Prop
  | .line n _ => n ≠ 2
  | .interrupt late tf _ => b.kernel.mode = .user ∧ tf.vec = (b.pics.acknowledge late).2
  | .other input => b.kernel.Enabled input ∧ ∀ tf hw, input = .trap tf hw → ¬ (32 ≤ tf.vec ∧ tf.vec < 48)

def step (b : Board) : BoardInput → Board
  | .line n up => { b with pics := b.pics.line n up }
  | .interrupt late tf hw => ⟨b.kernel.step (.trap tf hw),b.kernel.portWrites tf (b.pics.acknowledge late).1⟩
  | .other (.trap tf hw) => ⟨b.kernel.step (.trap tf hw),b.kernel.portWrites tf b.pics⟩
  | .other input => { b with kernel := b.kernel.step input }

/- The thread does not write to the controllers. -/
def Aloof (b : Board) : BoardInput → Prop
  | .other (.trap tf _) => ∀ i, b.kernel.current = some i → tf.vec = syscallVector → Syscall.ofRax tf.rax = .outb →
      (b.kernel.threads i).ctable.hasPort (tf.rdi.setWidth 16) → (tf.rdi.setWidth 16 : BitVec 16) ∉ [pic1Cmd,pic1Data,pic2Cmd,pic2Data]
  | _ => True

end Board

/- `hal_traps_init` finds the controllers as they come. -/
def board : Transition.System Board BoardInput where
  start b := ∃ memory stackBase p, b = ⟨Kernel.boot memory stackBase,Pics.halTrapsInit p⟩
  enabled := Board.Enabled
  next := Board.step

/- A line is open from the first registration on, the timer's from the start, and the slave's
lines are heard only once somebody has registered line 2. -/
structure Ruled (mask : BitVec 16) (h : List Event) : Prop where
  opened : ∀ n : Fin 16, mask.getLsbD n.val = false ↔ n = 0 ∨ ∃ i, .irqRegister i n ∈ h
  posted : ∀ n : Fin 16, ∀ d, .irqPost n d ∈ h → 8 ≤ n.val → ∃ i, .irqRegister i 2 ∈ h

section
variable {k : Kernel} {mask : BitVec 16} {h : List Event}

theorem ruledFilter : Ruled mask (h.filter Event.onLine) ↔ Ruled mask h := by
  have member {e : Event} (on : e.onLine = true) : e ∈ h.filter Event.onLine ↔ e ∈ h := by
    rw [List.mem_filter]
    exact and_iff_left on
  have registered (n : Fin 16) : (∃ i, .irqRegister i n ∈ h.filter Event.onLine) ↔ ∃ i, .irqRegister i n ∈ h :=
    exists_congr fun i => member rfl
  have posts (n : Fin 16) (d : Slot) : .irqPost n d ∈ h.filter Event.onLine ↔ .irqPost n d ∈ h := member rfl
  constructor <;> intro ruled
  · exact ⟨fun n => (ruled.opened n).trans (or_congr Iff.rfl (registered n)),
      fun n d post high => (registered 2).mp (ruled.posted n d ((posts n d).mpr post) high)⟩
  · exact ⟨fun n => (ruled.opened n).trans (or_congr Iff.rfl (registered n).symm),
      fun n d post high => (registered 2).mpr (ruled.posted n d ((posts n d).mp post) high)⟩

theorem lineBit (n line : Fin 16) : ((1 : BitVec 16) <<< line.val).getLsbD n.val = decide (n = line) := by
  revert n line
  decide

theorem ruledRegister (ruled : Ruled mask h) (i : Slot) (line : Fin 16) :
    Ruled (mask &&& ~~~((1 : BitVec 16) <<< line.val)) (.irqRegister i line :: h) := by
  constructor
  · intro n
    rw [BitVec.getLsbD_and,BitVec.getLsbD_not,lineBit,decide_eq_true n.isLt,Bool.true_and]
    by_cases own : n = line
    · rw [decide_eq_true own]
      exact iff_of_true (Bool.and_false _) (.inr ⟨i,by rw [own]; exact List.mem_cons_self⟩)
    · have registered : (∃ j, .irqRegister j n ∈ .irqRegister i line :: h) ↔ ∃ j, .irqRegister j n ∈ h :=
        exists_congr fun j => by simp [own]
      rw [decide_eq_false own,Bool.not_false,Bool.and_true,registered]
      exact ruled.opened n
  · intro n d post high
    rcases List.mem_cons.mp post with same | older
    · cases same
    · obtain ⟨j,taken⟩ := ruled.posted n d older high
      exact ⟨j,List.mem_cons_of_mem _ taken⟩

theorem ruledPost (ruled : Ruled mask h) (line : Fin 16) (d : Slot) (heard : 8 ≤ line.val → mask.getLsbD 2 = false) :
    Ruled mask (.irqPost line d :: h) := by
  have registered (n : Fin 16) : (∃ i, .irqRegister i n ∈ .irqPost line d :: h) ↔ ∃ i, .irqRegister i n ∈ h :=
    exists_congr fun i => by simp
  refine ⟨fun n => (ruled.opened n).trans (or_congr Iff.rfl (registered n).symm),fun n d' post high => (registered 2).mpr ?_⟩
  rcases List.mem_cons.mp post with same | older
  · cases same
    exact ((ruled.opened 2).mp (heard high)).resolve_left (by decide)
  · exact ruled.posted n d' older high

end
/- Which lines are open, what the processor is told, and what reaches the drivers. -/
structure Lines (b : Board) : Prop where
  reached : Reachable b.kernel
  settled : PicsSettled b.pics b.kernel.irqMask
  ruled : Ruled b.kernel.irqMask b.kernel.history

section
variable {b : Board} {i : BoardInput}

theorem linesStart (memory : Memory) (stackBase : Word) (p : Pair) : Lines ⟨Kernel.boot memory stackBase,Pics.halTrapsInit p⟩ := by
  have log : lineLog (Kernel.boot memory stackBase) = (0xFFFE,[]) := rfl
  refine ⟨.start ⟨memory,stackBase,rfl⟩,settledInit p,ruledFilter.mp ?_⟩
  have history : (Kernel.boot memory stackBase).history.filter Event.onLine = [] := congrArg Prod.snd log
  rw [history]
  have mask : (Kernel.boot memory stackBase).irqMask = 0xFFFE := rfl
  rw [mask]
  refine ⟨fun n => ?_,fun n d post => by cases post⟩
  have bit : (0xFFFE : BitVec 16).getLsbD n.val = false ↔ n = 0 := by
    revert n
    decide
  rw [bit]
  exact ⟨.inl,fun either => either.elim id fun ⟨_,member⟩ => by cases member⟩

/- The kernel's part of a step that leaves the lines alone. -/
theorem ruledSame {k k' : Kernel} (ruled : Ruled k.irqMask k.history) (same : lineLog k' = lineLog k) : Ruled k'.irqMask k'.history := by
  have mask : k'.irqMask = k.irqMask := congrArg Prod.fst same
  have history : k'.history.filter Event.onLine = k.history.filter Event.onLine := congrArg Prod.snd same
  rw [← ruledFilter,mask,history]
  exact ruledFilter.mpr ruled

theorem writesEoi {k : Kernel} {tf : Trapframe} {p : Pair} (low : 32 ≤ tf.vec) (high : tf.vec < 48) :
    k.portWrites tf p = Pics.picSendEoi p (tf.vec - 32) := by
  have base : vecIrqBase = 32 := rfl
  have timer : vecTimer = 32 := rfl
  have system : syscallVector = 128 := rfl
  unfold Kernel.portWrites
  by_cases tick : tf.vec = vecTimer
  · rw [if_pos tick,tick]
    rfl
  · rw [if_neg tick,if_neg (by omega),if_pos (by omega)]
    rfl

/- A vector of the slave has come through line 2. -/
theorem slaveHeard {p served : Pair} {mask : BitVec 16} {vec : Nat} (settled : PicsSettled p mask) (outcome : Outcome p (served,vec)) (high : 40 ≤ vec) :
    mask.getLsbD 2 = false := by
  have through {n : Fin 8} (found : p.pending = some n) (there : p.master.cascade.getLsbD n.val = true) : mask.getLsbD 2 = false := by
    rw [settled.master.2.2.1,cascadeBit] at there
    have second : n = 2 := of_decide_eq_true there
    have admitted := (masterAdmits settled n).mp (chooseSome found).2
    rwa [second] at admitted
  cases outcome with
  | spurious quiet =>
    rw [masterVector settled] at high
    exact absurd high (by decide)
  | @own n found here =>
    have small := n.isLt
    rw [masterVector settled] at high
    omega
  | through found there next => exact through found there
  | gone found there => exact through found there

theorem linesInterrupt {late : Bool} {tf : Trapframe} {hw : Hardware} (lines : Lines b) (user : b.kernel.mode = .user)
    (told : tf.vec = (b.pics.acknowledge late).2) : Lines (b.step (.interrupt late tf hw)) := by
  have outcome : Outcome b.pics ((b.pics.acknowledge late).1,tf.vec) := told ▸ ackOutcome b.pics late
  obtain ⟨low,high,ended⟩ := settledEoi lines.settled outcome
  have vec : tf.vec = vecIrqBase + (⟨tf.vec - 32,by omega⟩ : Fin 16).val := by
    have base : vecIrqBase = 32 := rfl
    dsimp only
    omega
  have written : b.kernel.portWrites tf (b.pics.acknowledge late).1 = Pics.picSendEoi (b.pics.acknowledge late).1 (tf.vec - 32) :=
    writesEoi low high
  have heard : 8 ≤ tf.vec - 32 → b.kernel.irqMask.getLsbD 2 = false := fun line => slaveHeard lines.settled outcome (by omega)
  have strikes : machine.enabled b.kernel (.trap tf hw) := ⟨user,.inl ⟨low,high⟩⟩
  have reached : Reachable (b.kernel.step (.trap tf hw)) := lines.reached.step strikes trivial
  rcases stepIrq b.kernel hw vec with same | ⟨d,posted⟩
  · have mask : (b.kernel.step (.trap tf hw)).irqMask = b.kernel.irqMask := congrArg Prod.fst same
    refine ⟨reached,?_,ruledSame lines.ruled same⟩
    change PicsSettled (b.kernel.portWrites tf (b.pics.acknowledge late).1) (b.kernel.step (.trap tf hw)).irqMask
    rw [written,mask]
    exact ended
  · have mask : (b.kernel.step (.trap tf hw)).irqMask = b.kernel.irqMask := congrArg Prod.fst posted
    have history := congrArg Prod.snd posted
    refine ⟨reached,?_,?_⟩
    · change PicsSettled (b.kernel.portWrites tf (b.pics.acknowledge late).1) (b.kernel.step (.trap tf hw)).irqMask
      rw [written,mask]
      exact ended
    · change Ruled (b.kernel.step (.trap tf hw)).irqMask (b.kernel.step (.trap tf hw)).history
      rw [← ruledFilter,mask]
      change Ruled _ (lineLog (b.kernel.step (.trap tf hw))).2
      rw [history]
      exact ruledPost (ruledFilter.mpr lines.ruled) _ d heard

theorem writesNone {k : Kernel} {tf : Trapframe} {p : Pair} (soft : ¬ (32 ≤ tf.vec ∧ tf.vec < 48))
    (call : tf.vec = syscallVector → Syscall.ofRax tf.rax ≠ .irqRegister)
    (aloof : ∀ i, k.current = some i → tf.vec = syscallVector → Syscall.ofRax tf.rax = .outb → (k.threads i).ctable.hasPort (tf.rdi.setWidth 16) →
      (tf.rdi.setWidth 16 : BitVec 16) ∉ [pic1Cmd,pic1Data,pic2Cmd,pic2Data]) : k.portWrites tf p = p := by
  have base : vecIrqBase = 32 := rfl
  have timer : vecTimer = 32 := rfl
  unfold Kernel.portWrites
  rw [if_neg (by omega)]
  split
  · rename_i vec
    split
    · rfl
    · rename_i i current
      split
      · rename_i number
        exact absurd number (call vec)
      · rename_i number
        split
        · rename_i held
          have far := aloof i current vec number held
          simp only [List.mem_cons,not_or] at far
          unfold Pics.outb
          rw [if_neg far.1,if_neg far.2.1,if_neg far.2.2.1,if_neg far.2.2.2.1]
        · rfl
      · rfl
  · exact if_neg (by omega)

/- A call of a thread that leaves the controllers alone. -/
theorem linesCall {tf : Trapframe} {hw : Hardware} (lines : Lines b) (enabled : b.Enabled (.other (.trap tf hw)))
    (aloof : b.Aloof (.other (.trap tf hw))) : Lines (b.step (.other (.trap tf hw))) := by
  obtain ⟨strikes,soft⟩ := enabled
  have soft := soft tf hw rfl
  have reached : Reachable (b.kernel.step (.trap tf hw)) := Transition.Reach.step (S := machine) (i := .trap tf hw) lines.reached strikes trivial
  by_cases register : tf.vec = syscallVector ∧ Syscall.ofRax tf.rax = .irqRegister
  · obtain ⟨vec,call⟩ := register
    have system : syscallVector = 128 := rfl
    obtain ⟨user,hard | ⟨occupied,_⟩⟩ := strikes
    · exact absurd hard soft
    obtain ⟨i,current⟩ := Option.ne_none_iff_exists'.mp occupied
    have writes : b.kernel.portWrites tf b.pics = if 0 ≤ cint tf.rdi ∧ cint tf.rdi < 16 then
        Pics.picSetMask b.pics (b.kernel.irqMask &&& ~~~((1 : BitVec 16) <<< (cint tf.rdi).toNat)) else b.pics := by
      unfold Kernel.portWrites
      rw [if_neg (by rw [vec]; decide),if_pos vec,current]
      dsimp only
      rw [call]
    rcases stepRegister hw vec call current with ⟨same,invalid⟩ | ⟨line,named,taken⟩
    · have mask : (b.kernel.step (.trap tf hw)).irqMask = b.kernel.irqMask := congrArg Prod.fst same
      refine ⟨reached,?_,ruledSame lines.ruled same⟩
      change PicsSettled (b.kernel.portWrites tf b.pics) (b.kernel.step (.trap tf hw)).irqMask
      rw [writes,if_neg invalid,mask]
      exact lines.settled
    · have mask : (b.kernel.step (.trap tf hw)).irqMask = b.kernel.irqMask &&& ~~~((1 : BitVec 16) <<< line.val) := congrArg Prod.fst taken
      have history := congrArg Prod.snd taken
      have small := line.isLt
      refine ⟨reached,?_,?_⟩
      · change PicsSettled (b.kernel.portWrites tf b.pics) (b.kernel.step (.trap tf hw)).irqMask
        have number : (cint tf.rdi).toNat = line.val := by rw [named]; rfl
        rw [writes,if_pos (by omega),mask,number]
        exact settledMask lines.settled _
      · change Ruled (b.kernel.step (.trap tf hw)).irqMask (b.kernel.step (.trap tf hw)).history
        rw [← ruledFilter,mask]
        change Ruled _ (lineLog (b.kernel.step (.trap tf hw))).2
        rw [history]
        exact ruledRegister (ruledFilter.mpr lines.ruled) i line
  · have quiet : ¬ TouchesLines (.trap tf hw) := by
      rintro (⟨tf',hw',same,vec,call⟩ | ⟨tf',hw',same,line,vec⟩)
      · cases same
        exact register ⟨vec,call⟩
      · cases same
        have small := line.isLt
        have base : vecIrqBase = 32 := rfl
        exact soft ⟨by omega,by omega⟩
    have same : lineLog (b.kernel.step (.trap tf hw)) = lineLog b.kernel := stepQuiet quiet strikes
    have mask : (b.kernel.step (.trap tf hw)).irqMask = b.kernel.irqMask := congrArg Prod.fst same
    refine ⟨reached,?_,ruledSame lines.ruled same⟩
    change PicsSettled (b.kernel.portWrites tf b.pics) (b.kernel.step (.trap tf hw)).irqMask
    rw [writesNone soft (fun vec call => register ⟨vec,call⟩) aloof,mask]
    exact lines.settled

theorem linesPlain {input : Input} (lines : Lines b) (enabled : machine.enabled b.kernel input) (quiet : ¬ TouchesLines input) :
    Lines { b with kernel := b.kernel.step input } := by
  have same := stepQuiet quiet enabled
  have mask : (b.kernel.step input).irqMask = b.kernel.irqMask := congrArg Prod.fst same
  refine ⟨lines.reached.step enabled trivial,?_,ruledSame lines.ruled same⟩
  rw [mask]
  exact lines.settled

theorem linesStep (lines : Lines b) (enabled : b.Enabled i) (aloof : b.Aloof i) : Lines (b.step i) := by
  cases i with
  | line n up => exact ⟨lines.reached,settledLine lines.settled n up,lines.ruled⟩
  | interrupt late tf hw => exact linesInterrupt lines enabled.1 enabled.2
  | other input =>
    cases input with
    | trap tf hw => exact linesCall lines enabled aloof
    | resume junk =>
      refine linesPlain lines enabled.1 ?_
      rintro (⟨_,_,same,_⟩ | ⟨_,_,same,_⟩) <;> cases same
    | store va byte =>
      refine linesPlain lines enabled.1 ?_
      rintro (⟨_,_,same,_⟩ | ⟨_,_,same,_⟩) <;> cases same

/- In every run in which no thread writes to the controllers itself, nothing is left in service
between two interrupts, a line is open once it is registered, the processor is told the first
of the open lines that wait, and lines 8 to 15 stay silent until somebody has registered
line 2. -/
theorem interruptLines (h : Transition.Reach board Board.Aloof b) : Lines b ∧
    ((∃ n, LineWaits b.pics b.kernel.irqMask n ∧ (∀ m, LineWaits b.pics b.kernel.irqMask m → priority n ≤ priority m) ∧
        (b.pics.acknowledge false).2 = 32 + n.val) ∨
      (∀ n, ¬ LineWaits b.pics b.kernel.irqMask n) ∧ (b.pics.acknowledge false).2 = 39) := by
  have lines : Lines b := h.invariant Lines
    (fun _ start => by
      obtain ⟨memory,stackBase,p,rfl⟩ := start
      exact linesStart memory stackBase p) fun b i lines enabled aloof => linesStep lines enabled aloof
  exact ⟨lines,ackFirst lines.settled⟩

/- The controllers as some firmware may leave them. -/
def smallPics : Pair :=
  let chip : Chip := ⟨fun _ => true,fun _ => false,0xB8,0x08,0x04,.done⟩
  ⟨chip,{ chip with base := 0x70, cascade := 0x02 }⟩

def smallBoard : Board := ⟨Script.start,Pics.halTrapsInit smallPics⟩

theorem interruptLinesTick : Lines (((smallBoard.step (.line 0 true)).step (.line 4 true)).step (.interrupt false ⟨32,Input.userCs,0,0,0,0⟩ ⟨0,0,Input.noise⟩)) := by
  have start : Transition.Reach board Board.Aloof smallBoard := .start ⟨Script.memory,0x110000,smallPics,rfl⟩
  have timer : Transition.Reach board Board.Aloof (smallBoard.step (.line 0 true)) :=
    Transition.Reach.step (S := board) (i := .line 0 true) start (show (0 : Fin 16) ≠ 2 by decide) trivial
  have serial : Transition.Reach board Board.Aloof ((smallBoard.step (.line 0 true)).step (.line 4 true)) :=
    Transition.Reach.step (S := board) (i := .line 4 true) timer (show (4 : Fin 16) ≠ 2 by decide) trivial
  have told : ((smallBoard.step (.line 0 true)).step (.line 4 true)).Enabled (.interrupt false ⟨32,Input.userCs,0,0,0,0⟩ ⟨0,0,Input.noise⟩) :=
    ⟨rfl,by decide⟩
  exact (interruptLines (Transition.Reach.step (S := board) (i := .interrupt false _ _) serial told trivial)).1

end

end Mukern
