import Mukern.TrapRiscv
import Mukern.TrapX86
import Mukern.ThreadSwitching

/-! Threads that are interrupted, and switched away while their trap is handled. -/
namespace Mukern
open Buffers LittleEndian Coroutines Transition

section
variable {isa : Isa}

/- The handler of the trap of `t` writes nothing of the frame but the answer, and returns. -/
def Handles (traps : Traps isa) (t : Option Slot) (base : Nat) (s : ThreadMachine isa) (action : ThreadAction isa) : Prop :=
  s.running.current = t → match action with
    | .work _ memory => ∀ i, base ≤ i → i < base + traps.frameBytes → ¬ traps.Answer (i - base) → memory i = s.running.memory i
    | .switch _ _ => (isa.sp s.running.cpu).toNat ≤ base
    | .exit => False
    | .create _ _ | .block | .wake _ => True

/- A trap comes in the middle of what the current thread does. Other threads may run before
the handler returns; then the thread goes on with all that it had, and with the answer. -/
def TrapsReturn (traps : Traps isa) (image : StackLayout isa) (s : ThreadMachine isa) : Prop :=
  ∀ cause kernel core core' memory, traps.cpu core = s.running.cpu → s.Alive → isa.Code (isa.pc s.running.cpu) →
    image.arena.TrapRoom traps s.running kernel core → traps.enter cause kernel (core,s.running.memory) = (core',memory) →
    (threadSystem image).enabled s (.work (traps.cpu core') memory) ∧
      let base := traps.base kernel core
      let handling := s.act image (.work (traps.cpu core') memory)
      ∀ inputs, Admits (threadSystem image) (Handles traps s.running.current base) handling inputs →
        let returned := (run (threadSystem image) handling inputs).running
        returned.current = s.running.current → (isa.sp returned.cpu).toNat = base →
        ∀ d, traps.cpu d = returned.cpu →
          traps.view (traps.leave (d,returned.memory)).1 = traps.answered (traps.view core) returned.memory base ∧
            (traps.leave (d,returned.memory)).2 = returned.memory

variable {traps : Traps isa} {image : StackLayout isa} {s : ThreadMachine isa} {t : Option Slot} {base : Nat} {m : Bytes}

/- The frame is as the entry code has left it. -/
structure Framed (traps : Traps isa) (t : Option Slot) (base : Nat) (m : Bytes) (s : ThreadMachine isa) : Prop where
  kept : ∀ i, base ≤ i → i < base + traps.frameBytes → ¬ traps.Answer (i - base) → s.running.memory i = m i
  occupied : Occupied s.state t

theorem setCurrentFramed (framed : Framed traps t base m s) (state : ThreadState)
    (safe : s.running.current = t → state ≠ .unused ∧ state ≠ .dead) : Framed traps t base m (s.setCurrent state) := by
  unfold ThreadMachine.setCurrent
  split
  · exact framed
  · rename_i p current
    refine ⟨framed.kept,?_⟩
    by_cases own : some p = t
    · exact updateTaken framed.occupied (safe (current.trans own))
    · exact updateOccupied framed.occupied own

/- Whatever runs meanwhile, the frame stays. -/
theorem stepFramed (lawful : isa.Lawful) {action : ThreadAction isa} (low : image.arena.lo t ≤ base)
    (high : base + traps.frameBytes ≤ (image.arena.top t).toNat) (framed : Framed traps t base m s) (enabled : s.Enabled image action)
    (handles : Handles traps t base s action) : Framed traps t base m (s.act image action) := by
  obtain ⟨kept,occupied⟩ := framed
  cases action with
  | work cpu memory =>
    refine ⟨fun i above below other => ?_,occupied⟩
    have same : memory i = s.running.memory i := by
      by_cases own : s.running.current = t
      · exact handles own i above below other
      · exact enabled t i (.inl ⟨Ne.symm own,by omega,by omega⟩)
    exact same.trans (kept i above below other)
  | create fn arg =>
    rcases free : freeThreadSlot s.state with _ | u
    · simp only [ThreadMachine.act,free]
      exact ⟨kept,occupied⟩
    · have other : some u ≠ t := by
        intro same
        obtain ⟨used,alive⟩ := occupied u same.symm
        exact (freeThreadSlotIs free).elim used alive
      simp only [ThreadMachine.act,free]
      exact ⟨fun i above below open' => (Arena.plantApart lawful other fn arg (by omega) (by omega)).trans (kept i above below open'),
        updateOccupied occupied other⟩
  | block => exact setCurrentFramed ⟨kept,occupied⟩ .blocked fun _ => ⟨by decide,by decide⟩
  | wake i =>
    simp only [ThreadMachine.act]
    split
    · exact ⟨kept,updateTaken occupied ⟨by decide,by decide⟩⟩
    · exact ⟨kept,occupied⟩
  | exit => exact setCurrentFramed ⟨kept,occupied⟩ .dead fun own => (handles own).elim
  | switch next ret =>
    obtain ⟨_,_,_,room⟩ := enabled
    have below' : s.running.current = t → (isa.sp s.running.cpu).toNat ≤ base := handles
    refine ⟨fun i above below other => ?_,enterOccupied (leaveOccupied occupied) next⟩
    exact (Arena.switchApart lawful room next ret (by omega) (by omega) fun own => Nat.le_trans (below' own) above).trans (kept i above below other)

theorem runFramed (lawful : isa.Lawful) {inputs : List (ThreadAction isa)} (low : image.arena.lo t ≤ base)
    (high : base + traps.frameBytes ≤ (image.arena.top t).toNat) (framed : Framed traps t base m s)
    (admits : Admits (threadSystem image) (Handles traps t base) s inputs) : Framed traps t base m (run (threadSystem image) s inputs) := by
  induction inputs generalizing s with
  | nil => exact framed
  | cons action inputs ih =>
    have stepped : Framed traps t base m ((threadSystem image).next s action) := stepFramed lawful low high framed admits.1 admits.2.1
    exact ih stepped admits.2.2

theorem returns (lawful : isa.Lawful) (sound : traps.Lawful) (reach : Reach (threadSystem image) (fun _ _ => True) s) : TrapsReturn traps image s := by
  intro cause kernel core core' memory cpu alive code room entered
  have respects := Arena.trapRespects sound room entered
  refine ⟨respects,?_⟩
  intro base handling inputs admits returned back place d same
  obtain ⟨low,high⟩ := room
  have fits : traps.frameBytes + traps.below ≤ (traps.top kernel core).toNat := by omega
  have ends : base = (traps.top kernel core).toNat - traps.frameBytes := rfl
  have occupied : Occupied s.state s.running.current := fun p current => ⟨hasSlot reach p current,alive p current⟩
  have framed : Framed traps s.running.current base memory handling := ⟨fun _ _ _ _ => rfl,occupied⟩
  have kept := (runFramed lawful (by omega) (by omega) framed admits).kept
  refine sound.leaves entered fits (cpu.symm ▸ code) ?_ fun i above below other => kept i above ?_ other
  · rw [same]
    exact place
  · have above' : base ≤ i := above
    omega

end

/- The code of `isr.S` and of `trap.S`, with the entry of the handler and the return of its call. -/
def Arch.traps (entry handler back : Word) : (arch : Arch) → Traps arch.isa
  | .x86_64 => X86.traps handler back
  | .riscv64 => Riscv.traps entry handler back

theorem Arch.trapsLawful (entry handler back : Word) (arch : Arch) : (arch.traps entry handler back).Lawful := by
  cases arch with
  | x86_64 => exact X86.trapsLawful handler back
  | riscv64 => exact Riscv.trapsLawful entry handler back

/- A trap from Ring 3 starts at the top of the kernel stack of the thread, and fits. -/
theorem trapRoomUser {image : StackLayout (Arch.isa .x86_64)} {s : ThreadMachine (Arch.isa .x86_64)} {i : Slot} {handler back : Word} {core : X86.Core}
    (current : s.running.current = some i) (user : core.user) : image.arena.TrapRoom (X86.traps handler back) s.running (image.stackTop i) core := by
  have top : (image.stackTop i).toNat = image.stackBase.toNat + 16384 * (i.val + 1) := image.stackTopIs i
  have aligned := image.aligned
  have whole : image.stackTop i &&& ~~~15 = image.stackTop i := by
    refine BitVec.eq_of_toNat_eq ?_
    rw [X86.roundedDown]
    omega
  have frame : X86.frameTop (image.stackTop i) core = image.stackTop i := by rw [X86.frameTop,if_pos user,whole]
  have bottom : image.arena.lo (some i) = image.stackBase.toNat + 16384 * i.val := rfl
  unfold Arena.TrapRoom
  rw [current]
  change image.arena.lo (some i) + 184 ≤ (X86.frameTop (image.stackTop i) core).toNat ∧ (X86.frameTop (image.stackTop i) core).toNat ≤ (image.stackTop i).toNat
  rw [frame]
  omega

theorem trapsReturn (arch : Arch) (entry handler back : Word) (image : StackLayout arch.isa) {s : ThreadMachine arch.isa}
    (reach : Reach (threadSystem image) (fun _ _ => True) s) : TrapsReturn (arch.traps entry handler back) image s :=
  returns arch.lawful (arch.trapsLawful entry handler back) reach

/- The timer interrupts the idle thread, and nothing else runs meanwhile. -/
theorem trapsReturnIdle :
    let core : X86.Core := ⟨idling.running.cpu,0x2,0x8,0x10⟩
    let entered := X86.enterTrap 0x109000 0x10A000 ⟨32,0,0x108000⟩ 0 (core,idling.running.memory)
    let left := X86.leaveTrap ({ entered.1 with cpu := entered.1.cpu.set .rsp 0x102F50 },entered.2)
    left.1.view.rip = core.cpu.rip ∧ left.1.view.rflags = core.rflags ∧ left.1.view.reg .rbx = core.cpu.reg .rbx := by
  intro core
  have any : ∀ entered, X86.enterTrap 0x109000 0x10A000 ⟨32,0,0x108000⟩ 0 (core,idling.running.memory) = entered →
      (X86.leaveTrap ({ entered.1 with cpu := entered.1.cpu.set .rsp 0x102F50 },entered.2)).1.view = core.view.answered entered.2 0x102F50 := by
    rintro ⟨core',memory⟩ entered
    have all : TrapsReturn (X86.traps 0x109000 0x10A000) tightImage idling :=
      trapsReturn .x86_64 0 0x109000 0x10A000 tightImage (.start ⟨rfl,fun _ => rfl⟩)
    have room : tightImage.arena.TrapRoom (X86.traps 0x109000 0x10A000) idling.running 0 core := ⟨by decide,by decide⟩
    obtain ⟨works,returned⟩ := all ⟨32,0,0x108000⟩ 0 core core' memory rfl (fun _ current => nomatch current) trivial room entered
    have base : (X86.traps 0x109000 0x10A000).base 0 core = 0x102F50 := by decide
    have place : ((core'.cpu.set .rsp 0x102F50).reg .rsp).toNat = (X86.traps 0x109000 0x10A000).base 0 core :=
      (congrArg BitVec.toNat X86.setSame).trans base.symm
    have view : ∀ d : X86.Core, d.cpu = core'.cpu.set .rsp 0x102F50 → (X86.traps 0x109000 0x10A000).view ((X86.traps 0x109000 0x10A000).leave (d,memory)).1 =
        (X86.traps 0x109000 0x10A000).answered ((X86.traps 0x109000 0x10A000).view core) memory ((X86.traps 0x109000 0x10A000).base 0 core) := fun d same =>
      (returned [.work (core'.cpu.set .rsp 0x102F50) memory] ⟨fun _ _ _ => rfl,fun _ _ _ _ _ => rfl,trivial⟩ rfl place d same).1
    rw [base] at view
    generalize core'.cpu.set .rsp 0x102F50 = cpu at view ⊢
    have last := view { core' with cpu := cpu } rfl
    dsimp only [X86.traps] at last
    exact last
  intro entered left
  have view : left.1.view = core.view.answered entered.2 0x102F50 := any entered rfl
  rw [view]
  exact ⟨rfl,rfl,rfl⟩

end Mukern
