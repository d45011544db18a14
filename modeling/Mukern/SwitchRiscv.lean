import Mukern.Library.Coroutines
import Mukern.Abi

/-! `arch/riscv64/trap/switch.S` instruction by instruction, and `arch_init_stack` of
`arch/riscv64/trap/arch.c`. -/
namespace Mukern.Riscv
open Buffers LittleEndian Coroutines

inductive Reg where
  | ra | sp | gp | tp | t0 | t1 | t2 | t3 | t4 | t5 | t6
  | s0 | s1 | s2 | s3 | s4 | s5 | s6 | s7 | s8 | s9 | s10 | s11
  | a0 | a1 | a2 | a3 | a4 | a5 | a6 | a7
  deriving DecidableEq, Repr

/- `sie` is bit 1 of `sstatus`. -/
structure Cpu where
  reg : Reg → Word
  pc : Word
  sie : Bool

def Cpu.set (c : Cpu) (r : Reg) (v : Word) : Cpu := { c with reg := Function.update c.reg r v }

/- A jump through a register clears the lowest bit. -/
def target (v : Word) : Word := v &&& ~~~1

/- `back` is the address of the instruction after the call. -/
inductive Instr where
  | addi (rd rs : Reg) (imm : Int)
  | sd (src base : Reg) (offset : Nat)
  | ld (rd base : Reg) (offset : Nat)
  | mv (rd rs : Reg)
  | ret
  | csrsi                          -- csrsi sstatus, 2
  | jalr (rs : Reg) (back : Word)

def Instr.exec (s : Cpu × Bytes) : Instr → Cpu × Bytes
  | .addi rd rs imm => (s.1.set rd (s.1.reg rs + BitVec.ofInt 64 imm),s.2)
  | .sd src base offset => (s.1,putWord s.2 (s.1.reg base + BitVec.ofNat 64 offset).toNat (s.1.reg src))
  | .ld rd base offset => (s.1.set rd (word s.2 (s.1.reg base + BitVec.ofNat 64 offset).toNat),s.2)
  | .mv rd rs => (s.1.set rd (s.1.reg rs),s.2)
  | .ret => ({ s.1 with pc := target (s.1.reg .ra) },s.2)
  | .csrsi => ({ s.1 with sie := true },s.2)
  | .jalr rs back => ({ s.1.set .ra back with pc := target (s.1.reg rs) },s.2)

def runCode (code : List Instr) (s : Cpu × Bytes) : Cpu × Bytes := code.foldl Instr.exec s

def contextSwitch : List Instr :=
  [.addi .sp .sp (-112),
    .sd .ra .sp 0,.sd .s0 .sp 8,.sd .s1 .sp 16,.sd .s2 .sp 24,.sd .s3 .sp 32,.sd .s4 .sp 40,.sd .s5 .sp 48,
    .sd .s6 .sp 56,.sd .s7 .sp 64,.sd .s8 .sp 72,.sd .s9 .sp 80,.sd .s10 .sp 88,.sd .s11 .sp 96,
    .sd .sp .a0 0,.mv .sp .a1,
    .ld .ra .sp 0,.ld .s0 .sp 8,.ld .s1 .sp 16,.ld .s2 .sp 24,.ld .s3 .sp 32,.ld .s4 .sp 40,.ld .s5 .sp 48,
    .ld .s6 .sp 56,.ld .s7 .sp 64,.ld .s8 .sp 72,.ld .s9 .sp 80,.ld .s10 .sp 88,.ld .s11 .sp 96,
    .addi .sp .sp 112,.ret]

/- Up to the call of the entry function. -/
def threadTrampoline (back : Word) : List Instr := [.csrsi,.mv .a0 .s2,.jalr .s1 back]

/- `context_switch(old, new)`, called so that it returns to `back`. -/
def callContextSwitch (old new back : Word) (s : Cpu × Bytes) : Cpu × Bytes :=
  runCode contextSwitch (((s.1.set .a0 old).set .a1 new).set .ra back,s.2)

def archInitStack (threadTrampoline stackTop fn arg : Word) (m : Bytes) : Bytes × Word :=
  let sp := stackTop - 112
  let m := putWords m sp.toNat (List.replicate 14 0)
  let m := putWord m sp.toNat threadTrampoline
  let m := putWord m (sp.toNat + 8 * 2) fn
  (putWord m (sp.toNat + 8 * 3) arg,sp)

def savedRegs : List Reg := [.s0,.s1,.s2,.s3,.s4,.s5,.s6,.s7,.s8,.s9,.s10,.s11]

def riscv64 : Isa where
  Cpu := Cpu
  pc := Cpu.pc
  sp c := c.reg .sp
  saved c := savedRegs.map c.reg
  Code pc := target pc = pc
  frameBytes := 112
  slots := 13
  frame saved pc := pc :: saved
  fresh fn arg := [0,fn,arg,0,0,0,0,0,0,0,0,0]
  parameter c := c.reg .a0
  switch := callContextSwitch
  plant := archInitStack
  launch back s := runCode (threadTrampoline back) s

/- The instructions that move a run of registers, the first to slot `k`. -/
def stores : (k : Nat) → List Reg → List Instr
  | _,[] => []
  | k,r :: rs => .sd r .sp (8 * k) :: stores (k + 1) rs

def loads : (k : Nat) → List Reg → List Instr
  | _,[] => []
  | k,r :: rs => .ld r .sp (8 * k) :: loads (k + 1) rs

section
variable {c : Cpu} {m : Bytes} {rs : List Reg} {r : Reg} {v : Word} {k : Nat}

@[simp] theorem setSame : (c.set r v).reg r = v := Function.update_self ..

theorem setOther {r' : Reg} (other : r' ≠ r) : (c.set r v).reg r' = c.reg r' := Function.update_of_ne other ..

theorem mapSet (absent : r ∉ rs) : rs.map (c.set r v).reg = rs.map c.reg :=
  List.map_congr_left fun _ member => setOther fun same => absent (same ▸ member)

theorem runAppend (first second : List Instr) (s : Cpu × Bytes) : runCode (first ++ second) s = runCode second (runCode first s) :=
  List.foldl_append

theorem switchParts : contextSwitch = [.addi .sp .sp (-112)] ++ (stores 0 (.ra :: savedRegs) ++
    ([.sd .sp .a0 0,.mv .sp .a1] ++ (loads 0 (.ra :: savedRegs) ++ [.addi .sp .sp 112,.ret]))) := rfl

theorem slotAddress {v : Word} (fits : v.toNat + 8 * k < 2 ^ 64) : (v + BitVec.ofNat 64 (8 * k)).toNat = v.toNat + 8 * k := by
  have small : (BitVec.ofNat 64 (8 * k)).toNat = 8 * k := by rw [BitVec.toNat_ofNat,Nat.mod_eq_of_lt (by omega)]
  rw [BitVec.toNat_add_of_lt (by omega),small]

theorem storesCpu (k : Nat) (rs : List Reg) (s : Cpu × Bytes) : (runCode (stores k rs) s).1 = s.1 := by
  induction rs generalizing k s with
  | nil => rfl
  | cons r rs ih => exact ih _ _

/- The registers stand in memory in order, and nothing else changes. -/
theorem storesMemory (rs : List Reg) (k : Nat) (s : Cpu × Bytes) (fits : (s.1.reg .sp).toNat + 8 * (k + rs.length) < 2 ^ 64) :
    words (runCode (stores k rs) s).2 ((s.1.reg .sp).toNat + 8 * k) rs.length = rs.map s.1.reg ∧
      ∀ i, i < (s.1.reg .sp).toNat + 8 * k ∨ (s.1.reg .sp).toNat + 8 * (k + rs.length) ≤ i → (runCode (stores k rs) s).2 i = s.2 i := by
  induction rs generalizing k s with
  | nil => exact ⟨rfl,fun _ _ => rfl⟩
  | cons r rs ih =>
    rw [List.length_cons] at fits ⊢
    let s' : Cpu × Bytes := (s.1,putWord s.2 ((s.1.reg .sp).toNat + 8 * k) (s.1.reg r))
    have stepped : runCode (stores k (r :: rs)) s = runCode (stores (k + 1) rs) s' := by
      have first : runCode (stores k (r :: rs)) s =
          runCode (stores (k + 1) rs) (s.1,putWord s.2 (s.1.reg .sp + BitVec.ofNat 64 (8 * k)).toNat (s.1.reg r)) := rfl
      rw [first,slotAddress (by omega)]
    have same : s'.1.reg .sp = s.1.reg .sp := rfl
    obtain ⟨stored,outside⟩ := ih (k + 1) s' (by rw [same]; omega)
    rw [same] at stored outside
    rw [stepped]
    have own : word (runCode (stores (k + 1) rs) s').2 ((s.1.reg .sp).toNat + 8 * k) = s.1.reg r :=
      (wordCongr fun i _ high => outside i (.inl (by omega))).trans wordPut
    refine ⟨?_,fun i apart => ?_⟩
    · rw [words,own,Nat.add_assoc]
      exact congrArg (s.1.reg r :: ·) stored
    · rw [outside i (by omega)]
      exact putWordOther (by omega)

/- The registers are filled from memory and the others stay. -/
theorem loadsRun (rs : List Reg) (k : Nat) (nodup : rs.Nodup) (absent : .sp ∉ rs) (fits : (c.reg .sp).toNat + 8 * (k + rs.length) < 2 ^ 64) :
    ∃ c', runCode (loads k rs) (c,m) = (c',m) ∧ rs.map c'.reg = words m ((c.reg .sp).toNat + 8 * k) rs.length ∧
      ∀ r, r ∉ rs → c'.reg r = c.reg r := by
  induction rs generalizing c k with
  | nil => exact ⟨c,rfl,rfl,fun _ _ => rfl⟩
  | cons r rs ih =>
    rw [List.length_cons] at fits ⊢
    obtain ⟨fresh,nodup⟩ := List.nodup_cons.mp nodup
    obtain ⟨first,rest⟩ := not_or.mp (mt List.mem_cons.mpr absent)
    let c₁ := c.set r (word m ((c.reg .sp).toNat + 8 * k))
    have stepped : runCode (loads k (r :: rs)) (c,m) = runCode (loads (k + 1) rs) (c₁,m) := by
      have one : runCode (loads k (r :: rs)) (c,m) =
          runCode (loads (k + 1) rs) (c.set r (word m (c.reg .sp + BitVec.ofNat 64 (8 * k)).toNat),m) := rfl
      rw [one,slotAddress (by omega)]
    have sp : c₁.reg .sp = c.reg .sp := setOther first
    obtain ⟨c',ran,loaded,others⟩ := ih (c := c₁) (k + 1) nodup rest (by rw [sp]; omega)
    rw [sp] at loaded
    refine ⟨c',stepped.trans ran,?_,fun r' absent' => ?_⟩
    · rw [List.map_cons,others r fresh,loaded,words,Nat.add_assoc]
      exact congrArg (· :: _) setSame
    · obtain ⟨other,absent'⟩ := not_or.mp (mt List.mem_cons.mpr absent')
      rw [others r' absent',setOther other]

/- The call, the new stack pointer and the stores. -/
def saveHalf (old new back : Word) (s : Cpu × Bytes) : Cpu × Bytes :=
  runCode (stores 0 (.ra :: savedRegs)) (runCode [.addi .sp .sp (-112)] (((s.1.set .a0 old).set .a1 new).set .ra back,s.2))

/- The processor during the stores. -/
theorem saveHalfCpu (old new back : Word) (s : Cpu × Bytes) : (saveHalf old new back s).1 =
    (((s.1.set .a0 old).set .a1 new).set .ra back).set .sp (s.1.reg .sp - 112) := by
  have sp : (((s.1.set .a0 old).set .a1 new).set .ra back).reg .sp = s.1.reg .sp :=
    (setOther (by decide)).trans ((setOther (by decide)).trans (setOther (by decide)))
  have minus : BitVec.ofInt 64 (-112) = -(112 : Word) := by decide
  have down : s.1.reg .sp + BitVec.ofInt 64 (-112) = s.1.reg .sp - 112 := by rw [minus,BitVec.sub_eq_add_neg]
  have moved : (runCode [.addi .sp .sp (-112)] (((s.1.set .a0 old).set .a1 new).set .ra back,s.2)).1 =
      (((s.1.set .a0 old).set .a1 new).set .ra back).set .sp ((((s.1.set .a0 old).set .a1 new).set .ra back).reg .sp + BitVec.ofInt 64 (-112)) := rfl
  rw [saveHalf,storesCpu,moved,sp,down]

/- What the stores leave is a frame. -/
theorem saveHalfMemory (old new back : Word) {s : Cpu × Bytes} (room : 112 ≤ (s.1.reg .sp).toNat) :
    words (saveHalf old new back s).2 ((s.1.reg .sp).toNat - 112) 13 = back :: savedRegs.map s.1.reg ∧
      ∀ i, i < (s.1.reg .sp).toNat - 112 ∨ (s.1.reg .sp).toNat ≤ i → (saveHalf old new back s).2 i = s.2 i := by
  let s' := runCode [.addi .sp .sp (-112)] (((s.1.set .a0 old).set .a1 new).set .ra back,s.2)
  have cpu : s'.1 = (((s.1.set .a0 old).set .a1 new).set .ra back).set .sp (s.1.reg .sp - 112) :=
    (storesCpu 0 (.ra :: savedRegs) s').symm.trans (saveHalfCpu old new back s)
  have sp : (s'.1.reg .sp).toNat = (s.1.reg .sp).toNat - 112 := by
    rw [cpu,setSame]
    exact subNat (n := 112) room
  have length : (Reg.ra :: savedRegs).length = 13 := rfl
  have fits := (s.1.reg .sp).isLt
  obtain ⟨stored,outside⟩ := storesMemory (.ra :: savedRegs) 0 s' (by rw [sp,length]; omega)
  rw [sp,length] at stored outside
  have ra : s'.1.reg .ra = back := by rw [cpu,setOther (by decide),setSame]
  have saved : savedRegs.map s'.1.reg = savedRegs.map s.1.reg := by
    rw [cpu,mapSet (by decide),mapSet (by decide),mapSet (by decide),mapSet (by decide)]
  rw [List.map_cons,ra,saved] at stored
  exact ⟨stored,fun i apart => outside i (by omega)⟩

theorem middleIs (s : Cpu × Bytes) : runCode [.sd .sp .a0 0,.mv .sp .a1] s =
    (s.1.set .sp (s.1.reg .a1),putWord s.2 (s.1.reg .a0 + BitVec.ofNat 64 0).toNat (s.1.reg .sp)) := rfl

theorem switchIs (old new back : Word) (s : Cpu × Bytes) : callContextSwitch old new back s =
    runCode (loads 0 (.ra :: savedRegs) ++ [.addi .sp .sp 112,.ret])
      ((saveHalf old new back s).1.set .sp new,putWord (saveHalf old new back s).2 old.toNat (s.1.reg .sp - 112)) := by
  have halves : callContextSwitch old new back s = runCode (loads 0 (.ra :: savedRegs) ++ [.addi .sp .sp 112,.ret])
      ((saveHalf old new back s).1.set .sp ((saveHalf old new back s).1.reg .a1),
        putWord (saveHalf old new back s).2 ((saveHalf old new back s).1.reg .a0 + BitVec.ofNat 64 0).toNat ((saveHalf old new back s).1.reg .sp)) := by
    rw [callContextSwitch,switchParts,runAppend,runAppend,runAppend,middleIs,saveHalf]
  have a0 : (saveHalf old new back s).1.reg .a0 = old := by
    rw [saveHalfCpu,setOther (by decide),setOther (by decide),setOther (by decide),setSame]
  have a1 : (saveHalf old new back s).1.reg .a1 = new := by
    rw [saveHalfCpu,setOther (by decide),setOther (by decide),setSame]
  have sp : (saveHalf old new back s).1.reg .sp = s.1.reg .sp - 112 := by rw [saveHalfCpu,setSame]
  rw [halves,a0,a1,sp,BitVec.add_zero]

theorem loadsMemory (k : Nat) (rs : List Reg) (s : Cpu × Bytes) : (runCode (loads k rs) s).2 = s.2 := by
  induction rs generalizing k s with
  | nil => rfl
  | cons r rs ih => exact ih _ _

theorem returnIs (s : Cpu × Bytes) : runCode [.addi .sp .sp 112,.ret] s =
    ({ s.1.set .sp (s.1.reg .sp + 112) with pc := target ((s.1.set .sp (s.1.reg .sp + 112)).reg .ra) },s.2) := rfl

theorem switchMemory (old new back : Word) (s : Cpu × Bytes) : (callContextSwitch old new back s).2 =
    putWord (saveHalf old new back s).2 old.toNat (s.1.reg .sp - 112) := by
  simp only [switchIs,runAppend,returnIs,loadsMemory]

theorem switchSaves (old new back : Word) {s : Cpu × Bytes} (room : 112 ≤ (s.1.reg .sp).toNat)
    (apart : old.toNat + 8 ≤ (s.1.reg .sp).toNat - 112 ∨ (s.1.reg .sp).toNat ≤ old.toNat) :
    words (callContextSwitch old new back s).2 ((s.1.reg .sp).toNat - 112) 13 = back :: savedRegs.map s.1.reg ∧
      word (callContextSwitch old new back s).2 old.toNat = s.1.reg .sp - 112 ∧
      ∀ i, i < (s.1.reg .sp).toNat - 112 ∨ (s.1.reg .sp).toNat ≤ i → i < old.toNat ∨ old.toNat + 8 ≤ i →
        (callContextSwitch old new back s).2 i = s.2 i := by
  obtain ⟨frame,outside⟩ := saveHalfMemory old new back room
  rw [switchMemory]
  refine ⟨?_,wordPut,fun i below other => ?_⟩
  · rw [wordsApart (by omega)]
    exact frame
  · rw [putWordOther other,outside i below]

theorem switchRestores (old new back : Word) {s : Cpu × Bytes} {saved : List Word} {pc : Word} (fits : new.toNat + 112 < 2 ^ 64)
    (held : words (callContextSwitch old new back s).2 new.toNat 13 = pc :: saved) :
    (callContextSwitch old new back s).1.pc = target pc ∧ (callContextSwitch old new back s).1.reg .sp = new + 112 ∧
      savedRegs.map (callContextSwitch old new back s).1.reg = saved := by
  rw [switchMemory] at held
  rw [switchIs]
  generalize putWord (saveHalf old new back s).2 old.toNat (s.1.reg .sp - 112) = m at held ⊢
  have sp : ((saveHalf old new back s).1.set .sp new).reg .sp = new := setSame
  have length : (Reg.ra :: savedRegs).length = 13 := rfl
  obtain ⟨c',ran,loaded,others⟩ := loadsRun (c := (saveHalf old new back s).1.set .sp new) (m := m) (.ra :: savedRegs) 0 (by decide) (by decide)
    (by rw [sp,length]; omega)
  rw [sp,length] at loaded
  obtain ⟨ra,first⟩ := List.cons.inj (loaded.trans held)
  have sp' : c'.reg .sp = new := (others .sp (by decide)).trans sp
  rw [runAppend,ran,returnIs]
  refine ⟨?_,?_,?_⟩
  · have jumps : target ((c'.set .sp (c'.reg .sp + 112)).reg .ra) = target pc := congrArg target ((setOther (by decide)).trans ra)
    exact jumps
  · have top : (c'.set .sp (c'.reg .sp + 112)).reg .sp = new + 112 := by rw [setSame,sp']
    exact top
  · have kept : savedRegs.map (c'.set .sp (c'.reg .sp + 112)).reg = saved := by
      rw [mapSet (by decide),first]
    exact kept

theorem initPlants {entry top fn arg : Word} {m : Bytes} (room : 112 ≤ top.toNat) :
    words (archInitStack entry top fn arg m).1 (top.toNat - 112) 13 = [entry,0,fn,arg,0,0,0,0,0,0,0,0,0] ∧
      ∀ i, i < top.toNat - 112 ∨ top.toNat ≤ i → (archInitStack entry top fn arg m).1 i = m i := by
  have down : (top - 112).toNat = top.toNat - 112 := subNat (n := 112) room
  have zeros : words (putWords m (top.toNat - 112) (List.replicate 14 0)) (top.toNat - 112) 13 = List.replicate 13 0 := by
    have all : words (putWords m (top.toNat - 112) (List.replicate 14 0)) (top.toNat - 112) (List.replicate 14 0).length = List.replicate 14 0 :=
      wordsPut
    rw [List.length_replicate,wordsAppend (k := 13) (n := 1)] at all
    rw [List.replicate_succ'] at all
    exact (List.append_inj' all wordsLength).1
  have planted : (archInitStack entry top fn arg m).1 = putWord (putWord (putWord (putWords m (top.toNat - 112) (List.replicate 14 0))
      (top.toNat - 112 + 8 * 0) entry) (top.toNat - 112 + 8 * 2) fn) (top.toNat - 112 + 8 * 3) arg := by
    simp only [archInitStack,down,Nat.mul_zero,Nat.add_zero]
  rw [planted]
  constructor
  · rw [wordsSet (by decide),wordsSet (by decide),wordsSet (by decide),zeros]
    rfl
  · intro i outside
    have fourteen : (List.replicate 14 (0 : Word)).length = 14 := rfl
    rw [putWordOther (by omega),putWordOther (by omega),putWordOther (by omega),putWordsOther (by omega)]

/- The trampoline calls the function in `s1` with the contents of `s2`. -/
theorem trampolineCalls (back : Word) {fn arg : Word} {s : Cpu × Bytes} (fresh : savedRegs.map s.1.reg = [0,fn,arg,0,0,0,0,0,0,0,0,0]) :
    (runCode (threadTrampoline back) s).1.pc = target fn ∧ (runCode (threadTrampoline back) s).1.reg .a0 = arg := by
  obtain ⟨_,s1,s2,_⟩ : s.1.reg .s0 = 0 ∧ s.1.reg .s1 = fn ∧ s.1.reg .s2 = arg ∧ _ := by
    simpa [savedRegs] using fresh
  let c := { s.1 with sie := true }.set .a0 (s.1.reg .s2)
  have ran : runCode (threadTrampoline back) s = ({ c.set .ra back with pc := target (c.reg .s1) },s.2) := rfl
  have entry : c.reg .s1 = fn := (setOther (by decide)).trans s1
  have a0 : (c.set .ra back).reg .a0 = arg := ((setOther (by decide)).trans setSame).trans s2
  rw [ran]
  exact ⟨congrArg target entry,a0⟩

theorem switchCode : riscv64.switch = callContextSwitch := rfl

theorem switchRan {c c' : Cpu} {m m' : Bytes} {old new ret : Word} (switched : riscv64.switch old new ret (c,m) = (c',m')) :
    callContextSwitch old new ret (c,m) = (c',m') := by
  rw [switchCode] at switched
  exact switched

theorem lawful : riscv64.Lawful where
  slotsInside := by decide
  saves := by
    intro c m old new ret c' m' switched room apart
    have ran := switchRan switched
    have saved := switchSaves old new ret (s := (c,m)) room apart
    rw [ran] at saved
    exact saved
  restores := by
    intro c m old new ret c' m' saved pc switched fits held code
    have ran := switchRan switched
    have even : target pc = pc := code
    have held' : words (callContextSwitch old new ret (c,m)).2 new.toNat 13 = pc :: saved := by
      rw [ran]
      exact held
    have resumed := switchRestores old new ret fits held'
    rw [ran,even] at resumed
    exact resumed
  plants := by
    rintro entry top fn arg m m' sp planted room
    obtain rfl : _ = m' := congrArg Prod.fst planted
    obtain rfl : _ = sp := congrArg Prod.snd planted
    exact ⟨rfl,initPlants room⟩
  launches := by
    rintro c m back fn arg c' m' launched fresh code
    obtain rfl : _ = c' := congrArg Prod.fst launched
    obtain ⟨jumps,a0⟩ := trampolineCalls back (s := (c,m)) fresh
    exact ⟨jumps.trans code,a0⟩

end
end Mukern.Riscv
