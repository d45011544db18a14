import Mukern.Library.Coroutines
import Mukern.Abi

/-! `arch/x86_64/trap/switch.S` instruction by instruction, and `arch_init_stack` of
`arch/x86_64/trap/archstack.c`. -/
namespace Mukern.X86
open Buffers LittleEndian Coroutines

inductive Reg where
  | rax | rbx | rcx | rdx | rsi | rdi | rbp | rsp | r8 | r9 | r10 | r11 | r12 | r13 | r14 | r15
  deriving DecidableEq, Repr

/- `interrupts` is the flag that `sti` sets. -/
structure Cpu where
  reg : Reg → Word
  rip : Word
  interrupts : Bool

def Cpu.set (c : Cpu) (r : Reg) (v : Word) : Cpu := { c with reg := Function.update c.reg r v }

/- `back` is the address of the instruction after the call. -/
inductive Instr where
  | pushq (r : Reg)
  | popq (r : Reg)
  | store (src base : Reg)       -- movq %src, (%base)
  | movq (src dst : Reg)
  | ret
  | sti
  | call (r : Reg) (back : Word) -- call *%r

def push (v : Word) (s : Cpu × Bytes) : Cpu × Bytes :=
  let sp := s.1.reg .rsp - 8
  (s.1.set .rsp sp,putWord s.2 sp.toNat v)

def Instr.exec (s : Cpu × Bytes) : Instr → Cpu × Bytes
  | .pushq r => push (s.1.reg r) s
  | .popq r => ((s.1.set .rsp (s.1.reg .rsp + 8)).set r (word s.2 (s.1.reg .rsp).toNat),s.2)
  | .store src base => (s.1,putWord s.2 (s.1.reg base).toNat (s.1.reg src))
  | .movq src dst => (s.1.set dst (s.1.reg src),s.2)
  | .ret => ({ s.1.set .rsp (s.1.reg .rsp + 8) with rip := word s.2 (s.1.reg .rsp).toNat },s.2)
  | .sti => ({ s.1 with interrupts := true },s.2)
  | .call r back =>
    let target := s.1.reg r
    let s := push back s
    ({ s.1 with rip := target },s.2)

def runCode (code : List Instr) (s : Cpu × Bytes) : Cpu × Bytes := code.foldl Instr.exec s

def contextSwitch : List Instr :=
  [.pushq .rbp,.pushq .rbx,.pushq .r12,.pushq .r13,.pushq .r14,.pushq .r15,
    .store .rsp .rdi,.movq .rsi .rsp,
    .popq .r15,.popq .r14,.popq .r13,.popq .r12,.popq .rbx,.popq .rbp,.ret]

/- Up to the call of the entry function. -/
def threadTrampoline (back : Word) : List Instr := [.sti,.movq .r13 .rdi,.call .r12 back]

/- `context_switch(old, new)`, called so that it returns to `back`. -/
def callContextSwitch (old new back : Word) (s : Cpu × Bytes) : Cpu × Bytes :=
  runCode contextSwitch (push back ((s.1.set .rdi old).set .rsi new,s.2))

/- `sp[0]` to `sp[6]`, and `sp`. -/
def archInitStack (threadTrampoline stackTop fn arg : Word) (m : Bytes) : Bytes × Word :=
  let sp := stackTop - 56
  (putWords m sp.toNat [0,0,arg,fn,0,0,threadTrampoline],sp)

/- The registers in the order of the frame. -/
def frameRegs : List Reg := [.r15,.r14,.r13,.r12,.rbx,.rbp]

def x86_64 : Isa where
  Cpu := Cpu
  pc := Cpu.rip
  sp c := c.reg .rsp
  saved c := frameRegs.map c.reg
  Code _ := True
  frameBytes := 56
  slots := 7
  frame saved pc := saved ++ [pc]
  fresh fn arg := [0,0,arg,fn,0,0]
  parameter c := c.reg .rdi
  switch := callContextSwitch
  plant := archInitStack
  launch back s := runCode (threadTrampoline back) s

section
variable {c : Cpu} {m : Bytes} {rs : List Reg} {r : Reg} {v : Word}

@[simp] theorem setSame : (c.set r v).reg r = v := Function.update_self ..

theorem setOther {r' : Reg} (other : r' ≠ r) : (c.set r v).reg r' = c.reg r' := Function.update_of_ne other ..

theorem setTwice {w : Word} : (c.set r v).set r w = c.set r w := by
  unfold Cpu.set
  rw [Function.update_idem]

theorem mapSet (absent : r ∉ rs) : rs.map (c.set r v).reg = rs.map c.reg :=
  List.map_congr_left fun _ member => setOther fun same => absent (same ▸ member)

theorem runAppend (first second : List Instr) (s : Cpu × Bytes) : runCode (first ++ second) s = runCode second (runCode first s) :=
  List.foldl_append

/- A run of pushes moves the stack pointer and nothing else. -/
theorem pushesCpu (absent : .rsp ∉ rs) : (runCode (rs.map .pushq) (c,m)).1 = c.set .rsp (c.reg .rsp - BitVec.ofNat 64 (8 * rs.length)) := by
  induction rs generalizing c m with
  | nil =>
    have still : c.reg .rsp - BitVec.ofNat 64 0 = c.reg .rsp := BitVec.sub_zero _
    exact (congrArg (fun reg => ({ c with reg := reg } : Cpu)) (Function.update_eq_self_iff.mpr still)).symm
  | cons r rs ih =>
    obtain ⟨first,rest⟩ := not_or.mp (mt List.mem_cons.mpr absent)
    have stepped : runCode ((r :: rs).map .pushq) (c,m) = runCode (rs.map .pushq) (push (c.reg r) (c,m)) := rfl
    have moved : c.reg .rsp - 8 - BitVec.ofNat 64 (8 * rs.length) = c.reg .rsp - BitVec.ofNat 64 (8 * (rs.length + 1)) := by
      rw [Nat.mul_succ,BitVec.ofNat_add,BitVec.sub_sub,BitVec.add_comm]
      rfl
    rw [stepped,push,ih rest,setTwice,setSame,moved,List.length_cons]

/- The pushed registers stand in memory, the last one lowest. -/
theorem pushesMemory (rs : List Reg) (absent : .rsp ∉ rs) (room : 8 * rs.length ≤ (c.reg .rsp).toNat) {m' : Bytes} (ran : (runCode (rs.map .pushq) (c,m)).2 = m') :
    words m' ((c.reg .rsp).toNat - 8 * rs.length) rs.length = rs.reverse.map c.reg ∧
      ∀ i, i < (c.reg .rsp).toNat - 8 * rs.length ∨ (c.reg .rsp).toNat ≤ i → m' i = m i := by
  induction rs generalizing c m with
  | nil => exact ⟨rfl,fun i _ => (congrFun ran i).symm⟩
  | cons r rs ih =>
    rw [List.length_cons] at room ⊢
    obtain ⟨first,rest⟩ := not_or.mp (mt List.mem_cons.mpr absent)
    have down : (c.reg .rsp - 8).toNat = (c.reg .rsp).toNat - 8 := subNat (n := 8) (by omega)
    have moved : ((c.set .rsp (c.reg .rsp - 8)).reg .rsp).toNat = (c.reg .rsp).toNat - 8 := by rw [setSame,down]
    obtain ⟨pushed,outside⟩ := ih (c := c.set .rsp (c.reg .rsp - 8)) rest (by rw [moved]; omega) ran
    rw [moved,mapSet (fun member => rest (List.mem_reverse.mp member))] at pushed
    rw [moved,down] at outside
    have bottom : (c.reg .rsp).toNat - 8 * (rs.length + 1) = (c.reg .rsp).toNat - 8 - 8 * rs.length := by omega
    have place : (c.reg .rsp).toNat - 8 - 8 * rs.length + 8 * rs.length = (c.reg .rsp).toNat - 8 := by omega
    have own : word m' ((c.reg .rsp).toNat - 8) = c.reg r :=
      (wordCongr fun i low high => outside i (.inr low)).trans wordPut
    refine ⟨?_,fun i apart => ?_⟩
    · rw [bottom,wordsAppend,pushed,place,words,own,List.reverse_cons,List.map_append]
      rfl
    · rw [outside i (by omega),putWordOther (by omega)]

/- A run of pops fills the registers from memory and leaves the others. -/
theorem popsRun (rs : List Reg) (nodup : rs.Nodup) (absent : .rsp ∉ rs) (fits : (c.reg .rsp).toNat + 8 * rs.length < 2 ^ 64) :
    ∃ c', runCode (rs.map .popq) (c,m) = (c',m) ∧ rs.map c'.reg = words m (c.reg .rsp).toNat rs.length ∧
      c'.reg .rsp = c.reg .rsp + BitVec.ofNat 64 (8 * rs.length) ∧ ∀ r, r ≠ .rsp → r ∉ rs → c'.reg r = c.reg r := by
  induction rs generalizing c with
  | nil => exact ⟨c,rfl,rfl,(BitVec.add_zero _).symm,fun _ _ _ => rfl⟩
  | cons r rs ih =>
    rw [List.length_cons] at fits ⊢
    obtain ⟨fresh,nodup⟩ := List.nodup_cons.mp nodup
    obtain ⟨first,rest⟩ := not_or.mp (mt List.mem_cons.mpr absent)
    let c₁ := (c.set .rsp (c.reg .rsp + 8)).set r (word m (c.reg .rsp).toNat)
    have sp : c₁.reg .rsp = c.reg .rsp + 8 := (setOther first).trans setSame
    have up : (c.reg .rsp + 8).toNat = (c.reg .rsp).toNat + 8 := BitVec.toNat_add_of_lt (by
      have eight : (8 : Word).toNat = 8 := rfl
      omega)
    obtain ⟨c',ran,popped,sp',others⟩ := ih (c := c₁) nodup rest (by rw [sp,up]; omega)
    rw [sp,up] at popped
    have own : c'.reg r = word m (c.reg .rsp).toNat := (others r (Ne.symm first) fresh).trans setSame
    refine ⟨c',ran,?_,?_,fun r' notSp absent' => ?_⟩
    · rw [List.map_cons,own,popped,words]
    · rw [sp',sp,Nat.mul_succ,BitVec.ofNat_add,BitVec.add_assoc,BitVec.add_comm 8]
      rfl
    · obtain ⟨other,absent'⟩ := not_or.mp (mt List.mem_cons.mpr absent')
      rw [others r' notSp absent',setOther other,setOther notSp]

theorem retIs (s : Cpu × Bytes) :
    runCode [.ret] s = ({ s.1.set .rsp (s.1.reg .rsp + 8) with rip := word s.2 (s.1.reg .rsp).toNat },s.2) := rfl

theorem popsMemory (rs : List Reg) (s : Cpu × Bytes) : (runCode (rs.map .popq) s).2 = s.2 := by
  induction rs generalizing s with
  | nil => rfl
  | cons r rs ih => exact ih _

/- The registers that `context_switch` pushes. -/
def pushRegs : List Reg := [.rbp,.rbx,.r12,.r13,.r14,.r15]

theorem switchParts : contextSwitch = pushRegs.map .pushq ++ ([.store .rsp .rdi,.movq .rsi .rsp] ++ (frameRegs.map .popq ++ [.ret])) := rfl

/- The call and the pushes. -/
def saveHalf (old new back : Word) (s : Cpu × Bytes) : Cpu × Bytes :=
  runCode (pushRegs.map .pushq) (push back ((s.1.set .rdi old).set .rsi new,s.2))

theorem saveHalfCpu (old new back : Word) (s : Cpu × Bytes) : (saveHalf old new back s).1.reg .rdi = old ∧
    (saveHalf old new back s).1.reg .rsi = new ∧ (saveHalf old new back s).1.reg .rsp = s.1.reg .rsp - 56 := by
  have sp : ((s.1.set .rdi old).set .rsi new).reg .rsp = s.1.reg .rsp := (setOther (by decide)).trans (setOther (by decide))
  rw [saveHalf,push,pushesCpu (by decide)]
  refine ⟨?_,?_,?_⟩
  · rw [setOther (by decide),setOther (by decide),setOther (by decide),setSame]
  · rw [setOther (by decide),setOther (by decide),setSame]
  · rw [setSame,setSame,sp,BitVec.sub_sub]
    rfl

/- What the call and the pushes leave is a frame, without the stack pointer. -/
theorem saveHalfMemory (old new back : Word) {s : Cpu × Bytes} (room : 56 ≤ (s.1.reg .rsp).toNat) :
    words (saveHalf old new back s).2 ((s.1.reg .rsp).toNat - 56) 7 = frameRegs.map s.1.reg ++ [back] ∧
      ∀ i, i < (s.1.reg .rsp).toNat - 56 ∨ (s.1.reg .rsp).toNat ≤ i → (saveHalf old new back s).2 i = s.2 i := by
  let c := (s.1.set .rdi old).set .rsi new
  have sp : c.reg .rsp = s.1.reg .rsp := (setOther (by decide)).trans (setOther (by decide))
  have called : ((push back (c,s.2)).1.reg .rsp).toNat = (s.1.reg .rsp).toNat - 8 := by
    rw [push,setSame,sp]
    exact subNat (n := 8) (by omega)
  have six : pushRegs.length = 6 := rfl
  obtain ⟨pushed,outside⟩ := pushesMemory (c := (push back (c,s.2)).1) (m := (push back (c,s.2)).2) pushRegs (by decide)
    (by rw [called,six]; omega) rfl
  rw [called,six] at pushed outside
  have saved : pushRegs.reverse.map (push back (c,s.2)).1.reg = frameRegs.map s.1.reg := by
    rw [push,mapSet (by decide),mapSet (by decide),mapSet (by decide)]
    rfl
  have stored : (push back (c,s.2)).2 = putWord s.2 ((s.1.reg .rsp).toNat - 8) back := by
    have moved : (c.reg .rsp - 8).toNat = (s.1.reg .rsp).toNat - 8 := called
    exact congrArg (putWord s.2 · back) moved
  have bottom : (s.1.reg .rsp).toNat - 56 = (s.1.reg .rsp).toNat - 8 - 8 * 6 := by omega
  have place : (s.1.reg .rsp).toNat - 8 - 8 * 6 + 8 * 6 = (s.1.reg .rsp).toNat - 8 := by omega
  have top : word (saveHalf old new back s).2 ((s.1.reg .rsp).toNat - 8) = back := by
    refine (wordCongr fun i low _ => outside i (.inr low)).trans ?_
    rw [stored,wordPut]
  refine ⟨?_,fun i apart => ?_⟩
  · rw [bottom,wordsAppend (k := 6) (n := 1),place]
    exact congrArg₂ (· ++ ·) (pushed.trans saved) (congrArg (fun w => [w]) top)
  · refine (outside i (by omega)).trans ?_
    rw [stored,putWordOther (by omega)]

theorem switchIs (old new back : Word) (s : Cpu × Bytes) : callContextSwitch old new back s =
    runCode (frameRegs.map .popq ++ [.ret])
      ((saveHalf old new back s).1.set .rsp new,putWord (saveHalf old new back s).2 old.toNat (s.1.reg .rsp - 56)) := by
  obtain ⟨rdi,rsi,rsp⟩ := saveHalfCpu old new back s
  have halves : callContextSwitch old new back s = runCode (frameRegs.map .popq ++ [.ret])
      ((saveHalf old new back s).1.set .rsp ((saveHalf old new back s).1.reg .rsi),
        putWord (saveHalf old new back s).2 ((saveHalf old new back s).1.reg .rdi).toNat ((saveHalf old new back s).1.reg .rsp)) := by
    rw [callContextSwitch,switchParts,runAppend,runAppend]
    rfl
  rw [halves,rdi,rsi,rsp]

theorem switchMemory (old new back : Word) (s : Cpu × Bytes) : (callContextSwitch old new back s).2 =
    putWord (saveHalf old new back s).2 old.toNat (s.1.reg .rsp - 56) := by
  simp only [switchIs,runAppend,retIs,popsMemory]

theorem switchSaves (old new back : Word) {s : Cpu × Bytes} (room : 56 ≤ (s.1.reg .rsp).toNat)
    (apart : old.toNat + 8 ≤ (s.1.reg .rsp).toNat - 56 ∨ (s.1.reg .rsp).toNat ≤ old.toNat) :
    words (callContextSwitch old new back s).2 ((s.1.reg .rsp).toNat - 56) 7 = frameRegs.map s.1.reg ++ [back] ∧
      word (callContextSwitch old new back s).2 old.toNat = s.1.reg .rsp - 56 ∧
      ∀ i, i < (s.1.reg .rsp).toNat - 56 ∨ (s.1.reg .rsp).toNat ≤ i → i < old.toNat ∨ old.toNat + 8 ≤ i →
        (callContextSwitch old new back s).2 i = s.2 i := by
  obtain ⟨frame,outside⟩ := saveHalfMemory old new back room
  rw [switchMemory]
  refine ⟨?_,wordPut,fun i below other => ?_⟩
  · rw [wordsApart (by omega)]
    exact frame
  · rw [putWordOther other,outside i below]

theorem switchRestores (old new back : Word) {s : Cpu × Bytes} {saved : List Word} {pc : Word} (fits : new.toNat + 56 < 2 ^ 64)
    (held : words (callContextSwitch old new back s).2 new.toNat 7 = saved ++ [pc]) :
    (callContextSwitch old new back s).1.rip = pc ∧ (callContextSwitch old new back s).1.reg .rsp = new + 56 ∧
      frameRegs.map (callContextSwitch old new back s).1.reg = saved := by
  rw [switchMemory] at held
  rw [switchIs]
  generalize putWord (saveHalf old new back s).2 old.toNat (s.1.reg .rsp - 56) = m at held ⊢
  have sp : ((saveHalf old new back s).1.set .rsp new).reg .rsp = new := setSame
  have six : frameRegs.length = 6 := rfl
  obtain ⟨c',ran,popped,rsp,_⟩ := popsRun (c := (saveHalf old new back s).1.set .rsp new) (m := m) frameRegs (by decide) (by decide)
    (by rw [sp,six]; omega)
  rw [sp,six] at popped rsp
  have up : (new + BitVec.ofNat 64 (8 * 6)).toNat = new.toNat + 48 := BitVec.toNat_add_of_lt (by
    have small : (BitVec.ofNat 64 (8 * 6)).toNat = 48 := rfl
    omega)
  rw [wordsAppend (k := 6) (n := 1)] at held
  obtain ⟨first,last⟩ := List.append_inj' held wordsLength
  rw [runAppend,ran,retIs]
  refine ⟨?_,?_,?_⟩
  · have read : word m (c'.reg .rsp).toNat = pc := by
      rw [rsp,up]
      exact (List.cons.inj last).1
    exact read
  · have top : (c'.set .rsp (c'.reg .rsp + 8)).reg .rsp = new + 56 := by
      rw [setSame,rsp,BitVec.add_assoc]
      rfl
    exact top
  · have kept : frameRegs.map (c'.set .rsp (c'.reg .rsp + 8)).reg = saved := by
      rw [mapSet (by decide),popped,first]
    exact kept

theorem initPlants {entry top fn arg : Word} {m : Bytes} (room : 56 ≤ top.toNat) :
    words (archInitStack entry top fn arg m).1 (top.toNat - 56) 7 = [0,0,arg,fn,0,0] ++ [entry] ∧
      ∀ i, i < top.toNat - 56 ∨ top.toNat ≤ i → (archInitStack entry top fn arg m).1 i = m i := by
  have down : (top - 56).toNat = top.toNat - 56 := subNat (n := 56) room
  rw [archInitStack,down]
  refine ⟨wordsPut,fun i outside => putWordsOther ?_⟩
  have seven : [0,0,arg,fn,0,0,entry].length = 7 := rfl
  omega

/- The trampoline calls the function in `r12` with the contents of `r13`. -/
theorem trampolineCalls (back : Word) {fn arg : Word} {s : Cpu × Bytes} (fresh : frameRegs.map s.1.reg = [0,0,arg,fn,0,0]) :
    (runCode (threadTrampoline back) s).1.rip = fn ∧ (runCode (threadTrampoline back) s).1.reg .rdi = arg := by
  obtain ⟨_,_,r13,r12,_⟩ : s.1.reg .r15 = 0 ∧ s.1.reg .r14 = 0 ∧ s.1.reg .r13 = arg ∧ s.1.reg .r12 = fn ∧ s.1.reg .rbx = 0 ∧ s.1.reg .rbp = 0 := by
    simpa [frameRegs] using fresh
  let c := { s.1 with interrupts := true }.set .rdi (s.1.reg .r13)
  have ran : runCode (threadTrampoline back) s = ({ (push back (c,s.2)).1 with rip := c.reg .r12 },(push back (c,s.2)).2) := rfl
  have target : c.reg .r12 = fn := (setOther (by decide)).trans r12
  have rdi : (push back (c,s.2)).1.reg .rdi = arg := ((setOther (by decide)).trans setSame).trans r13
  rw [ran]
  exact ⟨target,rdi⟩

theorem switchCode : x86_64.switch = callContextSwitch := rfl

theorem switchRan {c c' : Cpu} {m m' : Bytes} {old new ret : Word} (switched : x86_64.switch old new ret (c,m) = (c',m')) :
    callContextSwitch old new ret (c,m) = (c',m') := by
  rw [switchCode] at switched
  exact switched

theorem lawful : x86_64.Lawful where
  slotsInside := by decide
  saves := by
    intro c m old new ret c' m' switched room apart
    have ran := switchRan switched
    have saved := switchSaves old new ret (s := (c,m)) room apart
    rw [ran] at saved
    exact saved
  restores := by
    intro c m old new ret c' m' saved pc switched fits held _
    have ran := switchRan switched
    have held' : words (callContextSwitch old new ret (c,m)).2 new.toNat 7 = saved ++ [pc] := by
      rw [ran]
      exact held
    have resumed := switchRestores old new ret fits held'
    rw [ran] at resumed
    exact resumed
  plants := by
    rintro entry top fn arg m m' sp planted room
    obtain rfl : _ = m' := congrArg Prod.fst planted
    obtain rfl : _ = sp := congrArg Prod.snd planted
    exact ⟨rfl,initPlants room⟩
  launches := by
    rintro c m back fn arg c' m' launched fresh _
    obtain rfl : _ = c' := congrArg Prod.fst launched
    exact trampolineCalls back (s := (c,m)) fresh

end
end Mukern.X86
