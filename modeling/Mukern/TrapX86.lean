import Mukern.Library.Traps
import Mukern.SwitchX86
import Mukern.KernelState

/-! `arch/x86_64/trap/isr.S` instruction by instruction, with the delivery of an interrupt
through a gate and `iretq`. -/
namespace Mukern.X86
open Buffers LittleEndian Coroutines

/- The processor in 64-bit mode. `flags` is `rflags` but for the interrupt flag. -/
structure Core where
  cpu : Cpu
  flags : Word
  cs : Word
  ss : Word

def Core.rflags (c : Core) : Word := if c.cpu.interrupts then c.flags ||| 0x200 else c.flags &&& ~~~0x200

def Core.user (c : Core) : Bool := c.cs &&& 3 = 3

/- What a program can tell of the processor. -/
structure View where
  reg : Reg → Word
  rip : Word
  cs : Word
  rflags : Word
  ss : Word

def Core.view (c : Core) : View := ⟨c.cpu.reg,c.cpu.rip,c.cs,c.rflags,c.ss⟩

/- The exceptions with which the processor pushes an error code. -/
def errorCodes : List Nat := [8,10,11,12,13,14,17,21,29,30]

/- The stubs that find one, `isr_8` to `isr_30`. -/
def errorStubs : List Nat := [8,10,11,12,13,14,17,21,29,30]

structure Cause where
  vec : Nat
  err : Word
  stub : Word      -- the address in the gate

/- What `isr.S` is made of, besides the instructions of `switch.S`. -/
inductive TrapInstr where
  | plain (i : Instr)
  | pushImm (v : Word)
  | addq (n : Word) (r : Reg)
  | callq (target back : Word)
  | iretq

def kernelCs : Word := 0x08

/- Interrupts, and through a gate of type 14 the processor clears `IF`, `TF`, `NT`, `RF` and `VM`. -/
def deliver (cause : Cause) (rsp0 : Word) (s : Core × Bytes) : Core × Bytes :=
  let c := s.1
  let sp := (if c.user then rsp0 else c.cpu.reg .rsp) &&& ~~~15
  let frame := push c.cpu.rip (push c.cs (push c.rflags (push (c.cpu.reg .rsp) (push c.ss (c.cpu.set .rsp sp,s.2)))))
  let (cpu,m) := if cause.vec ∈ errorCodes then push cause.err frame else frame
  ({ cpu := { cpu with rip := cause.stub, interrupts := false }, flags := c.flags &&& ~~~0x34300, cs := kernelCs, ss := if c.user then 0 else c.ss },m)

def Core.load (c : Core) (cpu : Cpu) : Core := { c with cpu := cpu }

def TrapInstr.exec (s : Core × Bytes) : TrapInstr → Core × Bytes
  | .plain i => let (cpu,m) := i.exec (s.1.cpu,s.2); (s.1.load cpu,m)
  | .pushImm v => let (cpu,m) := push v (s.1.cpu,s.2); (s.1.load cpu,m)
  | .addq n r => (s.1.load (s.1.cpu.set r (s.1.cpu.reg r + n)),s.2)
  | .callq target back => let (cpu,m) := push back (s.1.cpu,s.2); (s.1.load { cpu with rip := target },m)
  | .iretq =>
    let sp := (s.1.cpu.reg .rsp).toNat
    let flags := word s.2 (sp + 16)
    ({ cpu := { s.1.cpu.set .rsp (word s.2 (sp + 24)) with rip := word s.2 sp, interrupts := flags.getLsbD 9 },
       flags := flags, cs := word s.2 (sp + 8), ss := word s.2 (sp + 32) },s.2)

def runTrap (code : List TrapInstr) (s : Core × Bytes) : Core × Bytes := code.foldl TrapInstr.exec s

/- `isr_0` to `isr_47` and `isr_syscall`, up to the jump. -/
def isrStub (vec : Nat) : List TrapInstr :=
  if vec ∈ errorStubs then [.pushImm (BitVec.ofNat 64 vec)] else [.pushImm 0,.pushImm (BitVec.ofNat 64 vec)]

def trapRegs : List Reg := [.r15,.r14,.r13,.r12,.r11,.r10,.r9,.r8,.rbp,.rdi,.rsi,.rdx,.rcx,.rbx,.rax]

/- `isr_common` up to the call, and from its return. -/
def isrCommon (isrHandler back : Word) : List TrapInstr :=
  [.plain (.pushq .rax),.plain (.pushq .rbx),.plain (.pushq .rcx),.plain (.pushq .rdx),.plain (.pushq .rsi),.plain (.pushq .rdi),
    .plain (.pushq .rbp),.plain (.pushq .r8),.plain (.pushq .r9),.plain (.pushq .r10),.plain (.pushq .r11),.plain (.pushq .r12),
    .plain (.pushq .r13),.plain (.pushq .r14),.plain (.pushq .r15),
    .plain (.movq .rsp .rdi),.callq isrHandler back]

def isrReturn : List TrapInstr :=
  [.plain (.popq .r15),.plain (.popq .r14),.plain (.popq .r13),.plain (.popq .r12),.plain (.popq .r11),.plain (.popq .r10),
    .plain (.popq .r9),.plain (.popq .r8),.plain (.popq .rbp),.plain (.popq .rdi),.plain (.popq .rsi),.plain (.popq .rdx),
    .plain (.popq .rcx),.plain (.popq .rbx),.plain (.popq .rax),
    .addq 16 .rsp,.iretq]

/- From the instruction that is interrupted to the call of `isr_handler`. -/
def enterTrap (isrHandler back : Word) (cause : Cause) (rsp0 : Word) (s : Core × Bytes) : Core × Bytes :=
  runTrap (isrCommon isrHandler back) (runTrap (isrStub cause.vec) (deliver cause rsp0 s))

def leaveTrap (s : Core × Bytes) : Core × Bytes := runTrap isrReturn s

/- Where the frame of an interrupt ends: on the stack that the task segment names, or on
the one in use. -/
def frameTop (rsp0 : Word) (c : Core) : Word := (if c.user then rsp0 else c.cpu.reg .rsp) &&& ~~~15

def pushAll (vs : List Word) (s : Cpu × Bytes) : Cpu × Bytes := vs.foldl (fun s v => push v s) s

section
variable {c : Core} {m : Bytes} {cause : Cause} {rsp0 isrHandler back v : Word}

theorem pushAllCpu (vs : List Word) (s : Cpu × Bytes) : (pushAll vs s).1 = s.1.set .rsp (s.1.reg .rsp - BitVec.ofNat 64 (8 * vs.length)) := by
  induction vs generalizing s with
  | nil =>
    have still : s.1.reg .rsp - BitVec.ofNat 64 0 = s.1.reg .rsp := BitVec.sub_zero _
    exact (congrArg (fun reg => ({ s.1 with reg := reg } : Cpu)) (Function.update_eq_self_iff.mpr still)).symm
  | cons v vs ih =>
    have moved : s.1.reg .rsp - 8 - BitVec.ofNat 64 (8 * vs.length) = s.1.reg .rsp - BitVec.ofNat 64 (8 * (vs.length + 1)) := by
      rw [Nat.mul_succ,BitVec.ofNat_add,BitVec.sub_sub,BitVec.add_comm]
      rfl
    have stepped : pushAll (v :: vs) s = pushAll vs (push v s) := rfl
    rw [stepped,ih,push,setTwice,setSame,moved,List.length_cons]

theorem pushAllMemory (vs : List Word) (s : Cpu × Bytes) (room : 8 * vs.length ≤ (s.1.reg .rsp).toNat) :
    words (pushAll vs s).2 ((s.1.reg .rsp).toNat - 8 * vs.length) vs.length = vs.reverse ∧
      ∀ i, i < (s.1.reg .rsp).toNat - 8 * vs.length ∨ (s.1.reg .rsp).toNat ≤ i → (pushAll vs s).2 i = s.2 i := by
  induction vs generalizing s with
  | nil => exact ⟨rfl,fun _ _ => rfl⟩
  | cons v vs ih =>
    rw [List.length_cons] at room ⊢
    have down : (s.1.reg .rsp - 8).toNat = (s.1.reg .rsp).toNat - 8 := subNat (n := 8) (by omega)
    have moved : ((push v s).1.reg .rsp).toNat = (s.1.reg .rsp).toNat - 8 := by rw [push,setSame,down]
    have stored : (push v s).2 = putWord s.2 ((s.1.reg .rsp).toNat - 8) v := congrArg (putWord s.2 · v) down
    have stepped : pushAll (v :: vs) s = pushAll vs (push v s) := rfl
    obtain ⟨pushed,outside⟩ := ih (push v s) (by rw [moved]; omega)
    rw [moved] at pushed outside
    have bottom : (s.1.reg .rsp).toNat - 8 * (vs.length + 1) = (s.1.reg .rsp).toNat - 8 - 8 * vs.length := by omega
    have place : (s.1.reg .rsp).toNat - 8 - 8 * vs.length + 8 * vs.length = (s.1.reg .rsp).toNat - 8 := by omega
    have own : word (pushAll vs (push v s)).2 ((s.1.reg .rsp).toNat - 8) = v := by
      refine (wordCongr fun i low _ => outside i (.inr low)).trans ?_
      rw [stored,wordPut]
    rw [stepped]
    refine ⟨?_,fun i apart => ?_⟩
    · rw [bottom,wordsAppend,pushed,place,words,own,List.reverse_cons]
      rfl
    · rw [outside i (by omega),stored,putWordOther (by omega)]

theorem plainRun (code : List Instr) (s : Core × Bytes) :
    runTrap (code.map .plain) s = (s.1.load (runCode code (s.1.cpu,s.2)).1,(runCode code (s.1.cpu,s.2)).2) := by
  induction code generalizing s with
  | nil => rfl
  | cons i code ih => exact ih _

theorem runTrapAppend (first second : List TrapInstr) (s : Core × Bytes) : runTrap (first ++ second) s = runTrap second (runTrap first s) :=
  List.foldl_append

/- What the processor and the stub push, the lowest word first. -/
def machineFrame (c : Core) (cause : Cause) : List Word :=
  [BitVec.ofNat 64 cause.vec,if cause.vec ∈ errorCodes then cause.err else 0,c.cpu.rip,c.cs,c.rflags,c.cpu.reg .rsp,c.ss]

/- Delivery and the stub. -/
theorem stubRuns (cause : Cause) (rsp0 : Word) (c : Core) (m : Bytes) : ∃ c', runTrap (isrStub cause.vec) (deliver cause rsp0 (c,m)) =
      (c',(pushAll (machineFrame c cause).reverse (c.cpu.set .rsp (frameTop rsp0 c),m)).2) ∧
    c'.cpu.reg = (c.cpu.set .rsp (frameTop rsp0 c - 56)).reg ∧ c'.cpu.interrupts = false := by
  have cpu := pushAllCpu (machineFrame c cause).reverse (c.cpu.set .rsp (frameTop rsp0 c),m)
  rw [setSame,setTwice] at cpu
  have regs := congrArg Cpu.reg cpu
  by_cases coded : cause.vec ∈ errorCodes
  · have stub : isrStub cause.vec = [.pushImm (BitVec.ofNat 64 cause.vec)] := if_pos coded
    have frame : machineFrame c cause = [BitVec.ofNat 64 cause.vec,cause.err,c.cpu.rip,c.cs,c.rflags,c.cpu.reg .rsp,c.ss] := by
      rw [machineFrame,if_pos coded]
    rw [frame] at regs ⊢
    rw [stub,deliver,if_pos coded]
    exact ⟨_,rfl,regs,rfl⟩
  · have stub : isrStub cause.vec = [.pushImm 0,.pushImm (BitVec.ofNat 64 cause.vec)] := if_neg coded
    have frame : machineFrame c cause = [BitVec.ofNat 64 cause.vec,0,c.cpu.rip,c.cs,c.rflags,c.cpu.reg .rsp,c.ss] := by
      rw [machineFrame,if_neg coded]
    rw [frame] at regs ⊢
    rw [stub,deliver,if_neg coded]
    exact ⟨_,rfl,regs,rfl⟩

/- `struct trapframe`. -/
def trapframe (c : Core) (cause : Cause) : List Word := trapRegs.map c.cpu.reg ++ machineFrame c cause

theorem commonParts : isrCommon isrHandler back = (trapRegs.reverse.map Instr.pushq).map .plain ++ [.plain (.movq .rsp .rdi),.callq isrHandler back] := rfl

theorem callRuns {s s' : Core × Bytes} (ran : runTrap [.plain (.movq .rsp .rdi),.callq isrHandler back] s = s') :
    s'.2 = putWord s.2 (s.1.cpu.reg .rsp - 8).toNat back ∧ s'.1.cpu.rip = isrHandler ∧ s'.1.cpu.reg .rdi = s.1.cpu.reg .rsp ∧
      s'.1.cpu.reg .rsp = s.1.cpu.reg .rsp - 8 ∧ s'.1.cpu.interrupts = s.1.cpu.interrupts := by
  subst ran
  have sp : (s.1.cpu.set .rdi (s.1.cpu.reg .rsp)).reg .rsp = s.1.cpu.reg .rsp := setOther (by decide)
  have cpu : (runTrap [.plain (.movq .rsp .rdi),.callq isrHandler back] s).1.cpu =
      { (s.1.cpu.set .rdi (s.1.cpu.reg .rsp)).set .rsp ((s.1.cpu.set .rdi (s.1.cpu.reg .rsp)).reg .rsp - 8) with rip := isrHandler } := rfl
  have rdi : ((s.1.cpu.set .rdi (s.1.cpu.reg .rsp)).set .rsp (s.1.cpu.reg .rsp - 8)).reg .rdi = s.1.cpu.reg .rsp := (setOther (by decide)).trans setSame
  have rsp : ((s.1.cpu.set .rdi (s.1.cpu.reg .rsp)).set .rsp (s.1.cpu.reg .rsp - 8)).reg .rsp = s.1.cpu.reg .rsp - 8 := setSame
  rw [cpu,sp]
  exact ⟨rfl,rfl,rdi,rsp,rfl⟩

/- What `isr_handler` is called with. -/
theorem entersTrap (room : 184 ≤ (frameTop rsp0 c).toNat) {c' : Core} {m' : Bytes} (entered : enterTrap isrHandler back cause rsp0 (c,m) = (c',m')) :
    words m' ((frameTop rsp0 c).toNat - 176) 22 = trapframe c cause ∧
      (c'.cpu.rip = isrHandler ∧ c'.cpu.reg .rdi = frameTop rsp0 c - 176 ∧ c'.cpu.reg .rsp = frameTop rsp0 c - 184 ∧ c'.cpu.interrupts = false) ∧
      ∀ i, i < (frameTop rsp0 c).toNat - 184 ∨ (frameTop rsp0 c).toNat ≤ i → m' i = m i := by
  obtain ⟨c₁,stub,regs,masked⟩ := stubRuns cause rsp0 c m
  generalize frameTop rsp0 c = top at room stub regs ⊢
  have start : (c.cpu.set .rsp top).reg .rsp = top := setSame
  have seven : (machineFrame c cause).reverse.length = 7 := rfl
  obtain ⟨low,lowOutside⟩ := pushAllMemory (machineFrame c cause).reverse (c.cpu.set .rsp top,m) (by rw [start,seven]; omega)
  rw [start,seven,List.reverse_reverse] at low
  rw [start,seven] at lowOutside
  generalize (pushAll (machineFrame c cause).reverse (c.cpu.set .rsp top,m)).2 = m₁ at stub low lowOutside
  -- the registers
  have sp₁ : (c₁.cpu.reg .rsp) = top - 56 := by rw [regs,setSame]
  have place₁ : (top - 56).toNat = top.toNat - 56 := subNat (n := 56) (by omega)
  have fifteen : trapRegs.reverse.length = 15 := rfl
  obtain ⟨high,highOutside⟩ := pushesMemory (c := c₁.cpu) (m := m₁) trapRegs.reverse (by decide) (by rw [sp₁,place₁,fifteen]; omega) rfl
  rw [sp₁,place₁,fifteen,List.reverse_reverse,regs,mapSet (by decide)] at high
  rw [sp₁,place₁,fifteen] at highOutside
  have cpu₂ : (runCode (trapRegs.reverse.map .pushq) (c₁.cpu,m₁)).1 = _ := pushesCpu (by decide)
  rw [sp₁,fifteen] at cpu₂
  have down : top - 56 - BitVec.ofNat 64 (8 * 15) = top - 176 := by
    rw [BitVec.sub_sub]
    rfl
  rw [down] at cpu₂
  have run : enterTrap isrHandler back cause rsp0 (c,m) =
      runTrap [.plain (.movq .rsp .rdi),.callq isrHandler back] (c₁.load (c₁.cpu.set .rsp (top - 176)),(runCode (trapRegs.reverse.map .pushq) (c₁.cpu,m₁)).2) := by
    rw [enterTrap,stub,commonParts,runTrapAppend,plainRun,cpu₂]
  generalize (runCode (trapRegs.reverse.map .pushq) (c₁.cpu,m₁)).2 = m₂ at run high highOutside
  -- the call
  have sp₂ : (c₁.load (c₁.cpu.set .rsp (top - 176))).cpu.reg .rsp = top - 176 := setSame
  have masked₂ : (c₁.load (c₁.cpu.set .rsp (top - 176))).cpu.interrupts = false := masked
  have under : top - 176 - 8 = top - 184 := by
    rw [BitVec.sub_sub]
    rfl
  have place : (top - 184).toNat = top.toNat - 184 := subNat (n := 184) room
  obtain ⟨memory,rip,rdi,rsp,flag⟩ := callRuns (run.symm.trans entered)
  rw [sp₂,under] at memory rsp
  rw [place] at memory
  rw [sp₂] at rdi
  rw [masked₂] at flag
  dsimp only at memory
  subst memory
  refine ⟨?_,⟨rip,rdi,rsp,flag⟩,fun i outside => ?_⟩
  · have split : top.toNat - 56 - 8 * 15 = top.toNat - 176 := by omega
    have join : top.toNat - 176 + 8 * 15 = top.toNat - 56 := by omega
    rw [split] at high
    have kept : words m₂ (top.toNat - 56) 7 = words m₁ (top.toNat - 56) 7 := wordsCongr fun i above _ => highOutside i (.inr above)
    rw [wordsApart (by omega),wordsAppend (k := 15) (n := 7),join,kept,high,low,trapframe]
  · rw [putWordOther (by omega),highOutside i (by omega),lowOutside i (by omega)]

theorem roundedDown (v : Word) : (v &&& ~~~(15 : Word)).toNat = v.toNat / 16 * 16 := by
  have shifted : v &&& ~~~(15 : Word) = (v >>> 4) <<< 4 := by
    refine BitVec.eq_of_getLsbD_eq fun i low => ?_
    have mask : (15 : Word).getLsbD i = decide (i < 4) := by
      revert i
      decide
    rw [BitVec.getLsbD_and,BitVec.getLsbD_not,mask,BitVec.getLsbD_shiftLeft,BitVec.getLsbD_ushiftRight]
    by_cases small : i < 4
    · simp [small]
    · have back : 4 + (i - 4) = i := by omega
      simp [small,low,back]
  have fits := v.isLt
  rw [shifted,BitVec.toNat_shiftLeft,BitVec.toNat_ushiftRight,Nat.shiftLeft_eq,Nat.shiftRight_eq_div_pow,Nat.mod_eq_of_lt (by omega)]

/- `tf` of `isr_handler`. -/
def readTrapframe (m : Bytes) (tf : Nat) : Trapframe :=
  { vec := (word m (tf + 120)).toNat, cs := word m (tf + 144), rax := word m (tf + 112),
    rdi := word m (tf + 72), rsi := word m (tf + 80), rdx := word m (tf + 88) }

/- Every gate leads to `isr_handler`, with the interrupted registers in the fields of
`struct trapframe`, the stack aligned for the call and interrupts off. -/
theorem isrHandlerCalled (room : 184 ≤ (frameTop rsp0 c).toNat) (vec : cause.vec < 256) {c' : Core} {m' : Bytes}
    (entered : enterTrap isrHandler back cause rsp0 (c,m) = (c',m')) :
    c'.cpu.rip = isrHandler ∧
      readTrapframe m' (c'.cpu.reg .rdi).toNat = ⟨cause.vec,c.cs,c.cpu.reg .rax,c.cpu.reg .rdi,c.cpu.reg .rsi,c.cpu.reg .rdx⟩ ∧
      words m' (c'.cpu.reg .rdi).toNat 22 = trapframe c cause ∧ (c'.cpu.reg .rsp).toNat % 16 = 8 ∧ c'.cpu.interrupts = false ∧
      ∀ i, i < (c'.cpu.reg .rsp).toNat ∨ (frameTop rsp0 c).toNat ≤ i → m' i = m i := by
  obtain ⟨frame,⟨rip,rdi,rsp,masked⟩,outside⟩ := entersTrap room entered
  have place : (c'.cpu.reg .rdi).toNat = (frameTop rsp0 c).toNat - 176 := by
    rw [rdi]
    exact subNat (n := 176) (by omega)
  have bottom : (c'.cpu.reg .rsp).toNat = (frameTop rsp0 c).toNat - 184 := by
    rw [rsp]
    exact subNat (n := 184) room
  have aligned : (frameTop rsp0 c).toNat % 16 = 0 := by
    rw [frameTop,roundedDown]
    exact Nat.mul_mod_left _ _
  rw [place,bottom]
  refine ⟨rip,?_,frame,by omega,masked,outside⟩
  generalize (frameTop rsp0 c).toNat - 176 = base at frame
  simp only [words,trapframe,trapRegs,machineFrame,List.map_cons,List.map_nil,List.cons_append,List.nil_append,List.cons.injEq,Nat.add_assoc,
    Nat.reduceAdd] at frame
  obtain ⟨_,_,_,_,_,_,_,_,_,rdi',rsi',rdx',_,_,rax',vec',_,_,cs',_⟩ := frame
  have number : (word m' (base + 120)).toNat = cause.vec := by
    rw [vec',BitVec.toNat_ofNat,Nat.mod_eq_of_lt (by omega)]
  rw [readTrapframe,number,cs',rax',rdi',rsi',rdx']

/- A program in Ring 3 executes `int 0x80`. -/
def callingCore : Core := ⟨⟨fun r => if r = .rax then 2 else 7,0x400010,true⟩,0x2,0x1B,0x23⟩

theorem isrHandlerCalledSyscall : let s := enterTrap 0x109000 0x10A000 ⟨0x80,0,0x108000⟩ 0x204000 (callingCore,fun _ => 0)
    s.1.cpu.rip = 0x109000 ∧ readTrapframe s.2 (s.1.cpu.reg .rdi).toNat = ⟨0x80,0x1B,2,7,7,7⟩ := by
  intro s
  have entered : enterTrap 0x109000 0x10A000 ⟨0x80,0,0x108000⟩ 0x204000 (callingCore,fun _ => 0) = (s.1,s.2) := rfl
  obtain ⟨rip,frame,_⟩ := isrHandlerCalled (by decide) (by decide) entered
  exact ⟨rip,frame⟩

theorem flagsLoaded (w : Word) : (if w.getLsbD 9 then w ||| 0x200 else w &&& ~~~0x200) = w := by
  refine BitVec.eq_of_getLsbD_eq fun i low => ?_
  have mask : (0x200 : Word).getLsbD i = decide (i = 9) := by
    revert i
    decide
  split
  · rename_i flag
    rw [BitVec.getLsbD_or,mask]
    by_cases nine : i = 9
    · rw [nine,flag]
      rfl
    · rw [decide_eq_false nine,Bool.or_false]
  · rename_i flag
    rw [BitVec.getLsbD_and,BitVec.getLsbD_not,mask,decide_eq_true low,Bool.true_and]
    by_cases nine : i = 9
    · rw [nine,Bool.eq_false_of_not_eq_true flag]
      rfl
    · rw [decide_eq_false nine,Bool.not_false,Bool.and_true]

theorem returnParts : isrReturn = (trapRegs.map Instr.popq).map .plain ++ [.addq 16 .rsp,.iretq] := rfl

theorem iretRuns {s s' : Core × Bytes} {sp : Nat} (place : (s.1.cpu.reg .rsp + 16).toNat = sp) (ran : runTrap [.addq 16 .rsp,.iretq] s = s') :
    s'.2 = s.2 ∧ s'.1.cpu.rip = word s.2 sp ∧ s'.1.cs = word s.2 (sp + 8) ∧ s'.1.rflags = word s.2 (sp + 16) ∧
      s'.1.cpu.reg .rsp = word s.2 (sp + 24) ∧ s'.1.ss = word s.2 (sp + 32) ∧ ∀ r, r ≠ .rsp → s'.1.cpu.reg r = s.1.cpu.reg r := by
  subst ran place
  have up : (s.1.cpu.set .rsp (s.1.cpu.reg .rsp + 16)).reg .rsp = s.1.cpu.reg .rsp + 16 := setSame
  have run : runTrap [.addq 16 .rsp,.iretq] s = TrapInstr.iretq.exec (s.1.load (s.1.cpu.set .rsp (s.1.cpu.reg .rsp + 16)),s.2) := rfl
  have sp : (s.1.load (s.1.cpu.set .rsp (s.1.cpu.reg .rsp + 16))).cpu.reg .rsp = s.1.cpu.reg .rsp + 16 := up
  rw [run]
  unfold TrapInstr.exec
  dsimp only
  rw [sp]
  exact ⟨rfl,rfl,rfl,flagsLoaded _,setSame,rfl,fun r other => (setOther other).trans (setOther other)⟩

/- What the frame holds is what the program goes on with. -/
theorem leavesTrap {base : Nat} {regs : List Word} {vec err rip cs flags sp ss : Word} {d d' : Core} {m' : Bytes} (left : leaveTrap (d,m) = (d',m'))
    (place : (d.cpu.reg .rsp).toNat = base) (fits : base + 176 < 2 ^ 64) (fifteen : regs.length = 15)
    (held : words m base 22 = regs ++ [vec,err,rip,cs,flags,sp,ss]) :
    m' = m ∧ trapRegs.map d'.cpu.reg = regs ∧ d'.cpu.reg .rsp = sp ∧ d'.cpu.rip = rip ∧ d'.cs = cs ∧ d'.rflags = flags ∧ d'.ss = ss := by
  subst place
  rw [wordsAppend (k := 15) (n := 7)] at held
  obtain ⟨first,last⟩ := List.append_inj held (by rw [wordsLength,fifteen])
  obtain ⟨cpu,ran,popped,rsp,_⟩ := popsRun (c := d.cpu) (m := m) trapRegs (by decide) (by decide) (by
    have length : trapRegs.length = 15 := rfl
    rw [length]
    omega)
  have fifteen' : trapRegs.length = 15 := rfl
  rw [fifteen'] at popped rsp
  have up : (cpu.reg .rsp + 16).toNat = (d.cpu.reg .rsp).toNat + 136 := by
    have small : (BitVec.ofNat 64 (8 * 15) + 16 : Word).toNat = 136 := rfl
    rw [rsp,BitVec.add_assoc,BitVec.toNat_add_of_lt (by rw [small]; omega),small]
  have run : leaveTrap (d,m) = runTrap [.addq 16 .rsp,.iretq] (d.load cpu,m) := by
    rw [leaveTrap,returnParts,runTrapAppend,plainRun]
    exact congrArg (runTrap _) (by rw [ran])
  obtain ⟨memory,rip',cs',flags',sp',ss',others⟩ := iretRuns (s := (d.load cpu,m)) up (run.symm.trans left)
  simp only [words,List.cons.injEq] at last
  obtain ⟨_,_,isRip,isCs,isFlags,isSp,isSs,_⟩ := last
  refine ⟨memory,?_,sp'.trans isSp,rip'.trans isRip,cs'.trans isCs,flags'.trans isFlags,ss'.trans isSs⟩
  have same : trapRegs.map d'.cpu.reg = trapRegs.map cpu.reg :=
    List.map_congr_left fun r member => others r (fun own => by rw [own] at member; revert member; decide)
  rw [same,popped,first]

/- What `isr_handler` writes for the caller is in `rax`. -/
def View.answered (v : View) (m : Bytes) (base : Nat) : View := { v with reg := Function.update v.reg .rax (word m (base + 112)) }

/- The traps of the kernel whose handler is at `isrHandler` and returns to `back`. -/
abbrev traps (isrHandler back : Word) : Traps x86_64 where
  Core := Core
  Cause := Cause
  View := View
  cpu := Core.cpu
  view := Core.view
  top := frameTop
  frameBytes := 176
  below := 8
  Answer offset := 112 ≤ offset ∧ offset < 120
  answered := View.answered
  enter := enterTrap isrHandler back
  leave := leaveTrap

theorem regsView {f g : Reg → Word} (same : trapRegs.map f = trapRegs.map g) (sp : f .rsp = g .rsp) : f = g := by
  funext r
  have listed : r = .rsp ∨ r ∈ trapRegs := by cases r <;> decide
  rcases listed with rfl | inside
  · exact sp
  · exact List.map_inj_left.mp same r inside

/- A handler that keeps the frame, but for `rax`, leaves the program as it was, but for `rax`. -/
theorem returnsTrap {c' d : Core} {m' m'' : Bytes} {base : Nat} (entered : enterTrap isrHandler back cause rsp0 (c,m) = (c',m'))
    (room : 184 ≤ (frameTop rsp0 c).toNat) (top : (frameTop rsp0 c).toNat = base + 176) (place : (d.cpu.reg .rsp).toNat = base)
    (kept : ∀ i, base ≤ i → i < base + 176 → ¬ (112 ≤ i - base ∧ i - base < 120) → m'' i = m' i) :
    (leaveTrap (d,m'')).1.view = c.view.answered m'' base ∧ (leaveTrap (d,m'')).2 = m'' := by
  have high := (frameTop rsp0 c).isLt
  obtain ⟨frame,_,_⟩ := entersTrap room entered
  rw [top,Nat.add_sub_cancel] at frame
  have changed : words m'' base 22 = (words m' base 22).set 14 (word m'' (base + 112)) := by
    have low : words m'' base 14 = words m' base 14 := wordsCongr fun i above below => kept i above (by omega) (by omega)
    have upper : words m'' (base + 120) 7 = words m' (base + 120) 7 := wordsCongr fun i above below => kept i (by omega) (by omega) (by omega)
    have split : ∀ b : Bytes, words b base 22 = words b base 14 ++ word b (base + 112) :: words b (base + 120) 7 := fun b => by
      rw [wordsAppend (k := 14) (n := 8)]
      rfl
    have length : (words m' base 14).length = 14 := wordsLength
    rw [split,split,low,upper,List.set_append_right _ _ (by rw [length]),length,Nat.sub_self,List.set_cons_zero]
  have held : words m'' base 22 = trapRegs.map (Function.update c.cpu.reg .rax (word m'' (base + 112))) ++ machineFrame c cause := by
    rw [changed,frame,trapframe,List.set_append_left _ _ (by rw [List.length_map]; decide)]
    rfl
  rcases left : leaveTrap (d,m'') with ⟨d',m₃⟩
  obtain ⟨memory,same,sp,rip,cs,flags,ss⟩ := leavesTrap left place (by omega) rfl held
  have all : d'.cpu.reg = Function.update c.cpu.reg .rax (word m'' (base + 112)) := regsView same sp
  have rebuilt : d'.view = ⟨d'.cpu.reg,d'.cpu.rip,d'.cs,d'.rflags,d'.ss⟩ := rfl
  refine ⟨?_,memory⟩
  rw [rebuilt,all,rip,cs,flags,ss]
  rfl

theorem trapsLawful (isrHandler back : Word) : (traps isrHandler back).Lawful where
  enters := by
    intro cause kernel c m c' m' entered room i outside
    dsimp only [Traps.base] at *
    exact (entersTrap room entered).2.2 i (by omega)
  leaves := by
    intro cause kernel c m d c' m' m'' entered room _ place kept
    dsimp only [Traps.base] at *
    have top : (frameTop kernel c).toNat = (frameTop kernel c).toNat - 176 + 176 := by omega
    exact returnsTrap entered room top place fun i above below other => kept i above (by omega) other

end
end Mukern.X86
