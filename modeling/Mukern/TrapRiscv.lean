import Mukern.Library.Traps
import Mukern.SwitchRiscv

/-! `arch/riscv64/trap/trap.S` instruction by instruction, with the delivery of a trap and `sret`. -/
namespace Mukern.Riscv
open Buffers LittleEndian Coroutines

/- A hart with the system registers of a trap. `status` is `sstatus` but for `SIE`, `SPIE`
and `SPP`. -/
structure Hart where
  cpu : Cpu
  supervisor : Bool
  spie : Bool
  spp : Bool
  status : Word
  sepc : Word
  scause : Word

def Hart.sstatus (h : Hart) : Word :=
  h.status &&& ~~~0x122 ||| ((if h.cpu.sie then 0x2 else 0) ||| (if h.spie then 0x20 else 0) ||| (if h.spp then 0x100 else 0))

/- What a program can tell of the hart. -/
structure View where
  reg : Reg → Word
  pc : Word
  sie : Bool
  status : Word
  supervisor : Bool

def Hart.view (h : Hart) : View := ⟨h.cpu.reg,h.cpu.pc,h.cpu.sie,h.status &&& ~~~0x122,h.supervisor⟩

def deliver (scause stvec : Word) (s : Hart × Bytes) : Hart × Bytes :=
  let h := s.1
  ({ h with
      cpu := { h.cpu with pc := stvec, sie := false }, supervisor := true, spie := h.cpu.sie, spp := h.supervisor,
      sepc := h.cpu.pc, scause := scause },s.2)

inductive Csr where
  | sepc | sstatus | scause

/- What `trap.S` is made of, besides the instructions of `switch.S`. -/
inductive TrapInstr where
  | plain (i : Instr)
  | csrr (rd : Reg) (csr : Csr)
  | csrw (csr : Csr) (rs : Reg)
  | call (trapHandler back : Word)
  | sret

def Hart.read (h : Hart) : Csr → Word
  | .sepc => h.sepc
  | .sstatus => h.sstatus
  | .scause => h.scause

/- The lowest bit of `sepc` reads as zero. -/
def Hart.write (h : Hart) (v : Word) : Csr → Hart
  | .sepc => { h with sepc := target v }
  | .sstatus => { h with cpu := { h.cpu with sie := v.getLsbD 1 }, spie := v.getLsbD 5, spp := v.getLsbD 8, status := v }
  | .scause => { h with scause := v }

def Hart.load (h : Hart) (cpu : Cpu) : Hart := { h with cpu := cpu }

def TrapInstr.exec (s : Hart × Bytes) : TrapInstr → Hart × Bytes
  | .plain i => let (cpu,m) := i.exec (s.1.cpu,s.2); (s.1.load cpu,m)
  | .csrr rd csr => (s.1.load (s.1.cpu.set rd (s.1.read csr)),s.2)
  | .csrw csr rs => (s.1.write (s.1.cpu.reg rs) csr,s.2)
  | .call trapHandler back => (s.1.load { s.1.cpu.set .ra back with pc := trapHandler },s.2)
  | .sret =>
    let h := s.1
    ({ h with cpu := { h.cpu with pc := h.sepc, sie := h.spie }, supervisor := h.spp, spie := true, spp := false },s.2)

def runTrap (code : List TrapInstr) (s : Hart × Bytes) : Hart × Bytes := code.foldl TrapInstr.exec s

/- `trap_entry` up to the call, and from its return. -/
def trapEntry (trapHandler back : Word) : List TrapInstr :=
  ([.addi .sp .sp (-288),
    .sd .ra .sp 8,.sd .gp .sp 24,.sd .tp .sp 32,.sd .t0 .sp 40,.sd .t1 .sp 48,.sd .t2 .sp 56,.sd .s0 .sp 64,.sd .s1 .sp 72,
    .sd .a0 .sp 80,.sd .a1 .sp 88,.sd .a2 .sp 96,.sd .a3 .sp 104,.sd .a4 .sp 112,.sd .a5 .sp 120,.sd .a6 .sp 128,.sd .a7 .sp 136,
    .sd .s2 .sp 144,.sd .s3 .sp 152,.sd .s4 .sp 160,.sd .s5 .sp 168,.sd .s6 .sp 176,.sd .s7 .sp 184,.sd .s8 .sp 192,.sd .s9 .sp 200,
    .sd .s10 .sp 208,.sd .s11 .sp 216,.sd .t3 .sp 224,.sd .t4 .sp 232,.sd .t5 .sp 240,.sd .t6 .sp 248] : List Instr).map .plain ++
  [.csrr .t0 .sepc,.plain (.sd .t0 .sp 256),.csrr .t0 .sstatus,.plain (.sd .t0 .sp 264),.csrr .a0 .scause,.call trapHandler back]

def trapExit : List TrapInstr :=
  [.plain (.ld .t0 .sp 256),.csrw .sepc .t0,.plain (.ld .t0 .sp 264),.csrw .sstatus .t0] ++
  ([.ld .ra .sp 8,.ld .gp .sp 24,.ld .tp .sp 32,.ld .t0 .sp 40,.ld .t1 .sp 48,.ld .t2 .sp 56,.ld .s0 .sp 64,.ld .s1 .sp 72,
    .ld .a0 .sp 80,.ld .a1 .sp 88,.ld .a2 .sp 96,.ld .a3 .sp 104,.ld .a4 .sp 112,.ld .a5 .sp 120,.ld .a6 .sp 128,.ld .a7 .sp 136,
    .ld .s2 .sp 144,.ld .s3 .sp 152,.ld .s4 .sp 160,.ld .s5 .sp 168,.ld .s6 .sp 176,.ld .s7 .sp 184,.ld .s8 .sp 192,.ld .s9 .sp 200,
    .ld .s10 .sp 208,.ld .s11 .sp 216,.ld .t3 .sp 224,.ld .t4 .sp 232,.ld .t5 .sp 240,.ld .t6 .sp 248,
    .addi .sp .sp 288] : List Instr).map .plain ++ [.sret]

/- `x3` to `x31`. -/
def upperRegs : List Reg :=
  [.gp,.tp,.t0,.t1,.t2,.s0,.s1,.a0,.a1,.a2,.a3,.a4,.a5,.a6,.a7,.s2,.s3,.s4,.s5,.s6,.s7,.s8,.s9,.s10,.s11,.t3,.t4,.t5,.t6]

def enterTrap (stvec trapHandler back scause : Word) (s : Hart × Bytes) : Hart × Bytes :=
  runTrap (trapEntry trapHandler back) (deliver scause stvec s)

def leaveTrap (s : Hart × Bytes) : Hart × Bytes := runTrap trapExit s

section
variable {h : Hart} {m : Bytes} {stvec trapHandler back scause : Word}

theorem entryParts : trapEntry trapHandler back = ([Instr.addi .sp .sp (-288)] ++ (stores 1 [.ra] ++ stores 3 upperRegs)).map .plain ++
    [.csrr .t0 .sepc,.plain (.sd .t0 .sp 256),.csrr .t0 .sstatus,.plain (.sd .t0 .sp 264),.csrr .a0 .scause,.call trapHandler back] := rfl

theorem exitParts : trapExit = [.plain (.ld .t0 .sp 256),.csrw .sepc .t0,.plain (.ld .t0 .sp 264),.csrw .sstatus .t0] ++
    ((loads 1 [.ra] ++ (loads 3 upperRegs ++ [Instr.addi .sp .sp 288])).map .plain ++ [.sret]) := rfl

theorem plainRun (code : List Instr) (s : Hart × Bytes) :
    runTrap (code.map .plain) s = (s.1.load (runCode code (s.1.cpu,s.2)).1,(runCode code (s.1.cpu,s.2)).2) := by
  induction code generalizing s with
  | nil => rfl
  | cons i code ih => exact ih _

theorem runTrapAppend (first second : List TrapInstr) (s : Hart × Bytes) : runTrap (first ++ second) s = runTrap second (runTrap first s) :=
  List.foldl_append

theorem slotPlace {v : Word} {base : Nat} (place : v.toNat = base) (k : Nat) (fits : base + k < 2 ^ 64) : (v + BitVec.ofNat 64 k).toNat = base + k := by
  have small : (BitVec.ofNat 64 k).toNat = k := by rw [BitVec.toNat_ofNat,Nat.mod_eq_of_lt (by omega)]
  rw [BitVec.toNat_add_of_lt (by rw [small,place]; omega),small,place]

theorem tailRuns {s s' : Hart × Bytes} {base : Nat} (place : (s.1.cpu.reg .sp).toNat = base) (fits : base + 288 < 2 ^ 64)
    (ran : runTrap [.csrr .t0 .sepc,.plain (.sd .t0 .sp 256),.csrr .t0 .sstatus,.plain (.sd .t0 .sp 264),.csrr .a0 .scause,.call trapHandler back] s = s') :
    s'.2 = putWord (putWord s.2 (base + 256) s.1.sepc) (base + 264) s.1.sstatus ∧
      s'.1.cpu.pc = trapHandler ∧ s'.1.cpu.reg .sp = s.1.cpu.reg .sp ∧ s'.1.cpu.reg .a0 = s.1.scause ∧ s'.1.cpu.sie = s.1.cpu.sie := by
  subst ran
  let c₁ := s.1.cpu.set .t0 s.1.sepc
  let c₂ := c₁.set .t0 s.1.sstatus
  let c₃ := c₂.set .a0 s.1.scause
  have sp₁ : c₁.reg .sp = s.1.cpu.reg .sp := setOther (by decide)
  have sp₂ : c₂.reg .sp = s.1.cpu.reg .sp := (setOther (by decide)).trans sp₁
  have sp₃ : (c₃.set .ra back).reg .sp = s.1.cpu.reg .sp := (setOther (by decide)).trans ((setOther (by decide)).trans sp₂)
  have a0 : (c₃.set .ra back).reg .a0 = s.1.scause := (setOther (by decide)).trans setSame
  have memory : (runTrap [.csrr .t0 .sepc,.plain (.sd .t0 .sp 256),.csrr .t0 .sstatus,.plain (.sd .t0 .sp 264),.csrr .a0 .scause,.call trapHandler back] s).2 =
      putWord (putWord s.2 (c₁.reg .sp + BitVec.ofNat 64 256).toNat (c₁.reg .t0)) (c₂.reg .sp + BitVec.ofNat 64 264).toNat (c₂.reg .t0) := rfl
  have t₁ : c₁.reg .t0 = s.1.sepc := setSame
  have t₂ : c₂.reg .t0 = s.1.sstatus := setSame
  refine ⟨?_,rfl,sp₃,a0,rfl⟩
  rw [memory,sp₁,sp₂,t₁,t₂,slotPlace place 256 (by omega),slotPlace place 264 (by omega)]

/- The frame of a trap. -/
structure Frame (m : Bytes) (base : Nat) (h : Hart) : Prop where
  ra : word m (base + 8) = h.cpu.reg .ra
  upper : words m (base + 24) 29 = upperRegs.map h.cpu.reg
  sepc : word m (base + 256) = h.cpu.pc
  sstatus : word m (base + 264) = { h with cpu := { h.cpu with sie := false }, spie := h.cpu.sie, spp := h.supervisor : Hart }.sstatus

theorem Frame.congr {m' : Bytes} {base : Nat} (frame : Frame m base h) (same : ∀ i, base ≤ i → i < base + 288 → m' i = m i) : Frame m' base h :=
  ⟨(wordCongr fun i low high => same i (by omega) (by omega)).trans frame.ra,
    (wordsCongr fun i low high => same i (by omega) (by omega)).trans frame.upper,
    (wordCongr fun i low high => same i (by omega) (by omega)).trans frame.sepc,
    (wordCongr fun i low high => same i (by omega) (by omega)).trans frame.sstatus⟩

/- What `trap_handler` is called with. -/
theorem entersTrap {base : Nat} (room : (h.cpu.reg .sp).toNat = base + 288) {h' : Hart} {m' : Bytes}
    (entered : enterTrap stvec trapHandler back scause (h,m) = (h',m')) :
    Frame m' base h ∧ (h'.cpu.pc = trapHandler ∧ h'.cpu.reg .a0 = scause ∧ (h'.cpu.reg .sp).toNat = base ∧ h'.cpu.sie = false) ∧
      ∀ i, i < base ∨ base + 288 ≤ i → m' i = m i := by
  have fits := (h.cpu.reg .sp).isLt
  let h₁ : Hart := { h with
    cpu := { h.cpu with pc := stvec, sie := false }, supervisor := true, spie := h.cpu.sie, spp := h.supervisor, sepc := h.cpu.pc, scause := scause }
  let c₂ := h₁.cpu.set .sp (h.cpu.reg .sp + BitVec.ofInt 64 (-288))
  have minus : BitVec.ofInt 64 (-288) = -(288 : Word) := by decide
  have sp : c₂.reg .sp = h.cpu.reg .sp - 288 := by
    rw [setSame,minus,BitVec.sub_eq_add_neg]
  have place : (c₂.reg .sp).toNat = base := by
    have down : (h.cpu.reg .sp - 288).toNat = (h.cpu.reg .sp).toNat - 288 := subNat (n := 288) (by omega)
    rw [sp,down]
    omega
  have one : [Reg.ra].length = 1 := rfl
  have many : upperRegs.length = 29 := rfl
  obtain ⟨low,lowOutside⟩ := storesMemory [.ra] 1 (c₂,m) (by rw [place,one]; omega)
  rw [place,one] at low lowOutside
  generalize lower : runCode (stores 1 [.ra]) (c₂,m) = s₂ at low lowOutside
  have cpu₂ : s₂.1 = c₂ := by rw [← lower,storesCpu]
  obtain ⟨high,highOutside⟩ := storesMemory upperRegs 3 s₂ (by rw [cpu₂,place,many]; omega)
  rw [cpu₂,place,many,mapSet (by decide)] at high
  rw [cpu₂,place,many] at highOutside
  generalize upper : runCode (stores 3 upperRegs) s₂ = s₃ at high highOutside
  have cpu₃ : s₃.1 = c₂ := by rw [← upper,storesCpu,cpu₂]
  have run : runTrap [.csrr .t0 .sepc,.plain (.sd .t0 .sp 256),.csrr .t0 .sstatus,.plain (.sd .t0 .sp 264),.csrr .a0 .scause,.call trapHandler back]
      (h₁.load c₂,s₃.2) = (h',m') := by
    have plain : runCode ([.addi .sp .sp (-288)] ++ (stores 1 [.ra] ++ stores 3 upperRegs)) (h₁.cpu,m) = s₃ := by
      rw [runAppend,runAppend,← upper,← lower]
      rfl
    rw [← entered,enterTrap,entryParts,runTrapAppend,plainRun]
    have delivered : deliver scause stvec (h,m) = (h₁,m) := rfl
    rw [delivered,plain,cpu₃]
  obtain ⟨memory,pc,sp',a0,sie⟩ := tailRuns (s := (h₁.load c₂,s₃.2)) place (by omega) run
  dsimp only at memory
  have sp₃ : h'.cpu.reg .sp = c₂.reg .sp := sp'
  have low' : (h'.cpu.reg .sp).toNat = base := by rw [sp₃,place]
  have outside : ∀ i, i < base + 256 ∨ base + 272 ≤ i → m' i = s₃.2 i := by
    intro i apart
    rw [memory,putWordOther (by omega),putWordOther (by omega)]
  refine ⟨⟨?_,?_,?_,?_⟩,⟨pc,a0,low',sie⟩,fun i apart => ?_⟩
  · have kept : word m' (base + 8) = word s₂.2 (base + 8) :=
      wordCongr fun i low high => (outside i (by omega)).trans (highOutside i (by omega))
    rw [kept]
    exact (List.cons.inj low).1.trans (setOther (by decide))
  · rw [wordsCongr fun i low high => outside i (by omega)]
    exact high
  · rw [memory,wordApart (by omega),wordPut]
    rfl
  · rw [memory,wordPut]
    rfl
  · rw [outside i (by omega),highOutside i (by omega),lowOutside i (by omega)]

theorem sstatusBits (h : Hart) : h.sstatus.getLsbD 5 = h.spie ∧ h.sstatus.getLsbD 8 = h.spp ∧ h.sstatus &&& ~~~0x122 = h.status &&& ~~~0x122 := by
  have apart : ∀ a b c : Bool, ((if a then 0x2 else 0) ||| (if b then 0x20 else 0) ||| (if c then 0x100 else 0) : Word) &&& ~~~0x122 = 0#64 ∧
      ((if a then 0x2 else 0) ||| (if b then 0x20 else 0) ||| (if c then 0x100 else 0) : Word).getLsbD 5 = b ∧
      ((if a then 0x2 else 0) ||| (if b then 0x20 else 0) ||| (if c then 0x100 else 0) : Word).getLsbD 8 = c := by decide
  obtain ⟨masked,five,eight⟩ := apart h.cpu.sie h.spie h.spp
  have clear : (~~~0x122 : Word).getLsbD 5 = false ∧ (~~~0x122 : Word).getLsbD 8 = false := by decide
  unfold Hart.sstatus
  refine ⟨?_,?_,?_⟩
  · rw [BitVec.getLsbD_or,BitVec.getLsbD_and,clear.1,five,Bool.and_false,Bool.false_or]
  · rw [BitVec.getLsbD_or,BitVec.getLsbD_and,clear.2,eight,Bool.and_false,Bool.false_or]
  · rw [BitVec.and_comm,BitVec.and_or_distrib_left,BitVec.and_comm _ (_ ||| _),masked,BitVec.or_zero,← BitVec.and_assoc,BitVec.and_comm _ h.status,
      BitVec.and_assoc,BitVec.and_self]

theorem statusWritten (h : Hart) (v : Word) : (h.write v .sstatus).status = v ∧ (h.write v .sstatus).spie = v.getLsbD 5 ∧
    (h.write v .sstatus).spp = v.getLsbD 8 := ⟨rfl,rfl,rfl⟩

theorem writtenRegs (h : Hart) (v : Word) (csr : Csr) : (h.write v csr).cpu.reg = h.cpu.reg := by cases csr <;> rfl

theorem headRuns {s s' : Hart × Bytes} {base : Nat} (place : (s.1.cpu.reg .sp).toNat = base) (fits : base + 288 < 2 ^ 64)
    (ran : runTrap [.plain (.ld .t0 .sp 256),.csrw .sepc .t0,.plain (.ld .t0 .sp 264),.csrw .sstatus .t0] s = s') :
    s'.2 = s.2 ∧ s'.1.cpu.reg .sp = s.1.cpu.reg .sp ∧ s'.1.sepc = target (word s.2 (base + 256)) ∧ s'.1.status = word s.2 (base + 264) ∧
      s'.1.spie = (word s.2 (base + 264)).getLsbD 5 ∧ s'.1.spp = (word s.2 (base + 264)).getLsbD 8 := by
  let c₁ := s.1.cpu.set .t0 (word s.2 (s.1.cpu.reg .sp + BitVec.ofNat 64 256).toNat)
  let h₁ := (s.1.load c₁).write (c₁.reg .t0) .sepc
  let c₂ := c₁.set .t0 (word s.2 (c₁.reg .sp + BitVec.ofNat 64 264).toNat)
  have run : runTrap [.plain (.ld .t0 .sp 256),.csrw .sepc .t0,.plain (.ld .t0 .sp 264),.csrw .sstatus .t0] s = ((h₁.load c₂).write (c₂.reg .t0) .sstatus,s.2) := rfl
  have sp₁ : c₁.reg .sp = s.1.cpu.reg .sp := setOther (by decide)
  have first : c₁.reg .t0 = word s.2 (base + 256) := by rw [setSame,slotPlace place 256 (by omega)]
  have second : c₂.reg .t0 = word s.2 (base + 264) := by rw [setSame,sp₁,slotPlace place 264 (by omega)]
  have sp₂ : c₂.reg .sp = s.1.cpu.reg .sp := (setOther (by decide)).trans sp₁
  have sepc : ((h₁.load c₂).write (c₂.reg .t0) .sstatus).sepc = target (c₁.reg .t0) := rfl
  have status := statusWritten (h₁.load c₂) (c₂.reg .t0)
  have sp : ((h₁.load c₂).write (c₂.reg .t0) .sstatus).cpu.reg .sp = c₂.reg .sp := congrFun (writtenRegs (h₁.load c₂) (c₂.reg .t0) .sstatus) .sp
  rw [run] at ran
  rw [first] at sepc
  rw [second] at status
  rw [sp₂] at sp
  rw [second] at ran sepc sp
  generalize (h₁.load c₂).write (word s.2 (base + 264)) .sstatus = h at ran sp sepc status
  subst ran
  exact ⟨rfl,sp,sepc,status⟩

theorem exitRuns (s : Hart × Bytes) : runTrap [.sret] s =
    ({ s.1 with cpu := { s.1.cpu with pc := s.1.sepc, sie := s.1.spie }, supervisor := s.1.spp, spie := true, spp := false },s.2) := rfl

theorem regsSame {f g : Reg → Word} (ra : f .ra = g .ra) (sp : f .sp = g .sp) (upper : upperRegs.map f = upperRegs.map g) : f = g := by
  funext r
  have listed : r = .ra ∨ r = .sp ∨ r ∈ upperRegs := by cases r <;> decide
  rcases listed with rfl | rfl | inside
  · exact ra
  · exact sp
  · exact List.map_inj_left.mp upper r inside

/- The frame holds all of the program. -/
theorem leavesTrap {base : Nat} {d : Hart} (frame : Frame m base h) (code : target h.cpu.pc = h.cpu.pc) (room : (h.cpu.reg .sp).toNat = base + 288)
    (place : (d.cpu.reg .sp).toNat = base) : (leaveTrap (d,m)).1.view = h.view ∧ (leaveTrap (d,m)).2 = m := by
  have fits := (h.cpu.reg .sp).isLt
  generalize ran : runTrap [.plain (.ld .t0 .sp 256),.csrw .sepc .t0,.plain (.ld .t0 .sp 264),.csrw .sstatus .t0] (d,m) = s₁
  obtain ⟨memory,sp,sepc,status,spie,spp⟩ := headRuns (s := (d,m)) place (by omega) ran
  obtain ⟨h₁,m₁⟩ := s₁
  dsimp only at memory sp sepc status spie spp
  subst memory
  have place₁ : (h₁.cpu.reg .sp).toNat = base := by rw [sp,place]
  have one : [Reg.ra].length = 1 := rfl
  have many : upperRegs.length = 29 := rfl
  obtain ⟨c₂,lower,low,others₂⟩ := loadsRun (c := h₁.cpu) (m := m₁) [.ra] 1 (by decide) (by decide) (by rw [place₁,one]; omega)
  rw [place₁,one] at low
  have sp₂ : c₂.reg .sp = h₁.cpu.reg .sp := others₂ .sp (by decide)
  obtain ⟨c₃,upper,high,others₃⟩ := loadsRun (c := c₂) (m := m₁) upperRegs 3 (by decide) (by decide) (by rw [sp₂,place₁,many]; omega)
  rw [sp₂,place₁,many] at high
  have sp₃ : c₃.reg .sp = h₁.cpu.reg .sp := (others₃ .sp (by decide)).trans sp₂
  let c₄ := c₃.set .sp (c₃.reg .sp + BitVec.ofInt 64 288)
  have plain : runCode (loads 1 [.ra] ++ (loads 3 upperRegs ++ [.addi .sp .sp 288])) (h₁.cpu,m₁) = (c₄,m₁) := by
    rw [runAppend,lower,runAppend,upper]
    rfl
  have run : leaveTrap (d,m₁) = runTrap [.sret] (h₁.load c₄,m₁) := by
    rw [leaveTrap,exitParts,runTrapAppend,ran,runTrapAppend,plainRun,plain]
  have top : c₄.reg .sp = h.cpu.reg .sp := by
    have plus : BitVec.ofInt 64 288 = (288 : Word) := by decide
    refine BitVec.eq_of_toNat_eq ?_
    have small : (288 : Word).toNat = 288 := rfl
    rw [setSame,sp₃,plus,BitVec.toNat_add_of_lt (by rw [place₁,small]; omega),place₁,small,room]
  have ra : c₄.reg .ra = h.cpu.reg .ra := by
    rw [setOther (by decide),others₃ .ra (by decide)]
    exact (List.cons.inj low).1.trans frame.ra
  have rest : upperRegs.map c₄.reg = upperRegs.map h.cpu.reg := by
    rw [mapSet (by decide),high]
    exact frame.upper
  have regs := regsSame ra top rest
  obtain ⟨five,eight,others⟩ := sstatusBits { h with cpu := { h.cpu with sie := false }, spie := h.cpu.sie, spp := h.supervisor }
  rw [frame.sepc,code] at sepc
  rw [frame.sstatus] at status spie spp
  rw [five] at spie
  rw [eight] at spp
  have view : (runTrap [.sret] (h₁.load c₄,m₁)).1.view = ⟨c₄.reg,h₁.sepc,h₁.spie,h₁.status &&& ~~~0x122,h₁.spp⟩ := rfl
  refine ⟨?_,?_⟩
  · rw [run,view,regs,sepc,spie,spp,status,others]
    rfl
  · rw [run]
    rfl

/- The traps of the kernel whose handler is at `trapHandler` and returns to `back`. -/
abbrev traps (stvec trapHandler back : Word) : Traps riscv64 where
  Core := Hart
  Cause := Word
  View := View
  cpu := Hart.cpu
  view := Hart.view
  top _ h := h.cpu.reg .sp
  frameBytes := 288
  below := 0
  Answer _ := False
  answered v _ _ := v
  enter scause _ := enterTrap stvec trapHandler back scause
  leave := leaveTrap

theorem trapsLawful (stvec trapHandler back : Word) : (traps stvec trapHandler back).Lawful where
  enters := by
    intro cause kernel h m h' m' entered room i outside
    dsimp only [Traps.base] at *
    have top : (h.cpu.reg .sp).toNat = (h.cpu.reg .sp).toNat - 288 + 288 := by omega
    exact (entersTrap top entered).2.2 i (by omega)
  leaves := by
    intro cause kernel h m d h' m' m'' entered room code place kept
    dsimp only [Traps.base] at *
    have top : (h.cpu.reg .sp).toNat = (h.cpu.reg .sp).toNat - 288 + 288 := by omega
    have frame : Frame m'' _ h := (entersTrap top entered).1.congr fun i above below => kept i above (by omega) id
    exact leavesTrap frame code top place

end
end Mukern.Riscv
