import Mukern.DescriptorTables
import Mukern.VmUpdates
import Mukern.Library.Blocks

/-! `arch/x86_64/boot/header.S` and `loader.S` instruction by instruction: from the hand-off
of the boot loader to the call of `kmain`. -/
namespace Mukern.X86
open Buffers LittleEndian Descriptors Blocks

inductive Seg where
  | cs | ds | es | fs | gs | ss
  deriving DecidableEq

/- The processor from protected mode on. `gdtr` is base and limit; of `efer` only the
instructions of this file are modelled. -/
structure Boot where
  reg : Reg → Word
  zero : Bool
  pc : Nat
  seg : Seg → BitVec 16
  gdtr : Nat × Nat
  cr0 : BitVec 32
  cr3 : BitVec 32
  cr4 : BitVec 32
  efer : Word
  memory : Bytes

/- Memory as the page walk reads it. -/
def wordsOf (m : Bytes) : Words := fun a => word m (8 * a)

inductive BootInstr where
  | movl (v : BitVec 32) (r : Reg)
  | store (r : Reg) (a : BitVec 32)                 -- movl %r, a
  | orl (v : BitVec 32) (r : Reg)
  | xorl (r : Reg)                                  -- xorl %r, %r
  | mull (r : Reg)
  | storeScaled (r : Reg) (base : BitVec 32) (i : Reg)  -- movl %r, base(, %i, 8)
  | clearScaled (base : BitVec 32) (i : Reg)        -- movl $0, base(, %i, 8)
  | incl (r : Reg)
  | cmpl (v : BitVec 32) (r : Reg)
  | jmp (target : Nat)
  | jne (target : Nat)
  | toCr3 (r : Reg)
  | fromCr4 (r : Reg)
  | toCr4 (r : Reg)
  | fromCr0 (r : Reg)
  | toCr0 (r : Reg)
  | rdmsr
  | wrmsr
  | lgdt (a : BitVec 32)
  | ljmp (sel : BitVec 16) (target : Nat)
  | movw (v : BitVec 16)                            -- movw $v, %ax
  | movSeg (s : Seg)                                -- movw %ax, %s
  | leaq (a : Word) (r : Reg)
  | xorq (r : Reg)
  | call (target : Nat) (back : Word)

namespace Boot

def get (s : Boot) (r : Reg) : BitVec 32 := (s.reg r).setWidth 32

def put64 (s : Boot) (r : Reg) (v : Word) : Boot := { s with reg := Function.update s.reg r v }

/- The upper half of a 64-bit register reads as zero after a 32-bit result. -/
def put32 (s : Boot) (r : Reg) (v : BitVec 32) : Boot := s.put64 r (v.setWidth 64)

def test (s : Boot) (z : Bool) : Boot := { s with zero := z }

def putCr0 (s : Boot) (v : BitVec 32) : Boot := { s with cr0 := v }

def putCr3 (s : Boot) (v : BitVec 32) : Boot := { s with cr3 := v }

def putCr4 (s : Boot) (v : BitVec 32) : Boot := { s with cr4 := v }

def putEfer (s : Boot) (v : Word) : Boot := { s with efer := v }

def next (s : Boot) : Boot := { s with pc := s.pc + 1 }

/- Long mode is active. -/
def long (s : Boot) : Bool := s.cr0.getLsbD 31 && s.cr4.getLsbD 5 && s.efer.getLsbD 8

/- The physical address of a linear one; paging with two levels or with five is not modelled. -/
def linear (s : Boot) (a : Nat) : Option Nat :=
  if s.cr0.getLsbD 31 then
    if s.long && !s.cr4.getLsbD 12 then (Memory.walkFrom (wordsOf s.memory) (BitVec.ofNat 64 a) 4 (s.cr3.setWidth 64 &&& addrMask) true true).map Memory.Translation.pa
    else none
  else some a

def putSeg (s : Boot) (g : Seg) (sel : BitVec 16) : Boot := { s with seg := Function.update s.seg g sel }

def stored (s : Boot) (pa : Nat) (run : List (BitVec 8)) : Boot := { s with memory := put s.memory pa run }

def store32 (s : Boot) (a v : BitVec 32) : Option Boot := (s.linear a.toNat).map fun pa => (s.stored pa (bytes 4 v.toNat)).next

def segment (s : Boot) (sel : BitVec 16) : Option Segment :=
  (s.linear (s.gdtr.1 + sel.toNat / 8 * 8)).bind fun pa => segmentAt s.memory (pa - sel.toNat / 8 * 8) s.gdtr.2 sel.toNat

end Boot

/- `none` is a fault. -/
def BootInstr.exec (s : Boot) : BootInstr → Option Boot
  | .movl v r => some (s.put32 r v).next
  | .store r a => s.store32 a (s.get r)
  | .orl v r => some ((s.put32 r (s.get r ||| v)).test (s.get r ||| v = 0)).next
  | .xorl r => some ((s.put32 r 0).test true).next
  | .mull r =>
    let product := (s.get .rax).toNat * (s.get r).toNat
    some ((s.put32 .rax (BitVec.ofNat 32 product)).put32 .rdx (BitVec.ofNat 32 (product / 2 ^ 32))).next
  | .storeScaled r base i => s.store32 (base + s.get i * 8) (s.get r)
  | .clearScaled base i => s.store32 (base + s.get i * 8) 0
  | .incl r => some ((s.put32 r (s.get r + 1)).test (s.get r + 1 = 0)).next
  | .cmpl v r => some (s.test (s.get r = v)).next
  | .jmp target => some { s with pc := target }
  | .jne target => some { s with pc := if s.zero then s.pc + 1 else target }
  | .toCr3 r => some (s.putCr3 (s.get r)).next
  | .fromCr4 r => some (s.put32 r s.cr4).next
  | .toCr4 r => if s.long ∧ (s.get r).getLsbD 5 = false then none else some (s.putCr4 (s.get r)).next
  | .fromCr0 r => some (s.put32 r s.cr0).next
  | .toCr0 r =>
    if (s.get r).getLsbD 31 ∧ ((s.get r).getLsbD 0 = false ∨ s.efer.getLsbD 8 ∧ s.cr4.getLsbD 5 = false) then none
    else some (s.putCr0 (s.get r)).next
  | .rdmsr =>
    if s.get .rcx = 0xC0000080 then some ((s.put32 .rax (s.efer.setWidth 32)).put32 .rdx ((s.efer >>> 32).setWidth 32)).next else none
  | .wrmsr =>
    let efer : Word := s.get .rdx ++ s.get .rax
    if s.get .rcx = 0xC0000080 ∧ (s.cr0.getLsbD 31 → efer.getLsbD 8 = s.efer.getLsbD 8) then some (s.putEfer efer).next else none
  | .lgdt a => (s.linear a.toNat).map fun pa => { s with gdtr := (load s.memory (pa + 2) 4,load s.memory pa 2) }.next
  | .ljmp sel target =>
    match s.segment sel with
    | some seg => if seg.code ∧ seg.long ∧ seg.dpl = 0 ∧ s.long then some { s.putSeg .cs sel with pc := target } else none
    | none => none
  | .movw v => some (s.put64 .rax (s.reg .rax &&& ~~~0xFFFF ||| v.setWidth 64)).next
  | .movSeg g =>
    match s.segment ((s.reg .rax).setWidth 16) with
    | some seg =>
      if seg.code = false ∧ seg.writable ∧ seg.dpl = 0 then some (s.putSeg g ((s.reg .rax).setWidth 16)).next else none
    | none => none
  | .leaq a r => some (s.put64 r a).next
  | .xorq r => some ((s.put64 r 0).test true).next
  | .call target back =>
    let sp := s.reg .rsp - 8
    (s.linear sp.toNat).map fun pa => { (s.put64 .rsp sp).stored pa (bytes 8 back.toNat) with pc := target }

def bootMachine : Machine Boot BootInstr := ⟨Boot.pc,fun i s => i.exec s⟩

def gdt64Code : Word := (1 <<< 43) ||| (1 <<< 44) ||| (1 <<< 47) ||| (1 <<< 53)
def gdt64Data : Word := (1 <<< 41) ||| (1 <<< 44) ||| (1 <<< 47)

/- The bytes at `gdt64` and at `gdt64_pointer`. -/
def gdt64Image : List (BitVec 8) := bytes 8 0 ++ bytes 8 gdt64Code.toNat ++ bytes 8 gdt64Data.toNat
def gdt64PointerImage (gdt64 : Nat) : List (BitVec 8) := bytes 2 23 ++ bytes 8 gdt64

/- Where the linker has put what the code names, below the end of the identity map. -/
structure BootPlaces {image : KernelImage} (tables : LoaderTables image) where
  mbMagic : Nat
  mbInfo : Nat
  bootStackTop : Nat
  gdt64 : Nat
  gdt64Pointer : Nat
  back : Word
  apart : [(tables.pml4 * 4096,3 * 4096),(mbMagic,4),(mbInfo,4),(bootStackTop - 8,8),(gdt64,24),(gdt64Pointer,10)].Pairwise
    fun r s => r.1 + r.2 ≤ s.1 ∨ s.1 + s.2 ≤ r.1
  below : ∀ r ∈ [(tables.pml4 * 4096,3 * 4096),(mbMagic,4),(mbInfo,4),(bootStackTop - 8,8),(gdt64,24),(gdt64Pointer,10)], r.1 + r.2 ≤ 2 ^ 30
  stack : bootStackTop % 16 = 0 ∧ 16384 ≤ bootStackTop

section
variable {image : KernelImage} {tables : LoaderTables image} (places : BootPlaces tables)

def BootPlaces.pml4 (_ : BootPlaces tables) : Nat := tables.pml4 * 4096
def BootPlaces.pdpt (_ : BootPlaces tables) : Nat := tables.pml4 * 4096 + 4096
def BootPlaces.pd (_ : BootPlaces tables) : Nat := tables.pml4 * 4096 + 8192

/- `_start`. -/
def startCode : List BootInstr :=
  [.movl (BitVec.ofNat 32 places.bootStackTop) .rsp,.store .rax (BitVec.ofNat 32 places.mbMagic),.store .rbx (BitVec.ofNat 32 places.mbInfo)]

/- `boot_long_mode` up to `.fill_pd`. -/
def linkCode : List BootInstr :=
  [.movl (BitVec.ofNat 32 places.pdpt) .rax,.orl 0x3 .rax,.store .rax (BitVec.ofNat 32 places.pml4),
    .movl (BitVec.ofNat 32 places.pd) .rax,.orl 0x3 .rax,.store .rax (BitVec.ofNat 32 places.pdpt),
    .xorl .rcx]

/- A turn of `.fill_pd` up to the jump. -/
def fillCode : List BootInstr :=
  [.movl 0x200000 .rax,.mull .rcx,.orl 0x83 .rax,.storeScaled .rax (BitVec.ofNat 32 places.pd) .rcx,
    .clearScaled (BitVec.ofNat 32 (places.pd + 4)) .rcx,.incl .rcx,.cmpl 512 .rcx]

/- From CR3 on until paging is on. -/
def modeCode : List BootInstr :=
  [.movl (BitVec.ofNat 32 places.pml4) .rax,.toCr3 .rax,
    .fromCr4 .rax,.orl (1#32 <<< 5) .rax,.toCr4 .rax,
    .movl 0xC0000080 .rcx,.rdmsr,.orl (1#32 <<< 8) .rax,.wrmsr,
    .fromCr0 .rax,.orl (1#32 <<< 31) .rax,.toCr0 .rax]

/- `long_mode_start` up to the call. -/
def longCode : List BootInstr :=
  [.movw 0x10,.movSeg .ds,.movSeg .es,.movSeg .fs,.movSeg .gs,.movSeg .ss,
    .leaq (BitVec.ofNat 64 places.bootStackTop) .rsp,.xorq .rbp]

/- The labels. -/
def bootLongMode : Nat := 4
def fillPd : Nat := 11
def longModeStart : Nat := 33

/- `kmain` stands behind the code of the two files. -/
def kmain : Nat := 42

def codeToLink : List BootInstr := startCode places ++ [BootInstr.jmp bootLongMode]
def codeToFill : List BootInstr := codeToLink places ++ linkCode places
def codeToMode : List BootInstr := codeToFill places ++ fillCode places ++ [BootInstr.jne fillPd]
def codeToTable : List BootInstr := codeToMode places ++ modeCode places
def codeToLong : List BootInstr := codeToTable places ++ [BootInstr.lgdt (BitVec.ofNat 32 places.gdt64Pointer),BootInstr.ljmp 0x08 longModeStart]

/- `_start`, `boot_long_mode` and `long_mode_start`. -/
def bootCode : List BootInstr := codeToLong places ++ longCode places ++ [BootInstr.call kmain places.back]

/- The instruction goes on with the next one. -/
def BootInstr.goesOn : BootInstr → Bool
  | .jmp _ | .jne _ | .ljmp _ _ | .call _ _ => false
  | _ => true

theorem plainGoes {i : BootInstr} (on : i.goesOn) : Sequential bootMachine i := by
  intro s s' ran
  change i.exec s = some s' at ran
  change s'.pc = s.pc + 1
  cases i with
  | jmp _ | jne _ | ljmp _ _ | call _ _ => cases on
  | store _ _ | storeScaled _ _ _ | clearScaled _ _ | lgdt _ =>
    obtain ⟨pa,_,rfl⟩ := Option.map_eq_some_iff.mp ran
    rfl
  | toCr4 _ | toCr0 _ | rdmsr | wrmsr =>
    unfold BootInstr.exec at ran
    dsimp only at ran
    split at ran <;> cases ran
    rfl
  | movSeg _ =>
    unfold BootInstr.exec at ran
    dsimp only at ran
    split at ran
    · split at ran <;> cases ran
      rfl
    · cases ran
  | _ =>
    cases ran
    rfl

variable {s s' : Boot}

theorem blockRuns (before block : List BootInstr) {after : List BootInstr} (split : bootCode places = before ++ block ++ after)
    (on : block.all BootInstr.goesOn = true) (place : s.pc = before.length) (ran : runBlock bootMachine block s = some s') :
    Steps bootMachine (bootCode places) s s' ∧ s'.pc = before.length + block.length :=
  blockSteps split (fun i member => plainGoes (List.all_eq_true.mp on i member)) place ran

theorem instrStep (before : List BootInstr) (i : BootInstr) {after : List BootInstr} (split : bootCode places = before ++ i :: after)
    (place : s.pc = before.length) (ran : i.exec s = some s') : step bootMachine (bootCode places) s = some s' :=
  (stepAt (M := bootMachine) (i := i) place split).trans ran

/- Without paging a linear address is a physical one. -/
theorem flat (off : s.cr0.getLsbD 31 = false) (a : Nat) : s.linear a = some a := by
  rw [Boot.linear,off]
  rfl

section
variable {v : BitVec 32} {r r' : Reg} {z : Bool} {pa : Nat} {run : List (BitVec 8)}

@[simp] theorem getPut32 : (s.put32 r v).get r' = if r' = r then v else s.get r' := by
  change BitVec.setWidth 32 (Function.update s.reg r (v.setWidth 64) r') = _
  rw [Function.update_apply]
  split
  · rw [BitVec.setWidth_setWidth_of_le _ (by decide),BitVec.setWidth_eq]
  · rfl

@[simp] theorem getTest : (s.test z).get r = s.get r := rfl

@[simp] theorem getNext : s.next.get r = s.get r := rfl

@[simp] theorem getStored : (s.stored pa run).get r = s.get r := rfl

@[simp] theorem getPutCr0 : (s.putCr0 v).get r = s.get r := rfl

@[simp] theorem getPutCr3 : (s.putCr3 v).get r = s.get r := rfl

@[simp] theorem getPutCr4 : (s.putCr4 v).get r = s.get r := rfl

@[simp] theorem getPutEfer {w : Word} : (s.putEfer w).get r = s.get r := rfl

@[simp] theorem memoryPut32 : (s.put32 r v).memory = s.memory := rfl

@[simp] theorem memoryTest : (s.test z).memory = s.memory := rfl

@[simp] theorem memoryNext : s.next.memory = s.memory := rfl

@[simp] theorem memoryStored : (s.stored pa run).memory = put s.memory pa run := rfl

@[simp] theorem zeroTest : (s.test z).zero = z := rfl

@[simp] theorem zeroNext : s.next.zero = s.zero := rfl

end
theorem placed {n : Nat} (low : n < 2 ^ 32) : (BitVec.ofNat 32 n).toNat = n := by rw [BitVec.toNat_ofNat,Nat.mod_eq_of_lt low]

/- A store while paging is off. -/
theorem storeFlat {a v : BitVec 32} (off : s.cr0.getLsbD 31 = false) :
    s.store32 a v = some (s.stored a.toNat (bytes 4 v.toNat)).next := by
  rw [Boot.store32,flat off]
  rfl

theorem runNil : runBlock bootMachine [] s = some s := rfl

theorem runCons {i : BootInstr} {block : List BootInstr} {s₁ : Boot} (one : i.exec s = some s₁) (rest : runBlock bootMachine block s₁ = some s') :
    runBlock bootMachine (i :: block) s = some s' := by
  rw [runBlock,List.foldlM_cons]
  exact Option.bind_eq_some_iff.mpr ⟨s₁,one,rest⟩

/- Only registers, the zero flag, the counter and memory may differ. -/
structure Computes (s s' : Boot) : Prop where
  cr0 : s'.cr0 = s.cr0
  cr4 : s'.cr4 = s.cr4
  efer : s'.efer = s.efer

theorem startRuns (off : s.cr0.getLsbD 31 = false) (magic : places.mbMagic < 2 ^ 32) (info : places.mbInfo < 2 ^ 32) :
    ∃ s', runBlock bootMachine (startCode places) s = some s' ∧ Computes s s' ∧
      s'.memory = put (put s.memory places.mbMagic (bytes 4 (s.get .rax).toNat)) places.mbInfo (bytes 4 (s.get .rbx).toNat) := by
  refine ⟨_,runCons rfl (runCons (storeFlat off) (runCons (storeFlat off) runNil)),⟨rfl,rfl,rfl⟩,?_⟩
  simp [placed magic,placed info]

theorem linkRuns (off : s.cr0.getLsbD 31 = false) (first : places.pml4 < 2 ^ 32) (second : places.pdpt < 2 ^ 32) :
    ∃ s', runBlock bootMachine (linkCode places) s = some s' ∧ Computes s s' ∧ s'.get .rcx = 0 ∧
      s'.memory = put (put s.memory places.pml4 (bytes 4 (BitVec.ofNat 32 places.pdpt ||| 0x3).toNat)) places.pdpt
        (bytes 4 (BitVec.ofNat 32 places.pd ||| 0x3).toNat) := by
  refine ⟨_,runCons rfl (runCons rfl (runCons (storeFlat off) (runCons rfl (runCons rfl (runCons (storeFlat off) (runCons rfl runNil)))))),
    ⟨rfl,rfl,rfl⟩,?_,?_⟩
  · simp
  · simp [placed first,placed second]

/- The page directory after `k` turns of `.fill_pd`. -/
def filled (pd : Nat) (m : Bytes) : Nat → Bytes
  | 0 => m
  | k + 1 => put (put (filled pd m k) (pd + 8 * k) (bytes 4 (BitVec.ofNat 32 (0x200000 * k) ||| 0x83).toNat)) (pd + 4 + 8 * k) (bytes 4 0)

theorem scaledPlace {k : Nat} (base : Nat) (low : k < 512) (fits : base + 4096 < 2 ^ 32) :
    (BitVec.ofNat 32 base + BitVec.ofNat 32 k * 8).toNat = base + 8 * k := by
  have eight : (8 : BitVec 32).toNat = 8 := rfl
  rw [BitVec.toNat_add,BitVec.toNat_mul,BitVec.toNat_ofNat,BitVec.toNat_ofNat,eight]
  omega

/- A turn of `.fill_pd` enters one page. -/
theorem fillRuns {k : Nat} (off : s.cr0.getLsbD 31 = false) (fits : places.pd + 4100 < 2 ^ 32) (low : k < 512) (count : s.get .rcx = BitVec.ofNat 32 k) :
    ∃ s', runBlock bootMachine (fillCode places) s = some s' ∧ Computes s s' ∧ s'.get .rcx = BitVec.ofNat 32 (k + 1) ∧
      s'.zero = decide (k + 1 = 512) ∧
      s'.memory = put (put s.memory (places.pd + 8 * k) (bytes 4 (BitVec.ofNat 32 (0x200000 * k) ||| 0x83).toNat)) (places.pd + 4 + 8 * k) (bytes 4 0) := by
  have factor : (0x200000 : BitVec 32).toNat = 0x200000 := rfl
  have turn : (BitVec.ofNat 32 k).toNat = k := placed (by omega)
  have counted : BitVec.ofNat 32 k + 1 = BitVec.ofNat 32 (k + 1) := (BitVec.ofNat_add k 1).symm
  refine ⟨_,runCons rfl (runCons rfl (runCons rfl (runCons (storeFlat off) (runCons (storeFlat off) (runCons rfl (runCons rfl runNil)))))),
    ⟨rfl,rfl,rfl⟩,?_,?_,?_⟩
  · simp only [count,counted,getPut32,getTest,getNext,getStored,reduceIte,reduceCtorEq]
  · simp only [count,counted,getPut32,getTest,getNext,getStored,zeroTest,zeroNext,reduceIte,reduceCtorEq]
    refine decide_eq_decide.mpr ⟨fun same => ?_,fun same => by rw [same]; rfl⟩
    have number := congrArg BitVec.toNat same
    rw [placed (by omega)] at number
    exact number
  · simp only [count,getPut32,getTest,getNext,getStored,memoryPut32,memoryTest,memoryNext,memoryStored,reduceIte,reduceCtorEq,
      scaledPlace places.pd low (by omega),scaledPlace (places.pd + 4) low (by omega),factor,turn]
    rfl

theorem Computes.trans {s'' : Boot} (first : Computes s s') (second : Computes s' s'') : Computes s s'' :=
  ⟨second.cr0.trans first.cr0,second.cr4.trans first.cr4,second.efer.trans first.efer⟩

/- At `.fill_pd` after `k` turns, behind the loop after the last. -/
structure Filling (s₀ : Boot) (k : Nat) (s : Boot) : Prop where
  place : s.pc = if k = 512 then 19 else fillPd
  count : s.get .rcx = BitVec.ofNat 32 k
  computes : Computes s₀ s
  memory : s.memory = filled places.pd s₀.memory k

theorem fillTurn {s₀ : Boot} {k : Nat} (off : s₀.cr0.getLsbD 31 = false) (fits : places.pd + 4100 < 2 ^ 32) (low : k < 512) (filling : Filling places s₀ k s) :
    ∃ s', Steps bootMachine (bootCode places) s s' ∧ Filling places s₀ (k + 1) s' := by
  obtain ⟨s₁,ran,computes,count,zero,memory⟩ := fillRuns places (by rw [filling.computes.cr0]; exact off) fits low filling.count
  have place : s.pc = fillPd := filling.place.trans (if_neg (by omega))
  obtain ⟨steps,last⟩ := blockRuns places (codeToFill places) (fillCode places) rfl rfl place ran
  have last : s₁.pc = 18 := last
  have jump : step bootMachine (bootCode places) s₁ = some { s₁ with pc := if s₁.zero then s₁.pc + 1 else fillPd } :=
    instrStep places (codeToFill places ++ fillCode places) (.jne fillPd) rfl last rfl
  refine ⟨_,steps.tail jump,?_,count,filling.computes.trans ⟨computes.cr0,computes.cr4,computes.efer⟩,?_⟩
  · dsimp only
    rw [zero,last]
    by_cases done : k + 1 = 512
    · rw [if_pos done,decide_eq_true done]
      rfl
    · rw [if_neg done,decide_eq_false done]
      rfl
  · dsimp only
    rw [memory,filling.memory]
    rfl

/- Bytes that are zero. -/
theorem clearStored {m : Bytes} {lo : Nat} (clear : ∀ i, lo ≤ i → i < lo + 4 → m i = 0) : Stored m lo (bytes 4 0) := readCongr (b := fun _ => 0) clear

section
variable {m : Bytes} {pd k : Nat}

theorem filledOther {i : Nat} (outside : i < pd ∨ pd + 8 * k ≤ i) : filled pd m k i = m i := by
  induction k with
  | zero => rfl
  | succ k ih =>
    rw [filled,LittleEndian.putOther (by rw [bytesLength]; omega),LittleEndian.putOther (by rw [bytesLength]; omega)]
    exact ih (by omega)

theorem filledPage {j : Nat} (inside : j < k) : word (filled pd m k) (pd + 8 * j) = (BitVec.ofNat 32 (0x200000 * j) ||| 0x83).setWidth 64 := by
  induction k with
  | zero => cases inside
  | succ k ih =>
    by_cases last : j = k
    · subst last
      have place : pd + 8 * j + 4 = pd + 4 + 8 * j := by omega
      refine wordHalves (storedKept putStored fun i _ high => LittleEndian.putOther ?_) (by rw [place]; exact putStored)
      rw [bytesLength] at high
      omega
    · have earlier : j < k := by omega
      rw [← ih earlier]
      refine wordCongr fun i low high => ?_
      rw [filled,LittleEndian.putOther (by rw [bytesLength]; omega),LittleEndian.putOther (by rw [bytesLength]; omega)]

end
/- The three tables as `kmain` needs them. -/
def TablesStand (tables : LoaderTables image) (m : Bytes) : Prop := ∀ j < 1536, wordsOf m (tables.pml4 * 512 + j) = loaderEntry tables.pml4 j

/- The two tables that lead to the page directory. -/
def linked (m : Bytes) : Bytes :=
  put (put m places.pml4 (bytes 4 (BitVec.ofNat 32 places.pdpt ||| 0x3).toNat)) places.pdpt (bytes 4 (BitVec.ofNat 32 places.pd ||| 0x3).toNat)

/- Memory when paging is switched on. -/
def setUp (m : Bytes) (magic info : BitVec 32) : Bytes :=
  filled places.pd (linked places (put (put m places.mbMagic (bytes 4 magic.toNat)) places.mbInfo (bytes 4 info.toNat))) 512

theorem widened {n : Nat} {v : BitVec 32} (low : n < 2 ^ 32) : (BitVec.ofNat 32 n ||| v).setWidth 64 = BitVec.ofNat 64 n ||| v.setWidth 64 := by
  rw [BitVec.setWidth_or]
  congr 1
  refine BitVec.eq_of_toNat_eq ?_
  rw [BitVec.toNat_setWidth,BitVec.toNat_ofNat,BitVec.toNat_ofNat]
  omega

/- Outside the tables only the two saved words are written. -/
theorem setUpSaved {m : Bytes} {magic info : BitVec 32} {i : Nat} (table : i < places.pml4 ∨ places.pml4 + 3 * 4096 ≤ i) :
    setUp places m magic info i = put (put m places.mbMagic (bytes 4 magic.toNat)) places.mbInfo (bytes 4 info.toNat) i := by
  have middle : places.pdpt = places.pml4 + 4096 := rfl
  have lower : places.pd = places.pml4 + 8192 := rfl
  rw [setUp,filledOther (by omega),linked,LittleEndian.putOther (by rw [bytesLength]; omega),LittleEndian.putOther (by rw [bytesLength]; omega)]

theorem setUpOther {m : Bytes} {magic info : BitVec 32} {i : Nat} (table : i < places.pml4 ∨ places.pml4 + 3 * 4096 ≤ i)
    (first : i < places.mbMagic ∨ places.mbMagic + 4 ≤ i) (second : i < places.mbInfo ∨ places.mbInfo + 4 ≤ i) : setUp places m magic info i = m i := by
  rw [setUpSaved places table,LittleEndian.putOther (by rw [bytesLength]; exact second),LittleEndian.putOther (by rw [bytesLength]; exact first)]

theorem linkedFirst {m : Bytes} : Stored (linked places m) places.pml4 (bytes 4 (BitVec.ofNat 32 places.pdpt ||| 0x3).toNat) := by
  have first : Stored (put m places.pml4 (bytes 4 (BitVec.ofNat 32 places.pdpt ||| 0x3).toNat)) places.pml4
      (bytes 4 (BitVec.ofNat 32 places.pdpt ||| 0x3).toNat) := putStored
  refine storedKept first fun i _ top => LittleEndian.putOther (.inl ?_)
  rw [bytesLength] at top
  have middle : places.pdpt = places.pml4 + 4096 := rfl
  omega

theorem linkedOther {m : Bytes} {i : Nat} (first : i < places.pml4 ∨ places.pml4 + 4 ≤ i) (second : i < places.pdpt ∨ places.pdpt + 4 ≤ i) :
    linked places m i = m i := by
  rw [linked,LittleEndian.putOther (by rw [bytesLength]; exact second),LittleEndian.putOther (by rw [bytesLength]; exact first)]

theorem setUpStands {m : Bytes} {magic info : BitVec 32} (zeroed : ∀ i, places.pml4 ≤ i → i < places.pml4 + 3 * 4096 → m i = 0)
    (first : places.mbMagic + 4 ≤ places.pml4 ∨ places.pml4 + 3 * 4096 ≤ places.mbMagic)
    (second : places.mbInfo + 4 ≤ places.pml4 ∨ places.pml4 + 3 * 4096 ≤ places.mbInfo) : TablesStand tables (setUp places m magic info) := by
  have small : tables.pml4 + 3 < 2 ^ 20 := loaderLow
  have upper : places.pml4 = tables.pml4 * 4096 := rfl
  have middle : places.pdpt = places.pml4 + 4096 := rfl
  have lower : places.pd = places.pml4 + 8192 := rfl
  intro j inside
  have place : 8 * (tables.pml4 * 512 + j) = places.pml4 + 8 * j := by omega
  rw [wordsOf,place]
  generalize before : put (put m places.mbMagic (bytes 4 magic.toNat)) places.mbInfo (bytes 4 info.toNat) = m₀
  have clear : ∀ i, places.pml4 ≤ i → i < places.pml4 + 3 * 4096 → m₀ i = 0 := by
    intro i low high
    rw [← before,LittleEndian.putOther (by rw [bytesLength]; omega),LittleEndian.putOther (by rw [bytesLength]; omega)]
    exact zeroed i low high
  -- the bytes below the page directory are the two entries and zeros
  have below {lo : Nat} {run : List (BitVec 8)} (stored : Stored (linked places m₀) lo run) (inside : lo + run.length ≤ places.pd) :
      Stored (setUp places m magic info) lo run := by
    refine storedKept stored fun i _ top => ?_
    rw [setUp,before]
    exact filledOther (.inl (by omega))
  have outside {lo : Nat} (low : places.pml4 ≤ lo) (high : lo + 4 ≤ places.pd) (first : lo + 4 ≤ places.pml4 ∨ places.pml4 + 4 ≤ lo)
      (second : lo + 4 ≤ places.pdpt ∨ places.pdpt + 4 ≤ lo) : Stored (setUp places m magic info) lo (bytes 4 0) := by
    refine below (clearStored fun i _ top => ?_) high
    rw [linkedOther places (by omega) (by omega)]
    exact clear i (by omega) (by omega)
  unfold loaderEntry
  split
  · rename_i zero
    rw [zero,Nat.mul_zero,Nat.add_zero,wordHalves (below (linkedFirst places) (by rw [bytesLength]; omega))
      (outside (by omega) (by omega) (by omega) (by omega)),widened (by omega)]
    have address : places.pdpt = (tables.pml4 + 1) * 4096 := by omega
    rw [address]
    rfl
  split
  · rename_i second
    have place : places.pml4 + 8 * 512 = places.pdpt := by omega
    rw [second,place,wordHalves (below putStored (by rw [bytesLength]; omega)) (outside (by omega) (by omega) (by omega) (by omega)),
      widened (by omega)]
    have address : places.pd = (tables.pml4 + 2) * 4096 := by omega
    rw [address]
    rfl
  split
  · have page : places.pml4 + 8 * j = places.pd + 8 * (j - 1024) := by omega
    rw [page,setUp,filledPage (by omega),widened (by omega),Nat.mul_comm]
    rfl
  · exact wordHalves (v := 0) (outside (by omega) (by omega) (by omega) (by omega)) (outside (by omega) (by omega) (by omega) (by omega))

end

end Mukern.X86
