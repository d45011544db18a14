import Mukern.LoaderX86

/-! The entry of `kmain`: the loader runs through to the call, and leaves the memory that
the kernel's runs start from. -/
namespace Mukern.X86
open Buffers LittleEndian Descriptors Blocks

section
variable {words : Words} {va table : Word} {level n : Nat} {w u : Bool}

/- An entry with the flags of the loader's links. -/
theorem walkLink (fits : n < 2 ^ 40) (entry : Memory.entry words table (Memory.index va (level + 1)) = frameAddr n ||| 0x3) :
    Memory.walkFrom words va (level + 1) table w u = Memory.walkFrom words va level (frameAddr n) w false := by
  have present : (frameAddr n ||| 0x3) &&& ptePresent = 1 := entryFlags fits (by decide)
  have single : (frameAddr n ||| 0x3) &&& ptePs = 0 := entryFlags fits (by decide)
  have write : (frameAddr n ||| 0x3) &&& pteWrite = 2 := entryFlags fits (by decide)
  have user : (frameAddr n ||| 0x3) &&& pteUser = 0 := entryFlags fits (by decide)
  rw [Memory.walkFrom,entry]
  dsimp only
  rw [present,single,write,user,entryAddr fits (by decide),if_neg (by decide),if_neg (by simp)]
  congr 1
  · exact Bool.and_true w
  · exact Bool.and_false u

/- An entry with the flags of the loader's pages of 2 MiB. -/
theorem walkLarge (fits : n < 2 ^ 40) (entry : Memory.entry words table (Memory.index va 2) = frameAddr n ||| 0x83) :
    Memory.walkFrom words va 2 table w u = some ⟨n * 4096 / 2 ^ 21 * 2 ^ 21 + va.toNat % 2 ^ 21,w,false⟩ := by
  have present : (frameAddr n ||| 0x83) &&& ptePresent = 1 := entryFlags fits (by decide)
  have large : (frameAddr n ||| 0x83) &&& ptePs = 0x80 := entryFlags fits (by decide)
  have write : (frameAddr n ||| 0x83) &&& pteWrite = 2 := entryFlags fits (by decide)
  have user : (frameAddr n ||| 0x83) &&& pteUser = 0 := entryFlags fits (by decide)
  rw [Memory.walkFrom,entry]
  dsimp only
  rw [present,large,write,user,entryAddr fits (by decide),frameAddrNat fits,if_neg (by decide),if_pos (by decide),if_neg (by decide)]
  have writable : (w && (2 : Word) != 0) = w := Bool.and_true w
  have supervisor : (u && (0 : Word) != 0) = false := Bool.and_false u
  rw [writable,supervisor]

end
section
variable {image : KernelImage} {tables : LoaderTables image}

/- Below the end of the first GiB the tables map every address to itself. -/
theorem walkLoader {m : Bytes} {va : Word} (standing : TablesStand tables m) (low : va.toNat < 2 ^ 30) :
    Memory.walkFrom (wordsOf m) va 4 (frameAddr tables.pml4) true true = some ⟨va.toNat,true,false⟩ := by
  have small : tables.pml4 + 3 < 2 ^ 20 := loaderLow
  have entry {n j : Nat} (k : Nat) (table : n = tables.pml4 + k) (inside : k * 512 + j < 1536) :
      Memory.entry (wordsOf m) (frameAddr n) j = loaderEntry tables.pml4 (k * 512 + j) := by
    have place : n * 4096 / 8 + j = tables.pml4 * 512 + (k * 512 + j) := by omega
    rw [Memory.entry,frameAddrNat (by omega),place]
    exact standing _ inside
  have index (level : Nat) : Memory.index va level = va.toNat / 2 ^ (12 + 9 * (level - 1)) % 512 := indexSlot va level
  have first : Memory.index va 4 = 0 := by
    rw [index]
    omega
  have second : Memory.index va 3 = 0 := by
    rw [index]
    omega
  have third : Memory.index va 2 = va.toNat / 2 ^ 21 := by
    rw [index]
    omega
  have page : loaderEntry tables.pml4 (2 * 512 + va.toNat / 2 ^ 21) = frameAddr (va.toNat / 2 ^ 21 * 512) ||| 0x83 := by
    have number : (2 * 512 + va.toNat / 2 ^ 21 - 1024) * 0x200000 = va.toNat / 2 ^ 21 * 512 * 4096 := by omega
    rw [loaderEntry,if_neg (by omega),if_neg (by omega),if_pos (by omega),number,frameAddr]
  rw [walkLink (n := tables.pml4 + 1) (by omega) (by rw [first,entry 0 (Nat.add_zero _).symm (by decide)]; rfl),
    walkLink (n := tables.pml4 + 2) (by omega) (by rw [second,entry 1 rfl (by decide)]; rfl),
    walkLarge (n := va.toNat / 2 ^ 21 * 512) (by omega) (by rw [third,entry 2 rfl (by omega),page])]
  have whole : va.toNat / 2 ^ 21 * 512 * 4096 / 2 ^ 21 * 2 ^ 21 + va.toNat % 2 ^ 21 = va.toNat := by omega
  rw [whole]

variable (places : BootPlaces tables) {s s' : Boot}

/- Below the end of the first GiB. -/
theorem linearSame {a : Nat} (long : s.long) (four : s.cr4.getLsbD 12 = false) (root : s.cr3.setWidth 64 = frameAddr tables.pml4)
    (standing : TablesStand tables s.memory) (low : a < 2 ^ 30) : s.linear a = some a := by
  have address : (BitVec.ofNat 64 a).toNat = a := by
    rw [BitVec.toNat_ofNat]
    omega
  have small : tables.pml4 + 3 < 2 ^ 20 := loaderLow
  have table : frameAddr tables.pml4 &&& addrMask = frameAddr tables.pml4 := by
    have flagless : frameAddr tables.pml4 ||| 0 = frameAddr tables.pml4 := BitVec.or_zero
    have same : (frameAddr tables.pml4 ||| 0) &&& addrMask = frameAddr tables.pml4 := entryAddr (by omega) (by decide)
    rwa [flagless] at same
  unfold Boot.linear
  split
  · rw [four,long,if_pos (by decide),root,table,walkLoader standing (by rwa [address]),Option.map_some,address]
  · rfl

theorem toCr4Runs {r : Reg} (off : s.cr0.getLsbD 31 = false) : (BootInstr.toCr4 r).exec s = some (s.putCr4 (s.get r)).next := by
  have short : s.long = false := by rw [Boot.long,off]; rfl
  rw [BootInstr.exec,short]
  exact if_neg fun ⟨on,_⟩ => Bool.false_ne_true on

theorem rdmsrRuns (number : s.get .rcx = 0xC0000080) :
    BootInstr.rdmsr.exec s = some ((s.put32 .rax (s.efer.setWidth 32)).put32 .rdx ((s.efer >>> 32).setWidth 32)).next := by
  rw [BootInstr.exec,if_pos number]

theorem wrmsrRuns (number : s.get .rcx = 0xC0000080) (off : s.cr0.getLsbD 31 = false) :
    BootInstr.wrmsr.exec s = some (s.putEfer (s.get .rdx ++ s.get .rax)).next := by
  rw [BootInstr.exec]
  exact if_pos ⟨number,fun on => by rw [off] at on; cases on⟩

theorem toCr0Runs {r : Reg} (guarded : (s.get r).getLsbD 0) (extended : s.cr4.getLsbD 5) : (BootInstr.toCr0 r).exec s = some (s.putCr0 (s.get r)).next := by
  rw [BootInstr.exec,guarded,extended]
  exact if_neg (by simp)

theorem modeRuns (off : s.cr0.getLsbD 31 = false) (guarded : s.cr0.getLsbD 0) :
    ∃ s', runBlock bootMachine (modeCode places) s = some s' ∧ s'.memory = s.memory ∧ s'.cr3 = BitVec.ofNat 32 places.pml4 ∧
      s'.cr0 = s.cr0 ||| 1#32 <<< 31 ∧ s'.cr4 = s.cr4 ||| 1#32 <<< 5 ∧ s'.efer = (s.efer >>> 32).setWidth 32 ++ (s.efer.setWidth 32 ||| 1#32 <<< 8) := by
  refine ⟨_,runCons rfl (runCons rfl (runCons rfl (runCons rfl (runCons (toCr4Runs off) (runCons rfl (runCons (rdmsrRuns ?_) (runCons rfl
    (runCons (wrmsrRuns ?_ off) (runCons rfl (runCons rfl (runCons (toCr0Runs ?_ ?_) runNil))))))))))),rfl,?_,?_,?_,?_⟩
  · simp only [getPut32,getNext,reduceIte]
  · simp only [getPut32,getTest,getNext,reduceIte,reduceCtorEq]
  · simp only [getPut32,getTest,getNext,reduceIte,reduceCtorEq]
    change (s.cr0 ||| 1#32 <<< 31).getLsbD 0 = true
    rw [BitVec.getLsbD_or,guarded]
    rfl
  · change (Boot.get _ .rax).getLsbD 5 = true
    simp only [getPut32,getTest,getNext,reduceIte]
    rw [BitVec.getLsbD_or]
    exact Bool.or_true _
  · change Boot.get _ .rax = _
    simp only [getPut32,getNext,reduceIte]
  · change Boot.get _ .rax = _
    simp only [getPut32,getTest,getNext,reduceIte]
    rfl
  · change Boot.get _ .rax = _
    simp only [getPut32,getTest,getNext,reduceIte]
    rfl
  · change (Boot.get _ .rdx ++ Boot.get _ .rax : Word) = _
    simp only [getPut32,getTest,getNext,reduceIte,reduceCtorEq]
    rfl

/- The memory that the kernel's runs start from. -/
theorem bootWords {m : Bytes} {info : BootInfo} {before : Nat → BitVec 8} (standing : TablesStand tables m) :
    (bootMemory tables info (wordsOf m) before).words = wordsOf m := by
  funext a
  unfold bootMemory
  dsimp only
  split
  · rename_i inside
    have place : tables.pml4 * 512 + (a - tables.pml4 * 512) = a := by omega
    rw [← standing _ (by omega),place]
  · rfl

/- Long mode on the loader's tables, with the table of segments that `lgdt` has loaded. -/
structure LongMode (s : Boot) : Prop where
  long : s.long
  four : s.cr4.getLsbD 12 = false
  root : s.cr3.setWidth 64 = frameAddr tables.pml4
  standing : TablesStand tables s.memory
  gdtr : s.gdtr = (places.gdt64,23)
  segments : Stored s.memory places.gdt64 gdt64Image

section
variable {places}

theorem LongMode.segment {sel : BitVec 16} (mode : LongMode places s) (below : places.gdt64 + 24 ≤ 2 ^ 30) (inside : sel.toNat < 24) :
    s.segment sel = segmentAt s.memory places.gdt64 23 sel.toNat := by
  rw [Boot.segment,mode.gdtr]
  dsimp only
  rw [linearSame mode.long mode.four mode.root mode.standing (by omega),Option.bind_some,Nat.add_sub_cancel]

theorem LongMode.code (mode : LongMode places s) (below : places.gdt64 + 24 ≤ 2 ^ 30) : s.segment 0x08 = some ⟨true,true,false,0⟩ := by
  obtain ⟨stored,_⟩ := storedAppend.mp mode.segments
  obtain ⟨_,code⟩ := storedAppend.mp stored
  rw [bytesLength] at code
  have found : word s.memory (places.gdt64 + 8) = gdt64Code := by
    rw [word,loadStored code (by decide)]
    exact BitVec.ofNat_toNat 64 gdt64Code
  rw [mode.segment below (by decide)]
  change segmentAt s.memory places.gdt64 23 8 = _
  rw [segmentAt,found]
  decide

theorem LongMode.data (mode : LongMode places s) (below : places.gdt64 + 24 ≤ 2 ^ 30) : s.segment 0x10 = some ⟨false,false,true,0⟩ := by
  obtain ⟨_,data⟩ := storedAppend.mp mode.segments
  rw [List.length_append,bytesLength,bytesLength] at data
  have found : word s.memory (places.gdt64 + 16) = gdt64Data := by
    rw [word,loadStored data (by decide)]
    exact BitVec.ofNat_toNat 64 gdt64Data
  rw [mode.segment below (by decide)]
  change segmentAt s.memory places.gdt64 23 16 = _
  rw [segmentAt,found]
  decide

theorem movSegRuns {g : Seg} {sel : BitVec 16} (low : (s.reg .rax).setWidth 16 = sel) (data : s.segment sel = some ⟨false,false,true,0⟩) :
    (BootInstr.movSeg g).exec s = some (s.putSeg g sel).next := by
  rw [BootInstr.exec,low,data]
  exact if_pos ⟨rfl,rfl,rfl⟩

/- `long_mode_start` gives every data register the flat segment. -/
theorem longRuns (mode : LongMode places s) (below : places.gdt64 + 24 ≤ 2 ^ 30) :
    ∃ s', runBlock bootMachine (longCode places) s = some s' ∧ LongMode places s' ∧ s'.memory = s.memory ∧ s'.seg .cs = s.seg .cs ∧
      (∀ g ≠ Seg.cs, s'.seg g = 0x10) ∧ s'.reg .rsp = BitVec.ofNat 64 places.bootStackTop ∧ s'.reg .rbp = 0 := by
  have data := mode.data below
  have low : ((s.reg .rax &&& ~~~0xFFFF ||| (0x10 : BitVec 16).setWidth 64).setWidth 16 : BitVec 16) = 0x10 := by
    have cleared : (~~~0xFFFF : Word).setWidth 16 = 0#16 := by decide
    rw [BitVec.setWidth_or,BitVec.setWidth_and,cleared,BitVec.and_zero,BitVec.zero_or]
    rfl
  refine ⟨_,runCons rfl (runCons (movSegRuns low data) (runCons (movSegRuns low data) (runCons (movSegRuns low data) (runCons (movSegRuns low data)
    (runCons (movSegRuns low data) (runCons rfl (runCons rfl runNil))))))),
    ⟨mode.long,mode.four,mode.root,mode.standing,mode.gdtr,mode.segments⟩,rfl,rfl,?_,?_,?_⟩
  · intro g other
    cases g <;> first | exact absurd rfl other | rfl
  · rfl
  · rfl

end
/- What the boot loader hands over: protected mode without paging, the image in memory
and its bss zero. -/
structure HandOff (s : Boot) : Prop where
  start : s.pc = 0
  flat : s.cr0.getLsbD 31 = false
  guarded : s.cr0.getLsbD 0
  four : s.cr4.getLsbD 12 = false
  zeroed : ∀ i, places.pml4 ≤ i → i < places.pml4 + 3 * 4096 → s.memory i = 0
  segments : Stored s.memory places.gdt64 gdt64Image
  pointer : Stored s.memory places.gdt64Pointer (gdt64PointerImage places.gdt64)

/- What `kmain` is called with. -/
structure KmainEntered (s s' : Boot) : Prop where
  place : s'.pc = kmain
  mode : LongMode places s'
  identity : ∀ a < 2 ^ 30, s'.linear a = some a
  segs : s'.seg .cs = 0x08 ∧ ∀ g ≠ Seg.cs, s'.seg g = 0x10
  stack : s'.reg .rsp = BitVec.ofNat 64 (places.bootStackTop - 8)
  back : word s'.memory (places.bootStackTop - 8) = places.back
  chain : s'.reg .rbp = 0
  boot : ∀ info before, (bootMemory tables info (wordsOf s'.memory) before).words = wordsOf s'.memory
  magic : load s'.memory places.mbMagic 4 = (s.get .rax).toNat
  info : load s'.memory places.mbInfo 4 = (s.get .rbx).toNat
  others : ∀ i, (∀ r ∈ [(places.pml4,3 * 4096),(places.mbMagic,4),(places.mbInfo,4),(places.bootStackTop - 8,8)], i < r.1 ∨ r.1 + r.2 ≤ i) →
    s'.memory i = s.memory i

theorem BootPlaces.bounds : places.pml4 + 3 * 4096 ≤ 2 ^ 30 ∧ places.mbMagic + 4 ≤ 2 ^ 30 ∧ places.mbInfo + 4 ≤ 2 ^ 30 ∧
    places.bootStackTop - 8 + 8 ≤ 2 ^ 30 ∧ places.gdt64 + 24 ≤ 2 ^ 30 ∧ places.gdt64Pointer + 10 ≤ 2 ^ 30 := by
  obtain ⟨tables,magic,info,stack,gdt,pointer,_⟩ := by simpa only [List.forall_mem_cons] using places.below
  exact ⟨tables,magic,info,stack,gdt,pointer⟩

theorem apartOther {a n b k i : Nat} (apart : a + n ≤ b ∨ b + k ≤ a) (inside : b ≤ i ∧ i < b + k) : i < a ∨ a + n ≤ i := by omega

/- What the loader writes leaves the table of segments alone. -/
theorem BootPlaces.clear {i : Nat} (inside : places.gdt64 ≤ i ∧ i < places.gdt64 + 24 ∨ places.gdt64Pointer ≤ i ∧ i < places.gdt64Pointer + 10) :
    (i < places.pml4 ∨ places.pml4 + 3 * 4096 ≤ i) ∧ (i < places.mbMagic ∨ places.mbMagic + 4 ≤ i) ∧ (i < places.mbInfo ∨ places.mbInfo + 4 ≤ i) ∧
      (i < places.bootStackTop - 8 ∨ places.bootStackTop - 8 + 8 ≤ i) := by
  obtain ⟨⟨_,_,_,tg,tp,_⟩,⟨_,_,mg,mp,_⟩,⟨_,ig,ip,_⟩,⟨sg,sp,_⟩,_⟩ := by
    simpa only [List.pairwise_cons,List.forall_mem_cons] using places.apart
  rcases inside with inside | inside
  · exact ⟨apartOther tg inside,apartOther mg inside,apartOther ig inside,apartOther sg inside⟩
  · exact ⟨apartOther tp inside,apartOther mp inside,apartOther ip inside,apartOther sp inside⟩

/- What the loader writes lies apart. -/
theorem BootPlaces.separate : (places.mbMagic + 4 ≤ places.pml4 ∨ places.pml4 + 3 * 4096 ≤ places.mbMagic) ∧
    (places.mbInfo + 4 ≤ places.pml4 ∨ places.pml4 + 3 * 4096 ≤ places.mbInfo) ∧
    (places.bootStackTop - 8 + 8 ≤ places.pml4 ∨ places.pml4 + 3 * 4096 ≤ places.bootStackTop - 8) ∧
    (places.mbMagic + 4 ≤ places.mbInfo ∨ places.mbInfo + 4 ≤ places.mbMagic) ∧
    (places.mbMagic + 4 ≤ places.bootStackTop - 8 ∨ places.bootStackTop - 8 + 8 ≤ places.mbMagic) ∧
    (places.mbInfo + 4 ≤ places.bootStackTop - 8 ∨ places.bootStackTop - 8 + 8 ≤ places.mbInfo) := by
  obtain ⟨⟨tm,ti,ts,_⟩,⟨mi,ms,_⟩,⟨is,_⟩,_⟩ := by
    simpa only [List.pairwise_cons,List.forall_mem_cons] using places.apart
  exact ⟨tm.symm,ti.symm,ts.symm,mi,ms,is⟩

theorem setUpValues (m : Bytes) (magic info : BitVec 32) : Stored (setUp places m magic info) places.mbMagic (bytes 4 magic.toNat) ∧
    Stored (setUp places m magic info) places.mbInfo (bytes 4 info.toNat) := by
  obtain ⟨tm,ti,_,mi,_⟩ := places.separate
  constructor
  · have first : Stored (put m places.mbMagic (bytes 4 magic.toNat)) places.mbMagic (bytes 4 magic.toNat) := putStored
    refine storedKept first fun i low high => ?_
    rw [bytesLength] at high
    rw [setUpSaved places (by omega)]
    exact LittleEndian.putOther (by rw [bytesLength]; omega)
  · have second : Stored (put (put m places.mbMagic (bytes 4 magic.toNat)) places.mbInfo (bytes 4 info.toNat)) places.mbInfo (bytes 4 info.toNat) :=
      putStored
    refine storedKept second fun i low high => ?_
    rw [bytesLength] at high
    exact setUpSaved places (by omega)

/- Paging is on with the tables in place. -/
theorem pagingRuns (hand : HandOff places s) : ∃ s', Steps bootMachine (bootCode places) s s' ∧ s'.pc = 31 ∧
    s'.memory = setUp places s.memory (s.get .rax) (s.get .rbx) ∧ s'.long ∧ s'.cr4.getLsbD 12 = false ∧ s'.cr3.setWidth 64 = frameAddr tables.pml4 := by
  obtain ⟨tablesLow,magicLow,infoLow,_⟩ := places.bounds
  have middle : places.pdpt = places.pml4 + 4096 := rfl
  have lower : places.pd = places.pml4 + 8192 := rfl
  obtain ⟨s₁,ran₁,same₁,memory₁⟩ := startRuns places hand.flat (by omega) (by omega)
  obtain ⟨steps₁,place₁⟩ := blockRuns places [] (startCode places) rfl rfl hand.start ran₁
  have jump : step bootMachine (bootCode places) s₁ = some { s₁ with pc := bootLongMode } := 
    instrStep places (startCode places) (.jmp bootLongMode) rfl place₁ rfl
  obtain ⟨s₂,ran₂,same₂,count,memory₂⟩ := linkRuns places (s := { s₁ with pc := bootLongMode }) (same₁.cr0 ▸ hand.flat) (by omega) (by omega)
  obtain ⟨steps₂,place₂⟩ := blockRuns places (codeToLink places) (linkCode places) rfl rfl rfl ran₂
  have flat₂ : s₂.cr0.getLsbD 31 = false := by
    rw [same₂.cr0]
    exact same₁.cr0 ▸ hand.flat
  have entered : Filling places s₂ 0 s₂ := ⟨place₂,count,⟨rfl,rfl,rfl⟩,rfl⟩
  obtain ⟨s₃,steps₃,filling⟩ := loopSteps (fun k low s => fillTurn places flat₂ (by omega) low) entered
  have cr0 : s₃.cr0 = s.cr0 := filling.computes.cr0.trans (same₂.cr0.trans same₁.cr0)
  have cr4 : s₃.cr4 = s.cr4 := filling.computes.cr4.trans (same₂.cr4.trans same₁.cr4)
  obtain ⟨s₄,ran₄,memory₄,root,mode,extended,lme⟩ := modeRuns places (s := s₃) (cr0 ▸ hand.flat) (cr0 ▸ hand.guarded)
  obtain ⟨steps₄,place₄⟩ := blockRuns places (codeToMode places)
    (modeCode places) rfl rfl filling.place ran₄
  refine ⟨s₄,((steps₁.tail jump).trans steps₂).trans (steps₃.trans steps₄),place₄,?_,?_,?_,?_⟩
  · rw [memory₄,filling.memory,memory₂]
    dsimp only
    rw [memory₁]
    rfl
  · have paging : s₄.cr0.getLsbD 31 = true := by
      rw [mode,BitVec.getLsbD_or]
      exact Bool.or_true _
    have physical : s₄.cr4.getLsbD 5 = true := by
      rw [extended,BitVec.getLsbD_or]
      exact Bool.or_true _
    have enabled : s₄.efer.getLsbD 8 = true := by
      rw [lme,BitVec.getLsbD_append,if_pos (by decide),BitVec.getLsbD_or]
      exact Bool.or_true _
    rw [Boot.long,paging,physical,enabled]
    rfl
  · rw [extended,cr4,BitVec.getLsbD_or,hand.four]
    rfl
  · have upper : places.pml4 = tables.pml4 * 4096 := rfl
    rw [root]
    refine BitVec.eq_of_toNat_eq ?_
    rw [BitVec.toNat_setWidth,placed (by omega),frameAddrNat (by omega)]
    exact Nat.mod_eq_of_lt (by omega)

/- The table of segments is loaded. -/
theorem gdtRuns (hand : HandOff places s) : ∃ s', Steps bootMachine (bootCode places) s s' ∧ s'.pc = 32 ∧ LongMode places s' ∧
    s'.memory = setUp places s.memory (s.get .rax) (s.get .rbx) := by
  obtain ⟨tablesLow,magicLow,infoLow,_,gdtLow,pointerLow⟩ := places.bounds
  obtain ⟨s₁,steps,place,memory,long,four,root⟩ := pagingRuns places hand
  have standing : TablesStand tables s₁.memory := by
    rw [memory]
    exact setUpStands places hand.zeroed places.separate.1 places.separate.2.1
  have segments : Stored s₁.memory places.gdt64 gdt64Image := by
    refine storedKept hand.segments fun i low top => ?_
    obtain ⟨table,first,second,_⟩ := places.clear (i := i) (.inl ⟨low,top⟩)
    rw [memory,setUpOther places table first second]
  have pointer : Stored s₁.memory places.gdt64Pointer (gdt64PointerImage places.gdt64) := by
    refine storedKept hand.pointer fun i low top => ?_
    obtain ⟨table,first,second,_⟩ := places.clear (i := i) (.inr ⟨low,top⟩)
    rw [memory,setUpOther places table first second]
  obtain ⟨limit,base⟩ := storedAppend.mp pointer
  rw [bytesLength] at base
  obtain ⟨base,_⟩ := storedAppend.mp (bytesAppend (m := 4) (n := 4) ▸ base)
  have loads : (BootInstr.lgdt (BitVec.ofNat 32 places.gdt64Pointer)).exec s₁ = some { s₁ with gdtr := (places.gdt64,23) }.next := by
    rw [BootInstr.exec,placed (by omega),linearSame long four root standing (by omega),Option.map_some,loadStored limit (by decide),
      loadStored base (by omega)]
  have here := instrStep places (codeToTable places)
    (.lgdt (BitVec.ofNat 32 places.gdt64Pointer)) rfl place loads
  exact ⟨_,steps.tail here,congrArg (· + 1) place,⟨long,four,root,standing,rfl,segments⟩,memory⟩

/- 64-bit code. -/
theorem longEntered (hand : HandOff places s) : ∃ s', Steps bootMachine (bootCode places) s s' ∧ s'.pc = longModeStart ∧ LongMode places s' ∧
    s'.seg .cs = 0x08 ∧ s'.memory = setUp places s.memory (s.get .rax) (s.get .rbx) := by
  obtain ⟨_,_,_,_,gdtLow,_⟩ := places.bounds
  obtain ⟨s₁,steps,place,mode,memory⟩ := gdtRuns places hand
  have jump : (BootInstr.ljmp 0x08 longModeStart).exec s₁ = some { s₁.putSeg .cs 0x08 with pc := longModeStart } := by
    rw [BootInstr.exec,mode.code gdtLow]
    exact if_pos ⟨rfl,rfl,rfl,mode.long⟩
  have here := instrStep places (codeToTable places ++ [.lgdt (BitVec.ofNat 32 places.gdt64Pointer)]) (.ljmp 0x08 longModeStart) rfl place jump
  exact ⟨_,steps.tail here,rfl,⟨mode.long,mode.four,mode.root,mode.standing,mode.gdtr,mode.segments⟩,rfl,memory⟩

/- From any hand-off the code of the two files calls `kmain` in long mode, with the stack,
the segments and the page tables it relies on, and with what the boot loader left in
`eax` and `ebx`. -/
theorem kmainEntered (hand : HandOff places s) : ∃ s', Steps bootMachine (bootCode places) s s' ∧ KmainEntered places s s' := by
  obtain ⟨_,_,_,stackLow,gdtLow,_⟩ := places.bounds
  obtain ⟨_,_,ts,_,ms,is⟩ := places.separate
  have low : places.bootStackTop - 8 < 2 ^ 30 := by omega
  have high : 8 ≤ places.bootStackTop := Nat.le_trans (by decide) places.stack.2
  have address : (BitVec.ofNat 64 (places.bootStackTop - 8)).toNat = places.bootStackTop - 8 := by
    rw [BitVec.toNat_ofNat]
    omega
  obtain ⟨s₁,steps₁,place₁,mode₁,cs₁,memory₁⟩ := longEntered places hand
  obtain ⟨s₂,ran₂,mode₂,memory₂,cs₂,segs,rsp,rbp⟩ := longRuns mode₁ gdtLow
  obtain ⟨steps₂,place₂⟩ := blockRuns places (codeToLong places) (longCode places) rfl rfl place₁ ran₂
  have top : s₂.reg .rsp - 8 = BitVec.ofNat 64 (places.bootStackTop - 8) := by
    have eight : (8 : Word) = BitVec.ofNat 64 8 := rfl
    rw [rsp,eight,BitVec.ofNat_sub_ofNat_of_le _ _ (by decide) high]
  have call : (BootInstr.call kmain places.back).exec s₂ =
      some { (s₂.put64 .rsp (BitVec.ofNat 64 (places.bootStackTop - 8))).stored (places.bootStackTop - 8) (bytes 8 places.back.toNat) with pc := kmain } := by
    rw [BootInstr.exec,top,address,linearSame mode₂.long mode₂.four mode₂.root mode₂.standing low]
    rfl
  have here := instrStep places (codeToLong places ++ longCode places) (.call kmain places.back) rfl (place₂.trans List.length_append.symm) call
  have values := setUpValues places s.memory (s.get .rax) (s.get .rbx)
  have after : s₂.memory = setUp places s.memory (s.get .rax) (s.get .rbx) := memory₂.trans memory₁
  have mode : LongMode places { (s₂.put64 .rsp (BitVec.ofNat 64 (places.bootStackTop - 8))).stored (places.bootStackTop - 8) (bytes 8 places.back.toNat)
      with pc := kmain } := by
    refine ⟨mode₂.long,mode₂.four,mode₂.root,fun j inside => ?_,mode₂.gdtr,?_⟩
    · have upper : places.pml4 = tables.pml4 * 4096 := rfl
      rw [← mode₂.standing j inside]
      exact wordApart (by omega)
    · refine storedKept mode₂.segments fun i least most => putWordOther ?_
      exact (places.clear (i := i) (.inl ⟨least,most⟩)).2.2.2
  refine ⟨_,(steps₁.trans steps₂).tail here,⟨rfl,mode,?_,?_,?_,?_,?_,?_,?_,?_,?_⟩⟩
  · exact fun a below => linearSame mode.long mode.four mode.root mode.standing below
  · exact ⟨cs₂.trans cs₁,segs⟩
  · rfl
  · exact wordPut
  · exact rbp
  · exact fun info before => bootWords mode.standing
  · refine loadStored (storedKept values.1 fun i least most => ?_)
      (s.get .rax).isLt
    rw [bytesLength] at most
    exact (putWordOther (by omega)).trans (congrFun after i)
  · refine loadStored (storedKept values.2 fun i least most => ?_)
      (s.get .rbx).isLt
    rw [bytesLength] at most
    exact (putWordOther (by omega)).trans (congrFun after i)
  · intro i outside
    obtain ⟨table,first,second,stack,_⟩ := by simpa only [List.forall_mem_cons] using outside
    exact ((putWordOther stack).trans (congrFun after i)).trans (setUpOther places table first second)

/- An image that fits the small tables. -/
def smallBootPlaces : BootPlaces smallTables := ⟨0x108000,0x108004,0x10C000,0x107000,0x107018,0x100200,by decide,by decide,by decide⟩

def smallHandOff : Boot where
  reg := fun
    | .rax => 0x2BADB002
    | .rbx => 0x9500
    | _ => 0
  zero := false
  pc := 0
  seg := fun _ => 0x10
  gdtr := (0,0)
  cr0 := 0x11
  cr3 := 0
  cr4 := 0
  efer := 0
  memory := put (put (fun _ => 0) smallBootPlaces.gdt64 gdt64Image) smallBootPlaces.gdt64Pointer (gdt64PointerImage smallBootPlaces.gdt64)

theorem kmainEnteredSmall : ∃ s', Steps bootMachine (bootCode smallBootPlaces) smallHandOff s' ∧ KmainEntered smallBootPlaces smallHandOff s' := by
  have size : gdt64Image.length = 24 := by rw [gdt64Image]; simp only [List.length_append,bytesLength]
  have pointerSize : (gdt64PointerImage smallBootPlaces.gdt64).length = 10 := by rw [gdt64PointerImage]; simp only [List.length_append,bytesLength]
  refine kmainEntered smallBootPlaces ⟨rfl,by decide,by decide,by decide,fun i low _ => ?_,?_,putStored⟩
  · have above : 0x110000 ≤ i := low
    refine (LittleEndian.putOther (.inr ?_)).trans (LittleEndian.putOther (.inr ?_))
    · rw [pointerSize]
      exact Nat.le_trans (by decide) above
    · rw [size]
      exact Nat.le_trans (by decide) above
  · have first : Stored (put (fun _ => 0) smallBootPlaces.gdt64 gdt64Image) smallBootPlaces.gdt64 gdt64Image := putStored
    refine storedKept first fun i _ high => LittleEndian.putOther (.inl ?_)
    rw [size] at high
    exact Nat.lt_of_lt_of_le high (by decide)

end

end Mukern.X86
