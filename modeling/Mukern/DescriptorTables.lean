import Mukern.TrapX86
import Mukern.Library.Descriptors

/-! `gdt.c` and `idt.c`: the descriptor tables byte by byte, and what the processor makes
of them when Ring 3 is interrupted. -/
namespace Mukern.X86
open Buffers LittleEndian Descriptors

structure IdtEntry where
  offLow : BitVec 16
  selector : BitVec 16
  ist : BitVec 8
  typeAttr : BitVec 8
  offMid : BitVec 16
  offHigh : BitVec 32
  zero : BitVec 32

/- `struct idt_entry`, packed. -/
def IdtEntry.image (e : IdtEntry) : List (BitVec 8) :=
  bytes 2 e.offLow.toNat ++ bytes 2 e.selector.toNat ++ bytes 1 e.ist.toNat ++ bytes 1 e.typeAttr.toNat ++ bytes 2 e.offMid.toNat ++
    bytes 4 e.offHigh.toNat ++ bytes 4 e.zero.toNat

def idtGateInt64 : BitVec 8 := 0x8E
def idtGateUser : BitVec 8 := 0xEE
def numStubs : Nat := 48

def IdtEntry.leading (handler : Word) (sel : BitVec 16) (flags : BitVec 8) : IdtEntry :=
  { offLow := (handler &&& 0xFFFF).setWidth 16, selector := sel, ist := 0, typeAttr := flags,
    offMid := ((handler >>> 16) &&& 0xFFFF).setWidth 16, offHigh := ((handler >>> 32) &&& 0xFFFFFFFF).setWidth 32, zero := 0 }

def idtSetGate (idt : Nat → IdtEntry) (n : Nat) (handler : Word) (sel : BitVec 16) (flags : BitVec 8) : Nat → IdtEntry :=
  Function.update idt n (.leading handler sel flags)

/- The table is zero when the kernel starts. -/
def idtInit (isrStubTable : Nat → Word) (isrSyscall : Word) : Nat → IdtEntry :=
  let idt := (List.range numStubs).foldl (fun idt i => idtSetGate idt i (isrStubTable i) 0x08 idtGateInt64) fun _ => ⟨0,0,0,0,0,0,0⟩
  idtSetGate idt 0x80 isrSyscall 0x08 idtGateUser

def idtImage (idt : Nat → IdtEntry) : List (BitVec 8) := (List.range 256).flatMap fun n => (idt n).image

structure Tss where
  reserved0 : BitVec 32
  rsp0 : Word
  rsp1 : Word
  rsp2 : Word
  reserved1 : Word
  ist : Fin 7 → Word
  reserved2 : Word
  reserved3 : BitVec 16
  iomapBase : BitVec 16

/- `struct tss`, packed. -/
def Tss.image (t : Tss) : List (BitVec 8) :=
  bytes 4 t.reserved0.toNat ++ bytes 8 t.rsp0.toNat ++ bytes 8 t.rsp1.toNat ++ bytes 8 t.rsp2.toNat ++ bytes 8 t.reserved1.toNat ++
    (List.finRange 7).flatMap (fun i => bytes 8 (t.ist i).toNat) ++ bytes 8 t.reserved2.toNat ++ bytes 2 t.reserved3.toNat ++ bytes 2 t.iomapBase.toNat

/- `sizeof(tss)`. -/
def tssSize : Nat := 104

def tssInit : Tss := ⟨0,0,0,0,0,fun _ => 0,0,0,BitVec.ofNat 16 tssSize⟩

def archSetKernelStack (tss : Tss) (rsp0 : Word) : Tss := { tss with rsp0 := rsp0 }

/- `lo` of `set_tss_desc`. -/
def tssDescLo (base : Word) (limit : BitVec 32) : Word :=
  let lo : Word := (limit &&& 0xFFFF).setWidth 64
  let lo := lo ||| (base &&& 0xFFFFFF) <<< 16
  let lo := lo ||| (0x89 : Word) <<< 40
  let lo := lo ||| ((limit >>> 16) &&& 0xF).setWidth 64 <<< 48
  lo ||| ((base >>> 24) &&& 0xFF) <<< 56

def setTssDesc (gdt : Nat → Word) (idx : Nat) (base : Word) (limit : BitVec 32) : Nat → Word :=
  Function.update (Function.update gdt idx (tssDescLo base limit)) (idx + 1) ((base >>> 32) &&& 0xFFFFFFFF)

def gdtInit (tss : Word) : Nat → Word :=
  let gdt : Nat → Word := fun
    | 1 => (1 <<< 43) ||| (1 <<< 44) ||| (1 <<< 47) ||| (1 <<< 53)
    | 2 => (1 <<< 41) ||| (1 <<< 44) ||| (1 <<< 47)
    | 3 => (1 <<< 43) ||| (1 <<< 44) ||| (1 <<< 47) ||| (1 <<< 53) ||| (3 <<< 45)
    | 4 => (1 <<< 41) ||| (1 <<< 44) ||| (1 <<< 47) ||| (3 <<< 45)
    | _ => 0
  setTssDesc gdt 5 tss (BitVec.ofNat 32 (tssSize - 1))

def gdtImage (gdt : Nat → Word) : List (BitVec 8) := (List.range 7).flatMap fun n => bytes 8 (gdt n).toNat

section
variable {m : Bytes} {place n : Nat} {e : IdtEntry} {idt : Nat → IdtEntry} {handler base rsp0 : Word} {sel : BitVec 16} {flags : BitVec 8}

theorem entrySize (e : IdtEntry) : e.image.length = 16 := by simp [IdtEntry.image]

theorem entryLoads (stored : Stored m place e.image) : load m place 2 = e.offLow.toNat ∧ load m (place + 2) 2 = e.selector.toNat ∧
    load m (place + 4) 1 = e.ist.toNat ∧ load m (place + 5) 1 = e.typeAttr.toNat ∧ load m (place + 6) 2 = e.offMid.toNat ∧
    load m (place + 8) 4 = e.offHigh.toNat := by
  obtain ⟨stored,_⟩ := storedAppend.mp stored
  obtain ⟨stored,high⟩ := storedAppend.mp stored
  obtain ⟨stored,mid⟩ := storedAppend.mp stored
  obtain ⟨stored,attr⟩ := storedAppend.mp stored
  obtain ⟨stored,ist⟩ := storedAppend.mp stored
  obtain ⟨low,selector⟩ := storedAppend.mp stored
  simp only [List.length_append,bytesLength] at high mid attr ist selector
  exact ⟨loadStored low e.offLow.isLt,loadStored selector e.selector.isLt,loadStored ist e.ist.isLt,loadStored attr e.typeAttr.isLt,
    loadStored mid e.offMid.isLt,loadStored high e.offHigh.isLt⟩

/- The gate that `idt_set_gate` writes. -/
theorem gateSet (stored : Stored m place (IdtEntry.leading handler sel flags).image) : gateAt m place =
    ⟨handler.toNat,sel.toNat,0,flags.toNat % 16,flags.toNat / 32 % 4,flags.toNat / 128 = 1⟩ := by
  obtain ⟨low,selector,ist,attr,mid,high⟩ := entryLoads stored
  have mask16 : (0xFFFF : Word) = BitVec.ofNat 64 (2 ^ 16 - 1) := rfl
  have mask32 : (0xFFFFFFFF : Word) = BitVec.ofNat 64 (2 ^ 32 - 1) := rfl
  have fits := handler.isLt
  rw [IdtEntry.leading,mask16,BitVec.toNat_setWidth,masked (by decide)] at low mid
  rw [IdtEntry.leading,mask32,BitVec.toNat_setWidth,masked (by decide)] at high
  rw [BitVec.toNat_ushiftRight,Nat.shiftRight_eq_div_pow] at mid high
  have whole : load m place 2 + load m (place + 6) 2 * 2 ^ 16 + load m (place + 8) 4 * 2 ^ 32 = handler.toNat := by
    rw [low,mid,high]
    omega
  rw [gateAt,whole,selector,ist,attr]
  rfl

theorem gateUnset (stored : Stored m place (IdtEntry.image ⟨0,0,0,0,0,0,0⟩)) : gateAt m place = ⟨0,0,0,0,0,false⟩ := by
  obtain ⟨low,selector,ist,attr,mid,high⟩ := entryLoads stored
  rw [gateAt,low,selector,ist,attr,mid,high]
  rfl

theorem stubGates (stubs : Nat → Word) (idt : Nat → IdtEntry) (count : Nat) :
    (List.range count).foldl (fun idt i => idtSetGate idt i (stubs i) sel flags) idt n = if n < count then .leading (stubs n) sel flags else idt n := by
  induction count with
  | zero => rfl
  | succ count ih =>
    rw [List.range_succ,List.foldl_append,List.foldl_cons,List.foldl_nil,idtSetGate,Function.update_apply]
    by_cases last : n = count
    · rw [if_pos last,if_pos (by omega),last]
    · rw [if_neg last,ih]
      exact if_congr (by omega) rfl rfl

theorem idtInitIs (stubs : Nat → Word) (syscall : Word) : idtInit stubs syscall n =
    if n = 0x80 then .leading syscall 0x08 idtGateUser else if n < 48 then .leading (stubs n) 0x08 idtGateInt64 else ⟨0,0,0,0,0,0,0⟩ := by
  rw [idtInit,idtSetGate,Function.update_apply,stubGates]
  rfl

/- The 256 gates that the processor finds. -/
theorem gatesAre {base : Nat} {stubs : Nat → Word} {syscall : Word} (stored : Stored m base (idtImage (idtInit stubs syscall))) (inside : n < 256) :
    gateAt m (base + 16 * n) = if n = 0x80 then ⟨syscall.toNat,0x08,0,14,3,true⟩ else if n < 48 then ⟨(stubs n).toNat,0x08,0,14,0,true⟩ else ⟨0,0,0,0,0,false⟩ := by
  have block := storedBlock (i := n) (fun n _ => entrySize (idtInit stubs syscall n)) stored (by rwa [List.length_range])
  rw [List.getElem_range,idtInitIs] at block
  split at block
  · rename_i call
    rw [if_pos call,gateSet block]
    rfl
  · rename_i other
    rw [if_neg other]
    split at block
    · rename_i stub
      rw [if_pos stub,gateSet block]
      rfl
    · rename_i none
      rw [if_neg none,gateUnset block]

theorem tssDescLow (base : Word) (limit : BitVec 32) : (tssDescLo base limit).toNat =
    limit.toNat % 2 ^ 16 + base.toNat % 2 ^ 24 * 2 ^ 16 + 0x89 * 2 ^ 40 + limit.toNat / 2 ^ 16 % 2 ^ 4 * 2 ^ 48 + base.toNat / 2 ^ 24 % 2 ^ 8 * 2 ^ 56 := by
  have one : ((limit &&& 0xFFFF).setWidth 64 : Word).toNat = limit.toNat % 2 ^ 16 := by
    have mask : (0xFFFF : BitVec 32).toNat = 2 ^ 16 - 1 := rfl
    rw [BitVec.toNat_setWidth,BitVec.toNat_and,mask,Nat.and_two_pow_sub_one_eq_mod]
    omega
  have two : (base &&& 0xFFFFFF).toNat = base.toNat % 2 ^ 24 := @masked 24 base (by decide)
  have three : (0x89 : Word).toNat = 0x89 := rfl
  have four : (((limit >>> 16) &&& 0xF).setWidth 64 : Word).toNat = limit.toNat / 2 ^ 16 % 2 ^ 4 := by
    have mask : (0xF : BitVec 32).toNat = 2 ^ 4 - 1 := rfl
    rw [BitVec.toNat_setWidth,BitVec.toNat_and,mask,Nat.and_two_pow_sub_one_eq_mod,BitVec.toNat_ushiftRight,Nat.shiftRight_eq_div_pow]
    omega
  have five : ((base >>> 24) &&& 0xFF).toNat = base.toNat / 2 ^ 24 % 2 ^ 8 := by
    have part : ((base >>> 24) &&& 0xFF).toNat = (base >>> 24).toNat % 2 ^ 8 := @masked 8 _ (by decide)
    rw [part,BitVec.toNat_ushiftRight,Nat.shiftRight_eq_div_pow]
  unfold tssDescLo
  dsimp only
  generalize ((limit &&& 0xFFFF).setWidth 64 : Word) = a at *
  generalize base &&& 0xFFFFFF = b at *
  generalize (0x89 : Word) = c at *
  generalize (((limit >>> 16) &&& 0xF).setWidth 64 : Word) = d at *
  generalize (base >>> 24) &&& 0xFF = e at *
  have ab : (a ||| b <<< 16).toNat = a.toNat + b.toNat * 2 ^ 16 := joined (by omega) (by omega)
  have abc : (a ||| b <<< 16 ||| c <<< 40).toNat = (a ||| b <<< 16).toNat + c.toNat * 2 ^ 40 := joined (by omega) (by omega)
  have abcd : (a ||| b <<< 16 ||| c <<< 40 ||| d <<< 48).toNat = (a ||| b <<< 16 ||| c <<< 40).toNat + d.toNat * 2 ^ 48 := joined (by omega) (by omega)
  have whole : (a ||| b <<< 16 ||| c <<< 40 ||| d <<< 48 ||| e <<< 56).toNat = (a ||| b <<< 16 ||| c <<< 40 ||| d <<< 48).toNat + e.toNat * 2 ^ 56 :=
    joined (by omega) (by omega)
  rw [whole,abcd,abc,ab,one,two,three,four,five]

/- The fields of the task segment's descriptor. -/
theorem tssDescriptor (gdt : Nat → Word) (idx : Nat) (base : Word) (limit : BitVec 32) (small : limit.toNat < 2 ^ 20) :
    let lo := setTssDesc gdt idx base limit idx
    let hi := setTssDesc gdt idx base limit (idx + 1)
    field lo 16 24 + field lo 56 8 * 2 ^ 24 + field hi 0 32 * 2 ^ 32 = base.toNat ∧ field lo 0 16 + field lo 48 4 * 2 ^ 16 = limit.toNat ∧
      field lo 40 5 = 9 ∧ field lo 47 1 = 1 ∧ field lo 55 1 = 0 := by
  intro lo hi
  have low : lo = tssDescLo base limit := (Function.update_of_ne (Nat.ne_of_lt (Nat.lt_succ_self idx)) _ _).trans (Function.update_self ..)
  have high : hi.toNat = base.toNat / 2 ^ 32 % 2 ^ 32 := by
    have part : ((base >>> 32) &&& 0xFFFFFFFF).toNat = (base >>> 32).toNat % 2 ^ 32 := @masked 32 _ (by decide)
    have upper : hi = (base >>> 32) &&& 0xFFFFFFFF := Function.update_self (idx + 1) _ _
    rw [upper,part,BitVec.toNat_ushiftRight,Nat.shiftRight_eq_div_pow]
  have fits := base.isLt
  have lowBase : base.toNat % 2 ^ 24 + base.toNat / 2 ^ 24 % 2 ^ 8 * 2 ^ 24 + base.toNat / 2 ^ 32 % 2 ^ 32 * 2 ^ 32 = base.toNat := by omega
  have lowLimit : limit.toNat % 2 ^ 16 + limit.toNat / 2 ^ 16 % 2 ^ 4 * 2 ^ 16 = limit.toNat := by omega
  have bounds : limit.toNat % 2 ^ 16 < 2 ^ 16 ∧ base.toNat % 2 ^ 24 < 2 ^ 24 ∧ limit.toNat / 2 ^ 16 % 2 ^ 4 < 2 ^ 4 ∧ base.toNat / 2 ^ 24 % 2 ^ 8 < 2 ^ 8 ∧
      base.toNat / 2 ^ 32 % 2 ^ 32 < 2 ^ 32 := by omega
  unfold field
  rw [low,high,tssDescLow]
  clear high low small fits
  generalize limit.toNat % 2 ^ 16 = a at *
  generalize base.toNat % 2 ^ 24 = b at *
  generalize limit.toNat / 2 ^ 16 % 2 ^ 4 = c at *
  generalize base.toNat / 2 ^ 24 % 2 ^ 8 = d at *
  generalize base.toNat / 2 ^ 32 % 2 ^ 32 = e at *
  -- what each field is cut from
  have at16 : (a + b * 2 ^ 16 + 0x89 * 2 ^ 40 + c * 2 ^ 48 + d * 2 ^ 56) / 2 ^ 16 = b + (0x89 + c * 2 ^ 8 + d * 2 ^ 16) * 2 ^ 24 := by omega
  have at40 : (a + b * 2 ^ 16 + 0x89 * 2 ^ 40 + c * 2 ^ 48 + d * 2 ^ 56) / 2 ^ 40 = 9 + (4 + c * 2 ^ 3 + d * 2 ^ 11) * 2 ^ 5 := by omega
  have at47 : (a + b * 2 ^ 16 + 0x89 * 2 ^ 40 + c * 2 ^ 48 + d * 2 ^ 56) / 2 ^ 47 = 1 + (c + d * 2 ^ 8) * 2 := by omega
  have at48 : (a + b * 2 ^ 16 + 0x89 * 2 ^ 40 + c * 2 ^ 48 + d * 2 ^ 56) / 2 ^ 48 = c + d * 2 ^ 4 * 2 ^ 4 := by omega
  have at55 : (a + b * 2 ^ 16 + 0x89 * 2 ^ 40 + c * 2 ^ 48 + d * 2 ^ 56) / 2 ^ 55 = d * 2 := by omega
  have at56 : (a + b * 2 ^ 16 + 0x89 * 2 ^ 40 + c * 2 ^ 48 + d * 2 ^ 56) / 2 ^ 56 = d := by omega
  have at0 : a + b * 2 ^ 16 + 0x89 * 2 ^ 40 + c * 2 ^ 48 + d * 2 ^ 56 = a + (b + 0x89 * 2 ^ 24 + c * 2 ^ 32 + d * 2 ^ 40) * 2 ^ 16 := by omega
  obtain ⟨lowA,lowB,lowC,lowD,lowE⟩ := bounds
  rw [at16,at40,at47,at48,at55,at56,Nat.pow_zero,Nat.div_one,Nat.div_one,at0,Nat.add_mul_mod_self_right,Nat.add_mul_mod_self_right,
    Nat.add_mul_mod_self_right,Nat.add_mul_mod_self_right,Nat.mod_eq_of_lt lowA,Nat.mod_eq_of_lt lowB,
    Nat.mod_eq_of_lt lowC,Nat.mod_eq_of_lt lowD,Nat.mod_eq_of_lt lowE]
  exact ⟨lowBase,lowLimit,rfl,Nat.add_mul_mod_self_right 1 _ 2,Nat.mul_mod_left d 2⟩

end

/- Where the linker has put the tables. -/
structure TablePlaces where
  idt : Word
  gdt : Word
  tss : Word

/- Memory holds the tables as `gdt_init`, `idt_init` and `arch_set_kernel_stack` leave them. -/
structure TablesStored (m : Bytes) (places : TablePlaces) (isrStubTable : Nat → Word) (isrSyscall rsp0 : Word) : Prop where
  idt : Stored m places.idt.toNat (idtImage (idtInit isrStubTable isrSyscall))
  gdt : Stored m places.gdt.toNat (gdtImage (gdtInit places.tss))
  tss : Stored m places.tss.toNat (archSetKernelStack tssInit rsp0).image

/- `idtr`, and the limit of `gdtr`. -/
def idtr (places : TablePlaces) : GateTable := ⟨places.idt.toNat,256 * 16 - 1⟩
def gdtLimit : Nat := 7 * 8 - 1

/- The selectors of `gdt.h`. -/
def selKcode : Nat := 0x08
def selKdata : Nat := 0x10
def selUcode : Nat := 0x18
def selUdata : Nat := 0x20
def selTss : Nat := 0x28

theorem idtSized (idt : Nat → IdtEntry) : (idtImage idt).length = 4096 := by
  have blocks : (fun n => (idt n).image.length) = fun _ => 16 := funext fun n => entrySize _
  rw [idtImage,List.length_flatMap,blocks,List.map_const',List.sum_replicate_nat,List.length_range]

theorem gdtSized (gdt : Nat → Word) : (gdtImage gdt).length = 56 := by simp [gdtImage,List.length_flatMap]

/- What the processor is interrupted with. -/
def causeOf (e : Entry) : Cause := ⟨e.vec,BitVec.ofNat 64 e.err,BitVec.ofNat 64 e.gate.offset⟩

section
variable {m : Bytes} {places : TablePlaces} {stubs : Nat → Word} {syscall rsp0 : Word} {n : Nat}

theorem quadIs (stored : TablesStored m places stubs syscall rsp0) (inside : n < 7) :
    word m (places.gdt.toNat + 8 * n) = gdtInit places.tss n := by
  have block := storedBlock (i := n) (fun n _ => bytesLength (n := 8) (v := (gdtInit places.tss n).toNat)) stored.gdt (by rwa [List.length_range])
  rw [List.getElem_range] at block
  rw [word,loadStored block (gdtInit places.tss n).isLt]
  exact BitVec.ofNat_toNat 64 _

theorem tssSized (t : Tss) : t.image.length = tssSize := by simp [Tss.image,tssSize]

/- `rsp0` and `iomap_base` in memory. -/
theorem tssLoads {t : Tss} {place : Nat} (stored : Stored m place t.image) :
    word m (place + 4) = t.rsp0 ∧ load m (place + 102) 2 = t.iomapBase.toNat := by
  obtain ⟨stored,map⟩ := storedAppend.mp stored
  obtain ⟨stored,_⟩ := storedAppend.mp stored
  obtain ⟨stored,_⟩ := storedAppend.mp stored
  obtain ⟨stored,_⟩ := storedAppend.mp stored
  obtain ⟨stored,_⟩ := storedAppend.mp stored
  obtain ⟨stored,_⟩ := storedAppend.mp stored
  obtain ⟨stored,_⟩ := storedAppend.mp stored
  obtain ⟨_,rsp0⟩ := storedAppend.mp stored
  have flat : ((List.finRange 7).flatMap fun i => bytes 8 (t.ist i).toNat).length = 56 := by simp
  simp only [List.length_append,bytesLength,flat] at map rsp0
  refine ⟨?_,loadStored map t.iomapBase.isLt⟩
  rw [word,loadStored rsp0 t.rsp0.isLt]
  exact BitVec.ofNat_toNat 64 _

/- The segments of Ring 0 and of Ring 3. -/
theorem segmentsFound (stored : TablesStored m places stubs syscall rsp0) :
    segmentAt m places.gdt.toNat gdtLimit selKcode = some ⟨true,true,false,0⟩ ∧ segmentAt m places.gdt.toNat gdtLimit selKdata = some ⟨false,false,true,0⟩ ∧
      segmentAt m places.gdt.toNat gdtLimit (selUcode ||| 3) = some ⟨true,true,false,3⟩ ∧
      segmentAt m places.gdt.toNat gdtLimit (selUdata ||| 3) = some ⟨false,false,true,3⟩ := by
  have found {n sel : Nat} (index : sel / 8 * 8 = 8 * n) (low : n < 5) : word m (places.gdt.toNat + sel / 8 * 8) = gdtInit 0 n := by
    have other : n ≠ 5 ∧ n ≠ 6 := by omega
    have same : gdtInit places.tss n = gdtInit 0 n := by
      unfold gdtInit setTssDesc
      rw [Function.update_of_ne other.2,Function.update_of_ne other.1,Function.update_of_ne other.2,Function.update_of_ne other.1]
    rw [index,quadIs stored (by omega),same]
  refine ⟨?_,?_,?_,?_⟩ <;> unfold segmentAt
  · rw [found (n := 1) (by decide) (by decide)]
    decide
  · rw [found (n := 2) (by decide) (by decide)]
    decide
  · rw [found (n := 3) (by decide) (by decide)]
    decide
  · rw [found (n := 4) (by decide) (by decide)]
    decide

/- The task register names the task segment, in which the permissions of the ports begin
behind its end. -/
theorem taskFound (stored : TablesStored m places stubs syscall rsp0) :
    taskAt m places.gdt.toNat gdtLimit selTss = some ⟨places.tss.toNat,tssSize - 1⟩ := by
  have lo : word m (places.gdt.toNat + 40) = gdtInit places.tss 5 := quadIs stored (n := 5) (by decide)
  have hi : word m (places.gdt.toNat + 48) = gdtInit places.tss 6 := quadIs stored (n := 6) (by decide)
  obtain ⟨base,limit,kind,present,small⟩ := tssDescriptor _ 5 places.tss (BitVec.ofNat 32 (tssSize - 1)) (by decide)
  change taskAt m places.gdt.toNat gdtLimit 40 = _
  unfold taskAt
  rw [lo,hi]
  dsimp only
  unfold gdtInit
  rw [if_pos ⟨by decide,.inl kind,present,small⟩,base,limit]
  rfl

theorem stackFound (stored : TablesStored m places stubs syscall rsp0) : (⟨places.tss.toNat,tssSize - 1⟩ : TaskSegment).stack m = rsp0 :=
  (tssLoads stored.tss).1

theorem portsClosed (stored : TablesStored m places stubs syscall rsp0) (port width : Nat) :
    (⟨places.tss.toNat,tssSize - 1⟩ : TaskSegment).allows m 3 0 port width = false := by
  obtain ⟨_,map⟩ := tssLoads stored.tss
  have base : (archSetKernelStack tssInit rsp0).iomapBase.toNat = 104 := rfl
  have beyond : ¬ 104 + port / 8 + 1 ≤ tssSize - 1 := by
    unfold tssSize
    omega
  unfold TaskSegment.allows
  rw [map,base]
  dsimp only
  rw [decide_eq_false beyond,Bool.false_and]
  rfl

theorem stubAdmits (stored : TablesStored m places stubs syscall rsp0) (inside : n < 48) (cpl err : Nat) :
    (idtr places).hardware m cpl n err = some ⟨n,err,⟨(stubs n).toNat,0x08,0,14,0,true⟩⟩ := by
  have gate := gatesAre stored.idt (by omega : n < 256)
  rw [if_neg (by omega),if_pos inside] at gate
  have fits : ¬ (256 * 16 - 1 < 16 * n + 15) := by omega
  have admits : (idtr places).refuses m cpl false n = none := by
    unfold GateTable.refuses idtr
    dsimp only
    rw [gate,if_neg fits]
    rfl
  unfold GateTable.hardware
  rw [if_pos admits]
  exact congrArg (fun gate => some (Entry.mk n err gate)) gate

/- `int n` in Ring 3 goes through the gate of the system calls, or it is #GP. -/
theorem callAdmits (stored : TablesStored m places stubs syscall rsp0) (inside : n < 256) : (idtr places).software m 3 n =
    some (if n = 0x80 then ⟨0x80,0,⟨syscall.toNat,0x08,0,14,3,true⟩⟩ else ⟨13,8 * n + 2,⟨(stubs 13).toNat,0x08,0,14,0,true⟩⟩) := by
  have gate := gatesAre stored.idt inside
  have fits : ¬ (256 * 16 - 1 < 16 * n + 15) := by omega
  have refuses : (idtr places).refuses m 3 true n = if n = 0x80 then none else some 13 := by
    unfold GateTable.refuses idtr
    dsimp only
    rw [gate,if_neg fits]
    split
    · rfl
    · split <;> rfl
  unfold GateTable.software
  rw [refuses]
  by_cases call : n = 0x80
  · rw [if_pos call] at gate ⊢
    rw [if_pos call]
    subst call
    exact congrArg (fun gate => some (Entry.mk 0x80 0 gate)) gate
  · rw [if_neg call,if_neg call]
    exact stubAdmits stored (by decide) 3 (8 * n + 2)

/- Whatever `int n` Ring 3 executes, `isr_handler` gets its registers on the stack that
`arch_set_kernel_stack` has set last, with vector 0x80 for that `n` alone and #GP for every
other; exceptions and interrupt lines reach their own stubs, and no port is open to Ring 3. -/
theorem userInterrupts (stored : TablesStored m places stubs syscall rsp0) (room : 184 ≤ (rsp0 &&& ~~~15).toNat) :
    ∃ task, taskAt m places.gdt.toNat gdtLimit selTss = some task ∧ (∀ port width, task.allows m 3 0 port width = false) ∧
      (∀ n < 256, ∃ e, (idtr places).software m 3 n = some e ∧ e.vec = (if n = 0x80 then 0x80 else 13) ∧
        segmentAt m places.gdt.toNat gdtLimit e.gate.selector = some ⟨true,true,false,0⟩ ∧
        ∀ (c : Core) isrHandler back, c.user → let s := enterTrap isrHandler back (causeOf e) (task.stack m) (c,m)
          s.1.cpu.rip = isrHandler ∧ s.1.cpu.interrupts = false ∧ words s.2 ((rsp0 &&& ~~~15).toNat - 176) 22 = trapframe c (causeOf e)) ∧
      ∀ v < 48, ∀ cpl err, ∃ e, (idtr places).hardware m cpl v err = some e ∧ causeOf e = ⟨v,BitVec.ofNat 64 err,stubs v⟩ := by
  refine ⟨_,taskFound stored,portsClosed stored,fun n inside => ⟨_,callAdmits stored inside,?_,?_,fun c isrHandler back user => ?_⟩,
    fun v inside cpl err => ⟨_,stubAdmits stored inside cpl err,?_⟩⟩
  · split <;> rfl
  · have kcode := (segmentsFound stored).1
    split <;> exact kcode
  · have top : frameTop rsp0 c = rsp0 &&& ~~~15 := by rw [frameTop,if_pos user]
    have fits : 184 ≤ (frameTop rsp0 c).toNat := by rwa [top]
    rw [stackFound stored]
    generalize entered : enterTrap isrHandler back _ rsp0 (c,m) = s
    obtain ⟨frame,⟨rip,_,_,masked⟩,_⟩ := entersTrap fits entered
    rw [top] at frame
    exact ⟨rip,masked,frame⟩
  · exact congrArg (Cause.mk v (BitVec.ofNat 64 err)) (BitVec.ofNat_toNat 64 (stubs v))

/- The tables of a small kernel. -/
def smallPlaces : TablePlaces := ⟨0x1000,0x2000,0x3000⟩

def smallStubs (n : Nat) : Word := BitVec.ofNat 64 (0x108000 + 16 * n)

def smallTableBytes : Bytes :=
  put (put (put (fun _ => 0) 0x1000 (idtImage (idtInit smallStubs 0x109000))) 0x2000 (gdtImage (gdtInit 0x3000))) 0x3000
    (archSetKernelStack tssInit 0x204000).image

theorem userInterruptsSmall : ∃ e, (idtr smallPlaces).software smallTableBytes 3 3 = some e ∧ e.vec = 13 := by
  have idtPlace : smallPlaces.idt.toNat = 0x1000 := rfl
  have gdtPlace : smallPlaces.gdt.toNat = 0x2000 := rfl
  have stored : TablesStored smallTableBytes smallPlaces smallStubs 0x109000 0x204000 := by
    refine ⟨?_,?_,putStored⟩
    · have here : Stored (put (fun _ => 0) 0x1000 (idtImage (idtInit smallStubs 0x109000))) 0x1000 (idtImage (idtInit smallStubs 0x109000)) := putStored
      refine Eq.trans (readCongr fun i low high => ?_) here
      rw [idtPlace,idtSized] at high
      exact (LittleEndian.putOther (.inl (by omega))).trans (LittleEndian.putOther (.inl (by omega)))
    · have here : Stored (put (put (fun _ => 0) 0x1000 (idtImage (idtInit smallStubs 0x109000))) 0x2000 (gdtImage (gdtInit 0x3000))) 0x2000
        (gdtImage (gdtInit 0x3000)) := putStored
      refine Eq.trans (readCongr fun i low high => ?_) here
      rw [gdtPlace,gdtSized] at high
      exact LittleEndian.putOther (.inl (by omega))
  obtain ⟨_,_,_,calls,_⟩ := userInterrupts stored (by decide)
  obtain ⟨e,found,vec,_⟩ := calls 3 (by decide)
  exact ⟨e,found,vec⟩

end
end Mukern.X86
