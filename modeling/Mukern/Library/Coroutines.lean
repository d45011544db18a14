import Mukern.Library.LittleEndian

/-! Tasks on one processor with one memory. Each task owns a stack and a cell in which
its stack pointer waits. A switch leaves the registers of one task in a frame on the
stack of that task and takes the registers of the next from such a frame; a task that
never ran finds one that was planted. -/
namespace Coroutines
open Buffers LittleEndian

/- An instruction set with its code for switching and for planting a frame. -/
structure Isa where
  Cpu : Type
  pc : Cpu → BitVec 64
  sp : Cpu → BitVec 64
  saved : Cpu → List (BitVec 64)                         -- the callee-saved registers
  Code : BitVec 64 → Prop                                -- where an instruction may start
  frameBytes : Nat
  slots : Nat
  frame : (saved : List (BitVec 64)) → (pc : BitVec 64) → List (BitVec 64)
  fresh : (fn arg : BitVec 64) → List (BitVec 64)        -- what a new task finds in those registers
  parameter : Cpu → BitVec 64                            -- where a function finds its argument
  switch : (old new ret : BitVec 64) → Cpu × Bytes → Cpu × Bytes
  plant : (entry top fn arg : BitVec 64) → Bytes → Bytes × BitVec 64
  launch : (back : BitVec 64) → Cpu × Bytes → Cpu × Bytes   -- from the entry of a new task to its function

/- What a task that is off the processor will find again. -/
structure Waiting where
  pc : BitVec 64
  sp : BitVec 64
  saved : List (BitVec 64)

theorem subNat {x : BitVec 64} {n : Nat} (le : n ≤ x.toNat) : (x - BitVec.ofNat 64 n).toNat = x.toNat - n := by
  have small : (BitVec.ofNat 64 n).toNat = n := by
    rw [BitVec.toNat_ofNat,Nat.mod_eq_of_lt (Nat.lt_of_le_of_lt le x.isLt)]
  rw [BitVec.toNat_sub_of_le (BitVec.le_def.mpr (by rwa [small])),small]

namespace Isa
variable (isa : Isa)

/- The frame lies below the stack pointer, its words from the bottom on. -/
structure Lawful : Prop where
  slotsInside : 8 * isa.slots ≤ isa.frameBytes
  saves : ∀ {c m old new ret} {c' : isa.Cpu} {m' : Bytes}, isa.switch old new ret (c,m) = (c',m') → isa.frameBytes ≤ (isa.sp c).toNat →
    old.toNat + 8 ≤ (isa.sp c).toNat - isa.frameBytes ∨ (isa.sp c).toNat ≤ old.toNat →
    words m' ((isa.sp c).toNat - isa.frameBytes) isa.slots = isa.frame (isa.saved c) ret ∧
      word m' old.toNat = isa.sp c - BitVec.ofNat 64 isa.frameBytes ∧
      ∀ i, i < (isa.sp c).toNat - isa.frameBytes ∨ (isa.sp c).toNat ≤ i → i < old.toNat ∨ old.toNat + 8 ≤ i → m' i = m i
  restores : ∀ {c m old new ret} {c' : isa.Cpu} {m' : Bytes} {saved pc}, isa.switch old new ret (c,m) = (c',m') →
    new.toNat + isa.frameBytes < 2 ^ 64 → words m' new.toNat isa.slots = isa.frame saved pc → isa.Code pc →
    isa.pc c' = pc ∧ isa.sp c' = new + BitVec.ofNat 64 isa.frameBytes ∧ isa.saved c' = saved
  plants : ∀ {entry top fn arg m} {m' : Bytes} {sp}, isa.plant entry top fn arg m = (m',sp) → isa.frameBytes ≤ top.toNat →
    sp = top - BitVec.ofNat 64 isa.frameBytes ∧
      words m' (top.toNat - isa.frameBytes) isa.slots = isa.frame (isa.fresh fn arg) entry ∧
      ∀ i, i < top.toNat - isa.frameBytes ∨ top.toNat ≤ i → m' i = m i
  launches : ∀ {c m back fn arg} {c' : isa.Cpu} {m' : Bytes}, isa.launch back (c,m) = (c',m') → isa.saved c = isa.fresh fn arg →
    isa.Code fn → isa.pc c' = fn ∧ isa.parameter c' = arg

end Isa

/- Where the stacks and the cells are; no two of these overlap. -/
structure Arena (isa : Isa) (τ : Type) where
  lo : τ → Nat
  top : τ → BitVec 64
  cell : τ → BitVec 64
  entry : BitVec 64
  entryCode : isa.Code entry
  room : ∀ t, lo t + isa.frameBytes ≤ (top t).toNat
  stacksApart : ∀ t u, t ≠ u → (top t).toNat ≤ lo u ∨ (top u).toNat ≤ lo t
  cellsApart : ∀ t u, t ≠ u → (cell t).toNat + 8 ≤ (cell u).toNat ∨ (cell u).toNat + 8 ≤ (cell t).toNat
  cellOutside : ∀ t u, (cell t).toNat + 8 ≤ lo u ∨ (top u).toNat ≤ (cell t).toNat

/- The processor, the memory and the task that runs. -/
structure Running (isa : Isa) (τ : Type) where
  cpu : isa.Cpu
  memory : Bytes
  current : τ

/- The current task computes with the registers and in memory. -/
def Running.work {isa : Isa} {τ : Type} (s : Running isa τ) (cpu : isa.Cpu) (memory : Bytes) : Running isa τ :=
  { s with cpu := cpu, memory := memory }

namespace Arena
variable {isa : Isa} {τ : Type} (A : Arena isa τ)

/- Of the stacks only the current one has changed, and no cell. -/
def Respects (s : Running isa τ) (memory : Bytes) : Prop :=
  ∀ t i, (t ≠ s.current ∧ A.lo t ≤ i ∧ i < (A.top t).toNat) ∨ ((A.cell t).toNat ≤ i ∧ i < (A.cell t).toNat + 8) → memory i = s.memory i

def plant (s : Running isa τ) (t : τ) (fn arg : BitVec 64) : Running isa τ :=
  let (memory,sp) := isa.plant A.entry (A.top t) fn arg s.memory
  { s with memory := putWord memory (A.cell t).toNat sp }

/- The call that leaves `current` returns to `ret`. -/
def switch (s : Running isa τ) (next : τ) (ret : BitVec 64) : Running isa τ :=
  let (cpu,memory) := isa.switch (A.cell s.current) (word s.memory (A.cell next).toNat) ret (s.cpu,s.memory)
  { cpu := cpu, memory := memory, current := next }

/- The frame of a switch fits on the stack of the current task. -/
def Room (s : Running isa τ) : Prop :=
  A.lo s.current + isa.frameBytes ≤ (isa.sp s.cpu).toNat ∧ (isa.sp s.cpu).toNat ≤ (A.top s.current).toNat

/- `t` is off the processor and its stack holds the frame of `w`. -/
structure Parked (s : Running isa τ) (t : τ) (w : Waiting) : Prop where
  away : s.current ≠ t
  code : isa.Code w.pc
  sp : w.sp = word s.memory (A.cell t).toNat + BitVec.ofNat 64 isa.frameBytes
  low : A.lo t ≤ (word s.memory (A.cell t).toNat).toNat
  high : (word s.memory (A.cell t).toNat).toNat + isa.frameBytes ≤ (A.top t).toNat
  frame : words s.memory (word s.memory (A.cell t).toNat).toNat isa.slots = isa.frame w.saved w.pc

variable {A} {s s' : Running isa τ} {t u : τ} {w : Waiting}

theorem Parked.keep (lawful : isa.Lawful) (parked : A.Parked s t w) (away : s'.current ≠ t)
    (cell : ∀ i, (A.cell t).toNat ≤ i → i < (A.cell t).toNat + 8 → s'.memory i = s.memory i)
    (stack : ∀ i, A.lo t ≤ i → i < (A.top t).toNat → s'.memory i = s.memory i) : A.Parked s' t w := by
  have pointer := wordCongr cell
  have low := parked.low
  have high := parked.high
  have slots := lawful.slotsInside
  have frame : words s'.memory (word s.memory (A.cell t).toNat).toNat isa.slots = words s.memory (word s.memory (A.cell t).toNat).toNat isa.slots :=
    wordsCongr fun i above below => stack i (by omega) (by omega)
  constructor
  · exact away
  · exact parked.code
  · rw [pointer]
    exact parked.sp
  · rwa [pointer]
  · rwa [pointer]
  · rw [pointer,frame]
    exact parked.frame

theorem workKeeps (lawful : isa.Lawful) (parked : A.Parked s t w) (cpu : isa.Cpu) {memory : Bytes} (respects : A.Respects s memory) :
    A.Parked (s.work cpu memory) t w :=
  parked.keep lawful parked.away (fun i low high => respects t i (.inr ⟨low,high⟩)) fun i low high =>
    respects t i (.inl ⟨Ne.symm parked.away,low,high⟩)

theorem plantKeeps (lawful : isa.Lawful) (parked : A.Parked s t w) (other : u ≠ t) (fn arg : BitVec 64) : A.Parked (A.plant s u fn arg) t w := by
  rcases planted : isa.plant A.entry (A.top u) fn arg s.memory with ⟨memory,sp⟩
  have room := A.room u
  obtain ⟨_,_,outside⟩ := lawful.plants planted (by omega)
  have apart := A.stacksApart _ _ other
  have cells := A.cellsApart _ _ other
  have cellOutside := A.cellOutside t u
  have cellOutside' := A.cellOutside u t
  have after : (A.plant s u fn arg).memory = putWord memory (A.cell u).toNat sp := by simp only [plant,planted]
  refine parked.keep lawful parked.away (fun i low high => ?_) fun i low high => ?_
  · rw [after,putWordOther (by omega),outside i (by omega)]
  · rw [after,putWordOther (by omega),outside i (by omega)]

theorem plantParks (lawful : isa.Lawful) (away : s.current ≠ t) (fn arg : BitVec 64) :
    A.Parked (A.plant s t fn arg) t ⟨A.entry,A.top t,isa.fresh fn arg⟩ := by
  rcases planted : isa.plant A.entry (A.top t) fn arg s.memory with ⟨memory,sp⟩
  have room := A.room t
  have slots := lawful.slotsInside
  obtain ⟨place,frame,_⟩ := lawful.plants planted (by omega)
  have after : (A.plant s t fn arg).memory = putWord memory (A.cell t).toNat sp := by simp only [plant,planted]
  have pointer : word (A.plant s t fn arg).memory (A.cell t).toNat = sp := by rw [after,wordPut]
  have bottom : sp.toNat = (A.top t).toNat - isa.frameBytes := by
    rw [place]
    exact subNat (by omega)
  have cells := A.cellOutside t t
  constructor
  · exact away
  · exact A.entryCode
  · rw [pointer,place]
    exact (BitVec.sub_add_cancel _ _).symm
  · rw [pointer]
    omega
  · rw [pointer]
    omega
  · rw [pointer,after,wordsApart (by omega),bottom]
    exact frame

theorem switchKeeps (lawful : isa.Lawful) (parked : A.Parked s t w) (room : A.Room s) {next : τ} (other : next ≠ t) (ret : BitVec 64) :
    A.Parked (A.switch s next ret) t w := by
  rcases switched : isa.switch (A.cell s.current) (word s.memory (A.cell next).toNat) ret (s.cpu,s.memory) with ⟨cpu,memory⟩
  obtain ⟨low,high⟩ := room
  have apart := A.stacksApart _ _ parked.away
  have cells := A.cellsApart _ _ parked.away
  have own := A.cellOutside s.current s.current
  have cellOutside := A.cellOutside t s.current
  have cellOutside' := A.cellOutside s.current t
  obtain ⟨_,_,outside⟩ := lawful.saves switched (by omega) (by omega)
  have after : (A.switch s next ret).memory = memory := by simp only [switch,switched]
  refine parked.keep lawful other (fun i above below => ?_) fun i above below => ?_
  · rw [after,outside i (by omega) (by omega)]
  · rw [after,outside i (by omega) (by omega)]

theorem switchParks (lawful : isa.Lawful) (room : A.Room s) {next : τ} (other : next ≠ s.current) {ret : BitVec 64} (code : isa.Code ret) :
    A.Parked (A.switch s next ret) s.current ⟨ret,isa.sp s.cpu,isa.saved s.cpu⟩ := by
  rcases switched : isa.switch (A.cell s.current) (word s.memory (A.cell next).toNat) ret (s.cpu,s.memory) with ⟨cpu,memory⟩
  obtain ⟨low,high⟩ := room
  have own := A.cellOutside s.current s.current
  obtain ⟨frame,pointer,_⟩ := lawful.saves switched (by omega) (by omega)
  have after : (A.switch s next ret).memory = memory := by simp only [switch,switched]
  have bottom : (isa.sp s.cpu - BitVec.ofNat 64 isa.frameBytes).toNat = (isa.sp s.cpu).toNat - isa.frameBytes := subNat (by omega)
  constructor
  · exact other
  · exact code
  · rw [after,pointer]
    exact (BitVec.sub_add_cancel _ _).symm
  · rw [after,pointer,bottom]
    omega
  · rw [after,pointer,bottom]
    omega
  · rw [after,pointer,bottom]
    exact frame

/- The task that is switched to finds what waited. -/
theorem switchResumes (lawful : isa.Lawful) (parked : A.Parked s t w) (room : A.Room s) (ret : BitVec 64) :
    isa.pc (A.switch s t ret).cpu = w.pc ∧ isa.sp (A.switch s t ret).cpu = w.sp ∧ isa.saved (A.switch s t ret).cpu = w.saved := by
  rcases switched : isa.switch (A.cell s.current) (word s.memory (A.cell t).toNat) ret (s.cpu,s.memory) with ⟨cpu,memory⟩
  obtain ⟨low,high⟩ := room
  have slots := lawful.slotsInside
  have fits := (A.top t).isLt
  have above := parked.low
  have below := parked.high
  have apart := A.stacksApart _ _ parked.away
  have own := A.cellOutside s.current s.current
  have cellOutside := A.cellOutside s.current t
  obtain ⟨_,_,outside⟩ := lawful.saves switched (by omega) (by omega)
  have kept : words memory (word s.memory (A.cell t).toNat).toNat isa.slots = words s.memory (word s.memory (A.cell t).toNat).toNat isa.slots :=
    wordsCongr fun i above below => outside i (by omega) (by omega)
  obtain ⟨pc,sp,saved⟩ := lawful.restores switched (by omega) (kept.trans parked.frame) parked.code
  have after : (A.switch s t ret).cpu = cpu := by simp only [switch,switched]
  rw [after]
  exact ⟨pc,sp.trans parked.sp.symm,saved⟩

end Arena
end Coroutines
