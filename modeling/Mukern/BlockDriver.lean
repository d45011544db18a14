import Mukern.Abi
import Mukern.FileServer

/-! The block driver: `drivers/block/main.c` over the ports of the drive. The status
bytes and data words that the ports give are arbitrary; what is written to them is what
the drive takes its commands from. -/
namespace Mukern
open Buffers

/- The `k`-th byte read from the status port, and the `k`-th word from the data port. -/
structure AtaBus where
  status : Nat → Byte
  words : Nat → BitVec 16

/- What went over the ports: the bytes written, and how often status and data were read. -/
structure AtaPorts where
  written : List (Nat × Byte)
  polls : Nat
  taken : Nat

def AtaPorts.outb (ports : AtaPorts) (port : Nat) (value : Word) : AtaPorts :=
  { ports with written := ports.written ++ [(port,value.setWidth 8)] }

def ataBusy (s : Byte) : Prop := s &&& 0x80 ≠ 0

/- `(s & ST_BSY) || (!(s & ST_DRQ) && !(s & ST_ERR))`. -/
def ataWaits (s : Byte) : Prop := ataBusy s ∨ s &&& 0x08 = 0 ∧ s &&& 0x01 = 0

instance (s : Byte) : Decidable (ataBusy s) := inferInstanceAs (Decidable (_ ≠ _))

instance (s : Byte) : Decidable (ataWaits s) := inferInstanceAs (Decidable (_ ∨ _))

/- `do { s = u_inb(ATA_STATUS); } while (again(s))`, with the last `s`; `none` when `fuel` polls were not enough. -/
def AtaBus.poll (bus : AtaBus) (again : Byte → Prop) [DecidablePred again] : (fuel : Nat) → AtaPorts → Option (Byte × AtaPorts)
  | 0, _ => none
  | fuel + 1, ports =>
    let s := bus.status ports.polls
    let ports := { ports with polls := ports.polls + 1 }
    if again s then bus.poll again fuel ports else some (s,ports)

/- `for (i = 0; i < n; i++) buf[i] = u_inw(ATA_DATA)`. -/
def AtaBus.take (bus : AtaBus) : (n buf : Nat) → AtaPorts → Buffer Byte → AtaPorts × Buffer Byte
  | 0, _, ports, memory => (ports,memory)
  | n + 1, buf, ports, memory =>
    let w := bus.words ports.taken
    let memory := (memory.set buf (w.setWidth 8)).set (buf + 1) ((w >>> 8).setWidth 8)
    bus.take n (buf + 2) { ports with taken := ports.taken + 1 } memory

/- The six writes of `ata_read1`. -/
def AtaPorts.command (ports : AtaPorts) (lba : Word) : AtaPorts :=
  let ports := ports.outb 0x1f6 (0xe0 ||| ((lba >>> 24) &&& 0x0f))
  let ports := ports.outb 0x1f2 1
  let ports := ports.outb 0x1f3 (lba &&& 0xff)
  let ports := ports.outb 0x1f4 ((lba >>> 8) &&& 0xff)
  let ports := ports.outb 0x1f5 ((lba >>> 16) &&& 0xff)
  ports.outb 0x1f7 0x20

def AtaBus.ataRead1 (bus : AtaBus) (fuel : Nat) (lba : Word) (buf : Nat) (ports : AtaPorts) (memory : Buffer Byte) :
    Option (Int × AtaPorts × Buffer Byte) :=
  match bus.poll ataBusy fuel ports with
  | none => none
  | some (_,ports) =>
    match bus.poll ataWaits fuel (ports.command lba) with
    | none => none
    | some (s,ports) =>
      if s &&& 0x01 ≠ 0 then some (-1,ports,memory)
      else
        let (ports,memory) := bus.take 256 buf ports memory
        some (0,ports,memory)

/- The answer to `MSG_BREAD`: `.data0 = (unsigned long)(long)rc`. -/
def AtaBus.bread (bus : AtaBus) (fuel : Nat) (data0 : Word) (data1 : Nat) (ports : AtaPorts) (memory : Buffer Byte) :
    Option (Word × AtaPorts × Buffer Byte) :=
  (bus.ataRead1 fuel data0 data1 ports memory).map fun (rc,ports,memory) => (BitVec.ofInt 64 rc,ports,memory)

/- The registers of the drive that an LBA28 command is read from. -/
structure AtaRegisters where
  drive : Byte
  seccnt : Byte
  lba0 : Byte
  lba1 : Byte
  lba2 : Byte

structure AtaCommand where
  code : Byte
  mode : Byte
  count : Byte
  sector : Nat
  deriving DecidableEq, Repr

/- LBA28: the low four bits of the drive register lead the address. -/
def AtaRegisters.sector (regs : AtaRegisters) : Nat :=
  (regs.drive &&& 0x0f).toNat * 2 ^ 24 + regs.lba2.toNat * 2 ^ 16 + regs.lba1.toNat * 2 ^ 8 + regs.lba0.toNat

def AtaRegisters.set (regs : AtaRegisters) (port : Nat) (value : Byte) : AtaRegisters :=
  if port = 0x1f6 then { regs with drive := value }
  else if port = 0x1f2 then { regs with seccnt := value }
  else if port = 0x1f3 then { regs with lba0 := value }
  else if port = 0x1f4 then { regs with lba1 := value }
  else if port = 0x1f5 then { regs with lba2 := value }
  else regs

/- The commands that the drive receives with these writes. -/
def AtaRegisters.commands : (regs : AtaRegisters) → List (Nat × Byte) → List AtaCommand
  | _, [] => []
  | regs, (port,value) :: rest =>
    if port = 0x1f7 then ⟨value,regs.drive &&& 0xf0,regs.seccnt,regs.sector⟩ :: regs.commands rest
    else (regs.set port value).commands rest

/- The words from the `taken`-th on, as bytes. -/
def AtaBus.delivered (bus : AtaBus) (taken : Nat) : Buffer Byte := fun j =>
  if j % 2 = 0 then (bus.words (taken + j / 2)).setWidth 8 else (bus.words (taken + j / 2) >>> 8).setWidth 8

/- The `k`-th status byte is the first from the `start`-th on that ends the loop. -/
def AtaBus.Stops (bus : AtaBus) (again : Byte → Prop) (start k : Nat) : Prop :=
  start ≤ k ∧ (∀ i, start ≤ i → i < k → again (bus.status i)) ∧ ¬ again (bus.status k)

/- The drive is idle at last, and after the command ready, with this status. -/
def AtaBus.Settles (bus : AtaBus) (polls : Nat) (s : Byte) : Prop :=
  ∃ idle ready, bus.Stops ataBusy polls idle ∧ bus.Stops ataWaits (idle + 1) ready ∧ s = bus.status ready

/- It has the data and reports no error. -/
def AtaBus.Delivers (bus : AtaBus) (polls : Nat) : Prop := ∃ s, bus.Settles polls s ∧ s &&& 0x01 = 0

/- A reply comes after some number of polls. -/
def AtaBus.Replies (bus : AtaBus) (lba : Word) (buf : Nat) (ports : AtaPorts) (memory : Buffer Byte) (reply : Word) (ports' : AtaPorts)
    (memory' : Buffer Byte) : Prop :=
  ∃ fuel, bus.bread fuel lba buf ports memory = some (reply,ports',memory')

/- The commands that the drive received between the two, whatever its registers held. -/
def AtaPorts.Commanded (ports ports' : AtaPorts) (commands : List AtaCommand) : Prop :=
  ∀ regs : AtaRegisters, regs.commands (ports'.written.drop ports.written.length) = commands

/- The drive was told to read this sector of the master, and what it delivered is in the buffer. -/
structure AtaBus.Reads (bus : AtaBus) (lba : Word) (buf : Nat) (ports : AtaPorts) (memory : Buffer Byte) (ports' : AtaPorts)
    (memory' : Buffer Byte) : Prop where
  commanded : ports.Commanded ports' [⟨0x20,0xe0,1,lba.toNat⟩]
  delivered : ∀ j < 512, memory' (buf + j) = bus.delivered ports.taken j
  outside : ∀ i, i < buf ∨ buf + 512 ≤ i → memory' i = memory i

/- A drive that settles is answered for, and the reply 0 stands for the sector that was asked for. -/
structure AtaBus.Faithful (bus : AtaBus) (lba : Word) (buf : Nat) (ports : AtaPorts) (memory : Buffer Byte) : Prop where
  replies : ∀ s, bus.Settles ports.polls s → ∃ reply ports' memory', bus.Replies lba buf ports memory reply ports' memory'
  exact : ∀ reply ports' memory', bus.Replies lba buf ports memory reply ports' memory' → reply = 0 →
    bus.Reads lba buf ports memory ports' memory'

section
variable {bus : AtaBus} {again : Byte → Prop} {ports ports' : AtaPorts} {memory memory' : Buffer Byte}
  {lba reply : Word} {s : Byte} {fuel start k k' n buf i : Nat}

theorem AtaBus.Stops.unique (first : bus.Stops again start k) (second : bus.Stops again start k') : k = k' := by
  obtain ⟨low,before,ends⟩ := first
  obtain ⟨low',before',ends'⟩ := second
  rcases Nat.lt_trichotomy k k' with less | same | more
  · exact absurd (before' k low less) ends
  · exact same
  · exact absurd (before k' low' more) ends'

variable [DecidablePred again]

theorem pollStops (stops : bus.Stops again ports.polls k) (enough : k < ports.polls + fuel) :
    bus.poll again fuel ports = some (bus.status k,{ ports with polls := k + 1 }) := by
  obtain ⟨low,before,ends⟩ := stops
  induction fuel generalizing ports with
  | zero => omega
  | succ fuel ih =>
    rw [AtaBus.poll]
    rcases Nat.eq_or_lt_of_le low with rfl | later
    · exact if_neg ends
    · rw [if_pos (before _ (le_refl _) later)]
      exact ih (by simp only; omega) later fun i low => before i (Nat.le_of_succ_le low)

theorem pollStopped {r : Byte × AtaPorts} (polled : bus.poll again fuel ports = some r) :
    ∃ k, bus.Stops again ports.polls k ∧ r = (bus.status k,{ ports with polls := k + 1 }) := by
  induction fuel generalizing ports with
  | zero => cases polled
  | succ fuel ih =>
    rw [AtaBus.poll] at polled
    split at polled
    · rename_i goes
      obtain ⟨k,⟨low,before,ends⟩,same⟩ := ih polled
      refine ⟨k,⟨Nat.le_of_succ_le low,fun i least below => ?_,ends⟩,same⟩
      rcases Nat.eq_or_lt_of_le least with rfl | later
      · exact goes
      · exact before i later below
    · rename_i ends
      cases polled
      exact ⟨_,⟨le_refl _,fun i low below => absurd low (Nat.not_le.mpr below),ends⟩,rfl⟩

end
section
variable {bus : AtaBus} {drive : Drive} {ports ports' : AtaPorts} {memory memory' : Buffer Byte} {lba reply : Word} {s : Byte}
  {buf k sector : Nat}

/- The bytes of a word, behind those of the words before it. -/
theorem takeIs (bus : AtaBus) (n : Nat) (first : Nat) (ports : AtaPorts) (memory : Buffer Byte) (buf : Nat) (taken : ports.taken = first + k) :
    bus.take n buf ports memory = ({ ports with taken := first + k + n },copy memory buf (bus.delivered first) (2 * k) (2 * n)) := by
  induction n generalizing k ports memory buf with
  | zero =>
    rw [AtaBus.take,Nat.add_zero,← taken]
    rfl
  | succ n ih =>
    have even : 2 * k % 2 = 0 := by omega
    have odd : ¬ (2 * k + 1) % 2 = 0 := by omega
    have half : 2 * k / 2 = k := by omega
    have half' : (2 * k + 1) / 2 = k := by omega
    have low : bus.delivered first (2 * k) = (bus.words ports.taken).setWidth 8 := by
      rw [AtaBus.delivered,if_pos even,half,taken]
    have high : bus.delivered first (2 * k + 1) = (bus.words ports.taken >>> 8).setWidth 8 := by
      rw [AtaBus.delivered,if_neg odd,half',taken]
    have pair : 2 * (n + 1) = 2 * n + 1 + 1 := by omega
    rw [AtaBus.take,ih (k := k + 1) _ _ _ (by rw [taken,Nat.add_assoc]),pair,copy,copy,low,high]
    dsimp only
    rw [Nat.add_assoc first,Nat.add_assoc first,Nat.add_assoc k,Nat.add_comm 1 n,Nat.mul_add]

/- The four registers hold the low 28 bits of the address. -/
theorem commandedSector (ports : AtaPorts) (lba : Word) : ports.Commanded (ports.command lba) [⟨0x20,0xe0,1,lba.toNat % 2 ^ 28⟩] := by
  intro regs
  have masked : ∀ v : Word, (v &&& 0xff).setWidth 8 = v.setWidth 8 := by
    intro v
    rw [BitVec.setWidth_and]
    exact BitVec.and_allOnes
  have drive : (0xe0 ||| ((lba >>> 24) &&& 0x0f)).setWidth 8 = (0xe0 : Byte) ||| ((lba >>> 24).setWidth 8 &&& 0x0f) := by
    rw [BitVec.setWidth_or,BitVec.setWidth_and]
    rfl
  have nibble : ∀ b : Byte, ((0xe0 : Byte) ||| (b &&& 0x0f)) &&& 0xf0 = 0xe0 ∧ (((0xe0 : Byte) ||| (b &&& 0x0f)) &&& 0x0f).toNat = b.toNat % 16 := by
    decide +kernel
  have part : ∀ n, ((lba >>> n).setWidth 8).toNat = lba.toNat / 2 ^ n % 256 := by
    intro n
    rw [BitVec.toNat_setWidth,BitVec.toNat_ushiftRight,Nat.shiftRight_eq_div_pow]
  have low : (lba.setWidth 8).toNat = lba.toNat % 256 := BitVec.toNat_setWidth ..
  have six : (ports.command lba).written.drop ports.written.length =
      [(0x1f6,(0xe0 : Byte) ||| ((lba >>> 24).setWidth 8 &&& 0x0f)),(0x1f2,1),(0x1f3,lba.setWidth 8),(0x1f4,(lba >>> 8).setWidth 8),
        (0x1f5,(lba >>> 16).setWidth 8),(0x1f7,0x20)] := by
    simp only [AtaPorts.command,AtaPorts.outb,List.append_assoc,List.drop_left,masked,drive]
    rfl
  let after : AtaRegisters :=
    ⟨(0xe0 : Byte) ||| ((lba >>> 24).setWidth 8 &&& 0x0f),1,lba.setWidth 8,(lba >>> 8).setWidth 8,(lba >>> 16).setWidth 8⟩
  have sector : after.sector = lba.toNat % 2 ^ 28 := by
    rw [AtaRegisters.sector,(nibble _).2,part,part,part,low]
    omega
  have received : regs.commands ((ports.command lba).written.drop ports.written.length) = [⟨0x20,after.drive &&& 0xf0,1,after.sector⟩] := by
    rw [six]
    rfl
  rw [received,(nibble _).1,sector]

/- The ports after the last poll of the status. -/
def AtaPorts.settled (ports : AtaPorts) (lba : Word) (ready : Nat) : AtaPorts := { ports.command lba with polls := ready + 1 }

/- The reply and what is left, where the last status is the `ready`-th. -/
def AtaBus.outcome (bus : AtaBus) (lba : Word) (buf : Nat) (ports : AtaPorts) (memory : Buffer Byte) (ready : Nat) : Word × AtaPorts × Buffer Byte :=
  if bus.status ready &&& 0x01 ≠ 0 then (BitVec.ofInt 64 (-1),ports.settled lba ready,memory)
  else (0,{ ports.settled lba ready with taken := ports.taken + 256 },copy memory buf (bus.delivered ports.taken) 0 512)

theorem ataRead1Is {fuel idle ready : Nat} (first : bus.poll ataBusy fuel ports = some (s,{ ports with polls := idle + 1 }))
    (second : bus.poll ataWaits fuel ({ ports with polls := idle + 1 }.command lba) = some (bus.status ready,ports.settled lba ready)) :
    bus.bread fuel lba buf ports memory = some (bus.outcome lba buf ports memory ready) := by
  have taken : (ports.settled lba ready).taken = ports.taken + 0 := rfl
  have bytes : 2 * 256 = 512 := rfl
  have words := takeIs bus 256 ports.taken (ports.settled lba ready) memory buf taken
  rw [Nat.mul_zero,Nat.add_zero,bytes] at words
  rw [AtaBus.bread,AtaBus.ataRead1,first]
  dsimp only
  rw [second]
  dsimp only
  by_cases failed : bus.status ready &&& 0x01 ≠ 0
  · rw [AtaBus.outcome,if_pos failed,if_pos failed,Option.map_some]
  · have zero : BitVec.ofInt 64 0 = (0 : Word) := by decide
    rw [AtaBus.outcome,if_neg failed,if_neg failed,words,Option.map_some]
    dsimp only
    rw [zero]

theorem repliesIff {ports' : AtaPorts} : bus.Replies lba buf ports memory reply ports' memory' ↔
    ∃ idle ready, bus.Stops ataBusy ports.polls idle ∧ bus.Stops ataWaits (idle + 1) ready ∧
      (reply,ports',memory') = bus.outcome lba buf ports memory ready := by
  constructor
  · intro ⟨fuel,replied⟩
    rcases first : bus.poll ataBusy fuel ports with _ | ⟨s,idled⟩
    · rw [AtaBus.bread,AtaBus.ataRead1,first] at replied
      cases replied
    · obtain ⟨idle,idles,same⟩ := pollStopped first
      cases same
      rcases second : bus.poll ataWaits fuel ({ ports with polls := idle + 1 }.command lba) with _ | ⟨s,settled⟩
      · rw [AtaBus.bread,AtaBus.ataRead1,first] at replied
        dsimp only at replied
        rw [second] at replied
        cases replied
      · obtain ⟨ready,readies,same⟩ := pollStopped second
        cases same
        rw [ataRead1Is first second] at replied
        exact ⟨idle,ready,idles,readies,(Option.some.inj replied).symm⟩
  · intro ⟨idle,ready,idles,readies,same⟩
    refine ⟨ready + 1,?_⟩
    have later : idle + 1 ≤ ready := readies.1
    have first : bus.poll ataBusy (ready + 1) ports = some (bus.status idle,{ ports with polls := idle + 1 }) :=
      pollStops idles (by omega)
    have second : bus.poll ataWaits (ready + 1) ({ ports with polls := idle + 1 }.command lba) = some (bus.status ready,ports.settled lba ready) :=
      pollStops readies (by omega)
    rw [same]
    exact ataRead1Is first second

/- A reply 0 means data, and the sector that the registers could hold. -/
theorem repliesZero (replies : bus.Replies lba buf ports memory 0 ports' memory') : bus.Delivers ports.polls ∧
    ports.Commanded ports' [⟨0x20,0xe0,1,lba.toNat % 2 ^ 28⟩] ∧ memory' = copy memory buf (bus.delivered ports.taken) 0 512 := by
  obtain ⟨idle,ready,idles,readies,same⟩ := repliesIff.mp replies
  unfold AtaBus.outcome at same
  split at same
  · have failed : (0 : Word) = BitVec.ofInt 64 (-1) := congrArg Prod.fst same
    exact absurd failed (by decide)
  · rename_i clear
    cases same
    exact ⟨⟨_,⟨idle,ready,idles,readies,rfl⟩,not_not.mp clear⟩,commandedSector ports lba,rfl⟩

theorem deliversReply (delivers : bus.Delivers ports.polls) (lba : Word) (buf : Nat) (memory : Buffer Byte) :
    ∃ ports', bus.Replies lba buf ports memory 0 ports' (copy memory buf (bus.delivered ports.taken) 0 512) := by
  obtain ⟨_,⟨idle,ready,idles,readies,rfl⟩,clear⟩ := delivers
  refine ⟨{ ports.settled lba ready with taken := ports.taken + 256 },repliesIff.mpr ⟨idle,ready,idles,readies,?_⟩⟩
  exact (if_neg (not_not.mpr clear)).symm

/- A drive that always has data. -/
def AtaBus.prompt : AtaBus := ⟨fun _ => 0x08,fun _ => 0⟩

theorem promptDelivers (polls : Nat) : AtaBus.prompt.Delivers polls :=
  ⟨0x08,⟨polls,polls + 1,⟨le_refl _,fun _ low below => absurd low (Nat.not_le.mpr below),(by decide : ¬ ataBusy 0x08)⟩,
    ⟨le_refl _,fun _ low below => absurd low (Nat.not_le.mpr below),(by decide : ¬ ataWaits 0x08)⟩,rfl⟩,rfl⟩

/- Some drive answers a request for `lba` with 0 when it was commanded to read this sector. -/
def ataAnswers (lba : Word) (sector : Nat) : Prop :=
  ∃ (bus : AtaBus) (buf : Nat) (ports ports' : AtaPorts) (memory memory' : Buffer Byte),
    bus.Replies lba buf ports memory 0 ports' memory' ∧ ports.Commanded ports' [⟨0x20,0xe0,1,sector⟩]

/- What the drive receives is determined. -/
theorem commandedOnce {other : Nat} (first : ports.Commanded ports' [⟨0x20,0xe0,1,sector⟩]) (second : ports.Commanded ports' [⟨0x20,0xe0,1,other⟩]) :
    sector = other := by
  have same := (first ⟨0,0,0,0,0⟩).symm.trans (second ⟨0,0,0,0,0⟩)
  exact congrArg AtaCommand.sector (List.cons.inj same).1

theorem answersIff : ataAnswers lba sector ↔ sector = lba.toNat % 2 ^ 28 := by
  constructor
  · intro ⟨_,_,_,_,_,_,replies,commanded⟩
    exact commandedOnce commanded (repliesZero replies).2.1
  · intro same
    obtain ⟨ports',replies⟩ : ∃ ports', AtaBus.prompt.Replies lba 0 ⟨[],0,0⟩ (fun _ => 0) 0 ports' _ :=
      deliversReply (promptDelivers 0) lba 0 fun _ => 0
    exact ⟨_,_,_,_,_,_,replies,same ▸ (repliesZero replies).2.1⟩

/- The block driver's answers are exact below sector 2^28, and only there unless the drive
fails; two addresses are one sector when their low 28 bits are the same. -/
theorem blockReadsExact (bus : AtaBus) (lba lba' : Word) (buf : Nat) (ports : AtaPorts) (memory : Buffer Byte) :
    (bus.Faithful lba buf ports memory ↔ lba.toNat < 2 ^ 28 ∨ ¬ bus.Delivers ports.polls) ∧
    ((∀ sector, ataAnswers lba sector → ataAnswers lba' sector → lba = lba') ↔
      (lba.toNat % 2 ^ 28 = lba'.toNat % 2 ^ 28 → lba = lba')) := by
  refine ⟨⟨fun faithful => ?_,fun small => ?_⟩,fun apart same => ?_,fun apart sector first second => ?_⟩
  · by_cases delivers : bus.Delivers ports.polls
    · obtain ⟨ports',replies⟩ := deliversReply delivers lba buf memory
      have same := commandedOnce (faithful.exact _ _ _ replies rfl).commanded (repliesZero replies).2.1
      exact .inl (by omega)
    · exact .inr delivers
  · refine ⟨fun s settles => ?_,fun reply ports' memory' replies zero => ?_⟩
    · obtain ⟨idle,ready,idles,readies,_⟩ := settles
      exact ⟨_,_,_,repliesIff.mpr ⟨idle,ready,idles,readies,rfl⟩⟩
    · obtain ⟨delivers,commanded,buffer⟩ := repliesZero (zero ▸ replies)
      have low : lba.toNat < 2 ^ 28 := small.resolve_right (not_not.mpr delivers)
      rw [Nat.mod_eq_of_lt low] at commanded
      refine ⟨commanded,fun j inside => ?_,fun i outside => ?_⟩
      · rw [buffer,copyInside inside,Nat.zero_add]
      · rw [buffer,copyOther outside]
  · exact apart _ (answersIff.mpr rfl) (answersIff.mpr same)
  · exact apart ((answersIff.mp first).symm.trans (answersIff.mp second))

/- Sector 2^28 is answered with sector 0. -/
theorem redirectedRead : ¬ AtaBus.prompt.Faithful (BitVec.ofNat 64 (2 ^ 28)) 0 ⟨[],0,0⟩ (fun _ => 0) ∧
    ataAnswers 0 0 ∧ ataAnswers (BitVec.ofNat 64 (2 ^ 28)) 0 := by
  refine ⟨fun faithful => ?_,answersIff.mpr rfl,answersIff.mpr rfl⟩
  obtain ⟨ports',replies⟩ : ∃ ports', AtaBus.prompt.Replies (BitVec.ofNat 64 (2 ^ 28)) 0 ⟨[],0,0⟩ (fun _ => 0) 0 ports' _ :=
    deliversReply (promptDelivers 0) (BitVec.ofNat 64 (2 ^ 28)) 0 fun _ => 0
  have same := commandedOnce (faithful.exact _ _ _ replies rfl).commanded (repliesZero replies).2.1
  exact absurd same (by decide)

/- The drive behind the ports fails where `drive` has no sector, and delivers the sector where it has one. -/
def AtaBus.Carries (bus : AtaBus) (drive : Drive) (lba : Word) (ports : AtaPorts) : Prop :=
  match drive.ataRead1 lba.toNat with
  | none => ∃ s, bus.Settles ports.polls s ∧ s &&& 0x01 ≠ 0
  | some sector => bus.Delivers ports.polls ∧ ∀ j < 512, bus.delivered ports.taken j = sector j

/- What the file server's `blk_read` gets from such a drive. -/
theorem blkReadPorts (carries : bus.Carries drive lba ports) (buf : Nat) (memory : Buffer Byte) :
    ∃ reply ports', bus.Replies lba buf ports memory reply ports' ((drive.blkRead lba.toNat memory buf).getD memory) ∧
      (reply = 0 ↔ (drive.blkRead lba.toNat memory buf).isSome = true) := by
  unfold AtaBus.Carries at carries
  unfold Drive.blkRead
  cases found : drive.ataRead1 lba.toNat with
  | none =>
    rw [found] at carries
    obtain ⟨s,⟨idle,ready,idles,readies,rfl⟩,failed⟩ := carries
    have outcome : bus.outcome lba buf ports memory ready = (BitVec.ofInt 64 (-1),ports.settled lba ready,memory) := if_pos failed
    exact ⟨_,_,repliesIff.mpr ⟨idle,ready,idles,readies,outcome.symm⟩,iff_of_false (by decide) Bool.false_ne_true⟩
  | some sector =>
    rw [found] at carries
    obtain ⟨delivers,same⟩ := carries
    obtain ⟨ports',replies⟩ := deliversReply delivers lba buf memory
    have filled : copy memory buf (bus.delivered ports.taken) 0 512 = fill memory buf sector := by
      unfold fill
      exact copySame fun j low => by rw [Nat.zero_add]; exact same j low
    rw [filled] at replies
    exact ⟨0,ports',replies,iff_of_true rfl rfl⟩

end
end Mukern
