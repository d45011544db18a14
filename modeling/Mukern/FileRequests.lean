import Mukern.Archive
import Mukern.Library.Transition
import Mathlib.Data.List.Nodup
import Mathlib.Data.List.Perm.Subperm

/-! The file server over a run of requests from any number of clients. Beside the server
the run carries which client holds which slot, and for which file: a client reads and
closes only what it holds. -/
namespace Mukern
open Buffers Transition

structure Holding where
  client : Int
  slot : Nat
  file : File
  deriving DecidableEq, Repr

structure FileRun where
  server : FileServer
  held : List Holding

/- A request comes in, or the clients write their memory. -/
inductive FileEvent where
  | request (req : FileRequest)
  | clients (memory : Buffer Byte)

namespace FileRun

/- The slot is the client's. -/
def Holds (s : FileRun) (client h : Int) : Prop := ∃ holding ∈ s.held, holding.client = client ∧ (holding.slot : Int) = h

instance (s : FileRun) (client h : Int) : Decidable (s.Holds client h) := inferInstanceAs (Decidable (∃ _ ∈ _, _))

def Asks (s : FileRun) : FileEvent → Prop
  | .request (.openFile _ _) => True
  | .request (.readFile client h _ cap) => s.Holds client h ∧ 1 ≤ cap
  | .request (.closeFile client h) => s.Holds client h
  | .request (.listFiles _ _ _) => False
  | .clients _ => True

instance (s : FileRun) (event : FileEvent) : Decidable (s.Asks event) := by
  rcases event with (_ | _ | _ | _) | _ <;> unfold Asks <;> infer_instance

/- What is held after the reply: a handle that is not negative is for the file of that name. -/
def holdings (files : List File) (s : FileRun) (reply : FileReply) : FileRequest → List Holding
  | .openFile client path =>
    if reply.data0 < 0 then s.held
    else ((files.find? fun file => Named s.server.memory path file.name).map fun file => ⟨client,reply.data0.toNat,file⟩).toList ++ s.held
  | .closeFile client h => s.held.filter fun holding => ¬ (holding.client = client ∧ (holding.slot : Int) = h)
  | .readFile _ _ _ _ | .listFiles _ _ _ => s.held

def next (drive : Drive) (files : List File) (turns : Nat) (s : FileRun) : FileEvent → FileRun
  | .request req =>
    match s.server.handle drive turns req with
    | some (reply,server) => ⟨server,s.holdings files reply req⟩
    | none => s
  | .clients memory => { s with server := { s.server with memory := memory } }

end FileRun

def fileSystem (drive : Drive) (files : List File) (turns : Nat) (memory : Buffer Byte) : System FileRun FileEvent where
  start s := s = ⟨.boot memory,[]⟩
  enabled := FileRun.Asks
  next := FileRun.next drive files turns

instance {drive : Drive} {files : List File} {turns : Nat} {memory : Buffer Byte} (s : FileRun) (event : FileEvent) :
    Decidable ((fileSystem drive files turns memory).enabled s event) := inferInstanceAs (Decidable (s.Asks event))

/- The table of handles: the slots in use are those held, one holder each, and the entry
of a slot is for the file it is held for. -/
structure Served (disk : Disk) (s : FileRun) : Prop where
  distinct : (s.held.map Holding.slot).Nodup
  entry : ∀ holding ∈ s.held, holding.slot < 8 ∧
    ∃ dataLba, s.server.ftab holding.slot = ⟨dataLba,holding.file.content.length,true⟩ ∧ disk.Stores dataLba holding.file
  used : ∀ i < 8, (s.server.ftab i).used = true → i ∈ s.held.map Holding.slot

section run
variable {disk : Disk} {files : List File} {n : Nat} {s : FileRun}

/- Only the table matters. -/
theorem Served.kept (served : Served disk s) {server : FileServer} (same : server.ftab = s.server.ftab) : Served disk { s with server := server } := by
  refine ⟨served.distinct,?_,?_⟩
  · intro holding member
    rw [same]
    exact served.entry holding member
  · intro i low inUse
    rw [same] at inUse
    exact served.used i low inUse

theorem freeEntryFree {server : FileServer} {i : Nat} (found : server.freeEntry = some i) : i < 8 ∧ (server.ftab i).used = false := by
  have member := List.mem_of_find?_eq_some found
  have unused := List.find?_some found
  exact ⟨List.mem_range.mp member,by simpa using unused⟩

/- A slot is free while fewer than 8 are held. -/
theorem Served.roomLeft (served : Served disk s) (few : s.held.length < 8) : ∃ i, s.server.freeEntry = some i := by
  cases found : s.server.freeEntry with
  | some i => exact ⟨i,rfl⟩
  | none =>
    have full : List.range 8 ⊆ s.held.map Holding.slot := by
      intro i member
      have inUse := List.find?_eq_none.mp found i member
      exact served.used i (List.mem_range.mp member) (by simpa using inUse)
    have counted := ((List.nodup_range (n := 8)).subperm full).length_le
    rw [List.length_range,List.length_map] at counted
    omega

theorem slotUsed (served : Served disk s) {i : Nat} (member : i ∈ s.held.map Holding.slot) : i < 8 ∧ (s.server.ftab i).used = true := by
  obtain ⟨holding,mem,rfl⟩ := List.mem_map.mp member
  obtain ⟨low,dataLba,entry,_⟩ := served.entry holding mem
  exact ⟨low,by rw [entry]⟩

/- A free slot goes to one more holder. -/
theorem Served.taken (served : Served disk s) {i dataLba : Nat} {file : File} {hdr : Buffer Byte} (client : Int) (low : i < 8)
    (unused : (s.server.ftab i).used = false) (stores : disk.Stores dataLba file) :
    Served disk ⟨{ s.server with hdr := hdr, ftab := Function.update s.server.ftab i ⟨dataLba,file.content.length,true⟩ },⟨client,i,file⟩ :: s.held⟩ := by
  have fresh : i ∉ s.held.map Holding.slot := by
    intro member
    rw [(slotUsed served member).2] at unused
    cases unused
  refine ⟨List.nodup_cons.mpr ⟨fresh,served.distinct⟩,?_,?_⟩
  · intro holding member
    rcases List.mem_cons.mp member with rfl | before
    · exact ⟨low,dataLba,Function.update_self _ _ _,stores⟩
    · have other : holding.slot ≠ i := fun same => fresh (same ▸ List.mem_map_of_mem before)
      have same : Function.update s.server.ftab i ⟨dataLba,file.content.length,true⟩ holding.slot = s.server.ftab holding.slot :=
        Function.update_of_ne other _ _
      simp only [same]
      exact served.entry holding before
  · intro j below inUse
    rcases eq_or_ne j i with rfl | other
    · exact List.mem_cons_self
    · have same : Function.update s.server.ftab i ⟨dataLba,file.content.length,true⟩ j = s.server.ftab j := Function.update_of_ne other _ _
      have before : (s.server.ftab j).used = true := by rw [← same]; exact inUse
      exact List.mem_cons_of_mem _ (served.used j below before)

/- A slot is given back by the one that holds it. -/
theorem Served.closed (served : Served disk s) {client : Int} {i : Nat} (holds : s.Holds client i) :
    Served disk ⟨{ s.server with ftab := Function.update s.server.ftab i { s.server.ftab i with used := false } },
      s.held.filter fun holding => ¬ (holding.client = client ∧ (holding.slot : Int) = i)⟩ := by
  obtain ⟨mine,held,owner,slot⟩ := holds
  have others {holding : Holding} (member : holding ∈ s.held) (kept : ¬ (holding.client = client ∧ (holding.slot : Int) = i)) : holding.slot ≠ i := by
    intro same
    have equal : holding = mine := List.inj_on_of_nodup_map served.distinct member held (by omega)
    exact kept ⟨equal ▸ owner,by omega⟩
  refine ⟨(List.filter_sublist.map _).nodup served.distinct,?_,?_⟩
  · intro holding member
    obtain ⟨member,kept⟩ := List.mem_filter.mp member
    have other := others member (of_decide_eq_true kept)
    have same : Function.update s.server.ftab i { s.server.ftab i with used := false } holding.slot = s.server.ftab holding.slot :=
      Function.update_of_ne other _ _
    simp only [same]
    exact served.entry holding member
  · intro j below inUse
    have other : j ≠ i := by
      rintro rfl
      simp at inUse
    have same : Function.update s.server.ftab i { s.server.ftab i with used := false } j = s.server.ftab j := Function.update_of_ne other _ _
    have before : (s.server.ftab j).used = true := by rw [← same]; exact inUse
    obtain ⟨holding,member,rfl⟩ := List.mem_map.mp (served.used j below before)
    refine List.mem_map_of_mem (List.mem_filter.mpr ⟨member,decide_eq_true ?_⟩)
    exact fun both => other (by omega)

end run
section requests
variable {disk : Disk} {files : List File} {n : Nat} {s : FileRun} {server : FileServer}

/- `MSG_OPEN` of a file in the archive. -/
theorem handleOpenNamed (small : disk.sectors ≤ 2 ^ 28) (holds : disk.Holds 0 files) (valid : ∀ file ∈ files, file.Valid)
    (distinct : (files.map File.name).Nodup) (turns : files.length < n) {file : File} (member : file ∈ files) {path : Nat}
    (named : Named server.memory path file.name) (client : Int) :
    ∃ dataLba hdr, disk.Stores dataLba file ∧ server.handle disk.drive n (.openFile client path) =
      match server.freeEntry with
      | some i => some (⟨i,file.content.length⟩,
          { server with hdr := hdr, ftab := Function.update server.ftab i ⟨dataLba,file.content.length,true⟩ })
      | none => some (⟨-1,0⟩,{ server with hdr := hdr }) := by
  obtain ⟨dataLba,hdr,stores,opens⟩ := opensNamed small holds valid distinct member named turns
  refine ⟨dataLba,hdr,stores,?_⟩
  have same : { server with hdr := hdr }.freeEntry = server.freeEntry := rfl
  rw [FileServer.handle,opens,FileServer.takeEntry,same]
  cases server.freeEntry with
  | none => rfl
  | some i =>
    have entry : Function.update server.ftab i ⟨dataLba,file.content.length,true⟩ i = ⟨dataLba,file.content.length,true⟩ := Function.update_self _ _ _
    have positive : (i : Int) ≥ 0 := Int.natCast_nonneg i
    simp only [Option.map_some,if_pos positive,Int.toNat_natCast,entry]

theorem handleOpenOther (small : disk.sectors ≤ 2 ^ 28) (holds : disk.Holds 0 files) (valid : ∀ file ∈ files, file.Valid)
    (turns : files.length < n) {path : Nat} (other : ∀ file ∈ files, ¬ Named server.memory path file.name) (client : Int) :
    ∃ hdr, server.handle disk.drive n (.openFile client path) = some (⟨-1,0⟩,{ server with hdr := hdr }) := by
  obtain ⟨hdr,opens⟩ := opensOther small holds valid other turns
  refine ⟨hdr,?_⟩
  rw [FileServer.handle,opens]
  rfl

/- One request. -/
theorem nextServed (small : disk.sectors ≤ 2 ^ 28) (holds : disk.Holds 0 files) (valid : ∀ file ∈ files, file.Valid)
    (distinct : (files.map File.name).Nodup) (turns : files.length < n) (served : Served disk s) {event : FileEvent} (asks : s.Asks event) :
    Served disk (s.next disk.drive files n event) := by
  rcases event with (⟨client,path⟩ | ⟨client,h,buf,cap⟩ | ⟨client,h⟩ | _) | memory
  · cases found : files.find? fun file => Named s.server.memory path file.name with
    | none =>
      have other : ∀ file ∈ files, ¬ Named s.server.memory path file.name := by simpa using List.find?_eq_none.mp found
      obtain ⟨hdr,opens⟩ := handleOpenOther small holds valid turns other client
      simp only [FileRun.next,opens,FileRun.holdings,if_pos (by decide : (-1 : Int) < 0)]
      exact served.kept rfl
    | some file =>
      have named : Named s.server.memory path file.name := by simpa using List.find?_some found
      obtain ⟨dataLba,hdr,stores,opens⟩ := handleOpenNamed small holds valid distinct turns (List.mem_of_find?_eq_some found) named client
      cases free : s.server.freeEntry with
      | none =>
        simp only [free] at opens
        simp only [FileRun.next,opens,FileRun.holdings,if_pos (by decide : (-1 : Int) < 0)]
        exact served.kept rfl
      | some i =>
        obtain ⟨low,unused⟩ := freeEntryFree free
        have positive : ¬ (i : Int) < 0 := by omega
        simp only [free] at opens
        simp only [FileRun.next,opens,FileRun.holdings,if_neg positive,found,Int.toNat_natCast]
        exact served.taken client low unused stores
  · obtain ⟨⟨holding,member,_,rfl⟩,_⟩ := asks
    obtain ⟨low,dataLba,entry,stores⟩ := served.entry holding member
    obtain ⟨_,_,_,same⟩ := readsEntry small low entry stores buf (if cap ≠ 0 then cap else (s.server.ftab 0).size)
    exact served.kept same
  · have closes := asks
    obtain ⟨holding,member,_,rfl⟩ := asks
    have low : (holding.slot : Int) ≥ 0 ∧ (holding.slot : Int) < 8 := by
      have := (served.entry holding member).1
      omega
    simp only [FileRun.next,FileServer.handle,if_pos low,FileRun.holdings,Int.toNat_natCast]
    exact served.closed closes
  · cases asks
  · exact served.kept rfl

/- `MSG_FREAD` by the holder of the slot. -/
theorem handleRead (small : disk.sectors ≤ 2 ^ 28) (served : Served disk s) {holding : Holding} (member : holding ∈ s.held)
    {cap : Nat} (some' : 1 ≤ cap) (buf : Nat) :
    let size := min holding.file.content.length cap
    ∃ server, s.server.handle disk.drive n (.readFile holding.client holding.slot buf cap) = some (⟨size,0⟩,server) ∧
      read server.memory buf size = holding.file.content.take size ∧ ∀ j, j < buf ∨ buf + size ≤ j → server.memory j = s.server.memory j := by
  intro size
  obtain ⟨low,dataLba,entry,stores⟩ := served.entry holding member
  obtain ⟨count,run,outside,_⟩ := readsEntry small low entry stores buf cap
  have given : cap ≠ 0 := by omega
  refine ⟨_,?_,run,outside⟩
  simp only [FileServer.handle,if_pos given,count]
  rfl

theorem reachServed (small : disk.sectors ≤ 2 ^ 28) (holds : disk.Holds 0 files) (valid : ∀ file ∈ files, file.Valid)
    (distinct : (files.map File.name).Nodup) (turns : files.length < n) {memory : Buffer Byte}
    (reach : Reach (fileSystem disk.drive files n memory) (fun _ _ => True) s) : Served disk s := by
  refine reach.invariant (Served disk) ?_ (fun s event served asks _ => nextServed small holds valid distinct turns served asks)
  rintro s rfl
  exact ⟨List.nodup_nil,nofun,fun _ _ inUse => absurd inUse Bool.false_ne_true⟩

end requests

/- In every state of every run: open handles have their own slots, a file of the archive
opens with its size while a slot is left, no other path opens, and a holder of a slot
reads the first bytes of its file into its buffer and nothing else. -/
theorem filesServed (disk : Disk) (files : List File) (small : disk.sectors < 2 ^ 28) (holds : disk.Holds 0 files)
    (valid : ∀ file ∈ files, file.Valid) (distinct : (files.map File.name).Nodup) (turns : Nat) (enough : files.length < turns)
    (memory : Buffer Byte) (s : FileRun) (reach : Reach (fileSystem disk.drive files turns memory) (fun _ _ => True) s) :
    (s.held.map Holding.slot).Nodup ∧
    (∀ client path, ∀ file ∈ files, Named s.server.memory path file.name → s.held.length < 8 →
      ∃ slot server, s.server.handle disk.drive turns (.openFile client path) = some (⟨slot,file.content.length⟩,server) ∧
        ∃ i : Nat, i < 8 ∧ slot = (i : Int) ∧ i ∉ s.held.map Holding.slot) ∧
    (∀ client path, (∀ file ∈ files, ¬ Named s.server.memory path file.name) →
      ∃ server, s.server.handle disk.drive turns (.openFile client path) = some (⟨-1,0⟩,server)) ∧
    ∀ holding ∈ s.held, ∀ buf cap, 1 ≤ cap →
      let size := min holding.file.content.length cap
      ∃ server, s.server.handle disk.drive turns (.readFile holding.client holding.slot buf cap) = some (⟨size,0⟩,server) ∧
        read server.memory buf size = holding.file.content.take size ∧
        ∀ j, j < buf ∨ buf + size ≤ j → server.memory j = s.server.memory j := by
  have served := reachServed small.le holds valid distinct enough reach
  refine ⟨served.distinct,?_,?_,?_⟩
  · intro client path file member named few
    obtain ⟨i,free⟩ := served.roomLeft few
    obtain ⟨low,unused⟩ := freeEntryFree free
    obtain ⟨dataLba,hdr,_,opens⟩ := handleOpenNamed small.le holds valid distinct enough member named client
    rw [free] at opens
    refine ⟨i,_,opens,i,low,rfl,?_⟩
    intro taken
    rw [(slotUsed served taken).2] at unused
    cases unused
  · intro client path other
    obtain ⟨hdr,opens⟩ := handleOpenOther small.le holds valid enough other client
    exact ⟨_,opens⟩
  · intro holding member buf cap positive
    exact handleRead small.le served member positive buf

/- One file of a sector and a byte. -/
def greeting : File := ⟨[104,105],List.replicate 512 33 ++ [10]⟩

def headerSector (file : File) : Buffer Byte := fun i =>
  if i < 124 then file.name.getD i 0 else (octalDigits 11 file.content.length).getD (i - 124) 0

def greetingDisk : Disk :=
  ⟨4,fun lba => if lba = 0 then headerSector greeting else fun i => if lba < 3 then greeting.content.getD ((lba - 1) * 512 + i) 0 else 0⟩

/- What a buffer gives that holds a list. -/
theorem listRead (bytes : List Byte) (start n : Nat) :
    read (fun i => bytes.getD (start + i) 0) 0 (min n (bytes.length - start)) = (bytes.drop start).take n := by
  refine List.ext_getElem? fun i => ?_
  rcases Nat.lt_or_ge i (min n (bytes.length - start)) with inside | outside
  · have low : start + i < bytes.length := by omega
    rw [readGet inside,List.getElem?_take_of_lt (by omega),List.getElem?_drop,Nat.zero_add,List.getElem?_eq_getElem low]
    exact congrArg some ((List.getElem_eq_getD 0).symm)
  · rw [List.getElem?_eq_none (by rwa [readLength])]
    exact (List.getElem?_eq_none (by rw [List.length_take,List.length_drop]; exact outside)).symm

theorem greetingHolds : greetingDisk.Holds 0 [greeting] := by
  refine ⟨by decide,by decide +kernel,fun k low => ?_,by decide +kernel,by decide +kernel⟩
  replace low : k < 2 := lt_of_lt_of_eq low (by decide +kernel)
  have inside : 0 + 1 + k < 3 := by omega
  have content : greetingDisk.data (0 + 1 + k) = fun i => greeting.content.getD (k * 512 + i) 0 := by
    funext i
    have sector : 0 + 1 + k ≠ 0 := by omega
    have first : 0 + 1 + k - 1 = k := by omega
    simp only [greetingDisk,if_neg sector,if_pos inside,first]
  rw [content]
  exact ⟨inside.trans (by decide),listRead greeting.content (k * 512) 512⟩

/- Two clients, each with a handle of its own. -/
def greetingRun : List FileEvent := [
  .clients fun i => [104,105].getD i 0,
  .request (.openFile 5 0),
  .request (.openFile 6 0),
  .request (.readFile 5 0 1000 600),
  .request (.closeFile 5 0)]

def greetingState : FileRun := run (fileSystem greetingDisk.drive [greeting] 2 fun _ => 0) ⟨.boot fun _ => 0,[]⟩ greetingRun

theorem filesServedTwice :
    greetingState.held = [⟨6,1,greeting⟩] ∧
    ∃ server, greetingState.server.handle greetingDisk.drive 2 (.readFile 6 1 2000 513) = some (⟨513,0⟩,server) ∧
      read server.memory 2000 513 = greeting.content := by
  have held : greetingState.held = [⟨6,1,greeting⟩] := by decide +kernel
  have admits : Admits (fileSystem greetingDisk.drive [greeting] 2 fun _ => 0) (fun _ _ => True) ⟨.boot fun _ => 0,[]⟩ greetingRun := by
    decide +kernel
  have served := filesServed greetingDisk [greeting] (by decide) greetingHolds (by decide +kernel) (by decide) 2 (by decide) (fun _ => 0) greetingState
    ((Reach.start rfl).run admits)
  obtain ⟨_,_,_,reads⟩ := served
  obtain ⟨server,handled,bytes,_⟩ := reads ⟨6,1,greeting⟩ (by rw [held]; exact List.mem_singleton_self _) 2000 513 (by decide)
  have size : min greeting.content.length 513 = 513 := by decide +kernel
  have whole : greeting.content.take 513 = greeting.content := by decide +kernel
  simp only [size,whole] at handled bytes
  exact ⟨held,server,handled,bytes⟩

end Mukern
