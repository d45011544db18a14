import Mukern.Console

/-! The file server and the disk below it: `servers/fs_server/main.c`, and of
`drivers/block/main.c` the sector that `ata_read1` commands the drive to read. The
clients' memory is a flat array of bytes; a failed read leaves its buffer alone. -/
namespace Mukern
open Buffers

/- `sector` is what the drive delivers for an LBA28 address, `none` an error status. -/
structure Drive where
  sector : Nat → Option (Buffer Byte)

/- `ata_read1`: the drive/LBA registers hold the low 28 bits of `lba`. -/
def Drive.ataRead1 (drive : Drive) (lba : Nat) : Option (Buffer Byte) := drive.sector (lba % 2 ^ 28)

/- `for (i = 0; i < 256; i++) buf[i] = u_inw(ATA_DATA)`, a word being two bytes. -/
@[irreducible] def fill (b : Buffer Byte) (lo : Nat) (sector : Buffer Byte) : Buffer Byte := copy b lo sector 0 512

/- `blk_read(lba, b + lo)`, a non-zero reply being `none`. -/
def Drive.blkRead (drive : Drive) (lba : Nat) (b : Buffer Byte) (lo : Nat) : Option (Buffer Byte) :=
  (drive.ataRead1 lba).map (fill b lo)

def octal (c : Byte) : Prop := ascii '0' ≤ c ∧ c ≤ ascii '7'

instance (c : Byte) : Decidable (octal c) := inferInstanceAs (Decidable (_ ∧ _))

/- `parse_octal(p + i, n)` with `v` read so far. -/
def parseOctal (p : Buffer Byte) (i v : Nat) : (n : Nat) → Nat
  | 0 => v
  | n + 1 => if octal (p i) then parseOctal p (i + 1) (v * 8 + (p i - ascii '0').toNat) n else v

/- `name_eq`, for at most `n` turns; a NUL in the first name stops the loop. -/
def nameEq (a : Buffer Byte) (i : Nat) (b : Buffer Byte) (j : Nat) : (n : Nat) → Bool
  | 0 => a i = b j
  | n + 1 => if a i ≠ 0 ∧ a i = b j then nameEq a (i + 1) b (j + 1) n else a i = b j

structure Fent where
  dataLba : Nat
  size : Nat
  used : Bool
  deriving DecidableEq, Repr

structure FileServer where
  memory : Buffer Byte
  ftab : Nat → Fent
  hdr : Buffer Byte
  bounce : Buffer Byte

namespace FileServer

/- The first entry of the table that is not in use. -/
def freeEntry (server : FileServer) : Option Nat := (List.range 8).find? fun i => !(server.ftab i).used

/- The walk of `fs_open` from the header at `lba`; `none` when `turns` headers were not enough. -/
def fsOpen (drive : Drive) (path : Nat) : (turns lba : Nat) → FileServer → Option (Int × FileServer)
  | 0, _, _ => none
  | turns + 1, lba, server =>
    match drive.blkRead lba server.hdr 0 with
    | none => some (-1,server)
    | some hdr =>
      let server := { server with hdr := hdr }
      if hdr 0 = 0 then some (-1,server)
      else
        let size := parseOctal hdr 124 0 12
        let dataLba := lba + 1
        if nameEq hdr 0 server.memory path 512 then
          match server.freeEntry with
          | some i => some (i,{ server with ftab := Function.update server.ftab i ⟨dataLba,size,true⟩ })
          | none => some (-1,server)
        else fsOpen drive path turns (dataLba + (size + 511) / 512) server

/- `for (i = 0; i < n; i++) blk_read(lba + i, buf + i * 512)`; the result of a read is not looked at. -/
def readSectors (drive : Drive) : (n lba buf : Nat) → Buffer Byte → Buffer Byte
  | 0, _, _, memory => memory
  | n + 1, lba, buf, memory => readSectors drive n (lba + 1) (buf + 512) ((drive.blkRead lba memory buf).getD memory)

def fsRead (drive : Drive) (server : FileServer) (h : Int) (buf max : Nat) : Int × FileServer :=
  if h < 0 ∨ h ≥ 8 ∨ (server.ftab h.toNat).used = false then (-1,server)
  else
    let entry := server.ftab h.toNat
    let size := if entry.size > max then max else entry.size
    let full := size / 512
    let rem := size - full * 512
    let server := { server with memory := readSectors drive full entry.dataLba buf server.memory }
    if rem ≠ 0 then
      let server := { server with bounce := (drive.blkRead (entry.dataLba + full) server.bounce 0).getD server.bounce }
      (size,{ server with memory := copy server.memory (buf + full * 512) server.bounce 0 rem })
    else (size,server)

/- `for (i = 0; name[i] && out + 2 < max; i++) buf[out++] = name[i]`, with the last `out`. -/
def listName (name : Buffer Byte) (buf max : Nat) : (turns i out : Nat) → Buffer Byte → Buffer Byte × Nat
  | 0, _, out, memory => (memory,out)
  | turns + 1, i, out, memory =>
    if name i ≠ 0 ∧ out + 2 < max then listName name buf max turns (i + 1) (out + 1) (memory.set (buf + out) (name i))
    else (memory,out)

/- The walk of `fs_list` from the header at `lba`. -/
def fsList (drive : Drive) (buf max : Nat) : (turns lba out : Nat) → FileServer → Option (Int × FileServer)
  | 0, _, _, _ => none
  | turns + 1, lba, out, server =>
    match drive.blkRead lba server.hdr 0 with
    | none => some (out,{ server with memory := server.memory.set (buf + out) 0 })
    | some hdr =>
      let server := { server with hdr := hdr }
      if hdr 0 = 0 then some (out,{ server with memory := server.memory.set (buf + out) 0 })
      else
        let (memory,out) := listName hdr buf max max 0 out server.memory
        let (memory,out) := if out + 1 < max then (memory.set (buf + out) 10,out + 1) else (memory,out)
        let size := parseOctal hdr 124 0 12
        fsList drive buf max turns (lba + 1 + (size + 511) / 512) out { server with memory := memory }

end FileServer

structure FileReply where
  data0 : Int
  data1 : Nat
  deriving DecidableEq, Repr

/- The requests of the main loop, with the client that sends them. -/
inductive FileRequest where
  | openFile (client : Int) (data0 : Nat)
  | readFile (client : Int) (data0 : Int) (data1 cap : Nat)
  | closeFile (client : Int) (data0 : Int)
  | listFiles (client : Int) (data0 data1 : Nat)
  deriving DecidableEq, Repr

/- One turn of the main loop; `none` when a walk needs more than `turns` headers. -/
def FileServer.handle (drive : Drive) (turns : Nat) (server : FileServer) : FileRequest → Option (FileReply × FileServer)
  | .openFile _ data0 =>
    (fsOpen drive data0 turns 0 server).map fun (h,server) => (⟨h,if h ≥ 0 then (server.ftab h.toNat).size else 0⟩,server)
  | .readFile _ data0 data1 cap =>
    let max := if cap ≠ 0 then cap else (server.ftab 0).size
    let (n,server) := server.fsRead drive data0 data1 max
    some (⟨n,0⟩,server)
  | .closeFile _ data0 =>
    let server :=
      if data0 ≥ 0 ∧ data0 < 8 then
        { server with ftab := Function.update server.ftab data0.toNat { server.ftab data0.toNat with used := false } }
      else server
    some (⟨0,0⟩,server)
  | .listFiles _ data0 data1 => (fsList drive data0 data1 turns 0 0 server).map fun (n,server) => (⟨n,0⟩,server)

/- The globals start as zero. -/
def FileServer.boot (memory : Buffer Byte) : FileServer :=
  { memory := memory, ftab := fun _ => ⟨0,0,false⟩, hdr := fun _ => 0, bounce := fun _ => 0 }

end Mukern
