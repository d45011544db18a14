import Mukern.Trap

/-! The programs of the boot archive as trees of the system calls that change the
kernel: `lib/usys.h` and the `main` of every server, driver and client. A local
`ipc_msg` is passed by value. Calls that leave the kernel as it is (`u_gettid`,
`u_tinfo`, `u_uptime`, `u_meminfo`, port I/O) and plain computation are not in the
trees; what comes out of them, an address, a length, a branch taken on data in
memory or on the disk, is a `pick`. -/
namespace Mukern

def msgWrite : Word := 10
def msgBread : Word := 11
def msgOpen : Word := 12
def msgFread : Word := 13
def msgReadline : Word := 14
def msgList : Word := 15
def msgClose : Word := 16
def msgVputs : Word := 21

def conTid : Int := 1
def blkTid : Int := 2
def vmTid : Int := 3
def pmTid : Int := 4
def fsTid : Int := 5
def vgaTid : Int := 6

def progPm : Fin 12 := 1
def progHello : Fin 12 := 2
def progVm : Fin 12 := 3
def progConsole : Fin 12 := 4
def progBlock : Fin 12 := 5
def progFs : Fin 12 := 6
def progApp : Fin 12 := 7
def progRogue : Fin 12 := 8
def progShell : Fin 12 := 9
def progVga : Fin 12 := 10
def progShell2 : Fin 12 := 11

/- The head of a loop that a program comes back to, with the locals that live there. -/
inductive Loop where
  | console (reader : Option Int)   -- `rd_active ? rd_from`
  | block
  | pager
  | manager
  | files
  | sectors (client : Int)          -- the loops of `fs_open`, `fs_read` and `fs_list`
  | vga (reader : Option Int)
  | shell
  deriving DecidableEq, Repr

/- What a thread does next in Ring 3. `answering` marks the receive of a reply
with what the `u_send` of its request returned, a value the source throws away. -/
inductive Code where
  | send (dest : Int) (m : IpcMsg) (next : Int → Code)
  | recv (src : Int) (answering : Option Int) (next : Int → IpcMsg → Code)
  | spawn (prog : Word) (next : Int → Code)
  | map (va : Word) (next : Code)
  | setPager (next : Code)
  | grantIo (t : Int) (base len : BitVec 16) (next : Code)
  | irqRegister (line : Fin 16) (next : Code)
  | mapPhys (va pa : Word) (next : Code)
  | grantCap (t ep : Int) (next : Code)
  | store (va : Word) (next : Code)
  | pick (next : Word → Word → Code)
  | again (loop : Loop)
  | exit

namespace Code

/-! `lib/usys.h`. -/

/- A request: `u_send(dst, &m); u_recv(dst, &r);`. -/
def ask (dest : Int) (m : IpcMsg) (next : IpcMsg → Code) : Code :=
  .send dest m fun sent => .recv dest (some sent) fun _ r => next r

def conWrite (next : Code) : Code :=
  .pick fun p len => ask conTid ⟨msgWrite,p,(len.setWidth 32).setWidth 64,0⟩ fun _ => next

def conReadline (next : BitVec 32 → Code) : Code :=
  .pick fun buf max => ask conTid ⟨msgReadline,buf,(max.setWidth 32).setWidth 64,0⟩ fun r => next (r.data0.setWidth 32)

/- `n` calls of `con_puts` and its kin, one after the other. -/
def conWrites (n : Nat) (next : Code) : Code :=
  match n with
  | 0 => next
  | n + 1 => conWrite (conWrites n next)

def reply (data0 data1 : Word) : IpcMsg := ⟨msgReply,data0,data1,0⟩

/- `u_send(0, &ready); u_recv(0, &go);`. -/
def announce (next : Code) : Code :=
  .send 0 ⟨msgReady,0,0,0⟩ fun _ => .recv 0 none fun _ _ => next

/-! `drivers/console/main.c` and `servers/vga/main.c`. -/

/- `edit()`: whether the line is finished depends on the bytes that have arrived. -/
def edit (loop : Option Int → Loop) : Option Int → Code
  | none => .again (loop none)
  | some client => .pick fun finished n =>
    if finished = 0 then .again (loop (some client))
    else .send client (reply n 0) fun _ => .again (loop none)

def terminal (loop : Option Int → Loop) (reader : Option Int) : Code :=
  .recv (-1) none fun source m =>
    if m.label = msgIrq then edit loop reader
    else if m.label = msgWrite then .send source (reply 0 0) fun _ => .again (loop reader)
    else if m.label = msgReadline then edit loop (some source)
    else .again (loop reader)

def console : Code := announce (.irqRegister 4 (.again (.console none)))

def vga : Code := announce (.irqRegister 1 (.again (.vga none)))

/-! `drivers/block/main.c`. -/

def block : Code := announce (conWrite (.again .block))

def blockLoop : Code :=
  .recv (-1) none fun source m =>
    if m.label = msgBread then .pick fun rc _ => .send source (reply rc 0) fun _ => .again .block
    else .again .block

/-! `servers/vm_server/main.c`. -/

def heapLo : Word := 0x0000400000400000
def heapHi : Word := 0x0000400000410000

def pager : Code := .setPager (announce (conWrite (.again .pager)))

def pagerLoop : Code :=
  .recv (-1) none fun source m =>
    if m.label = msgFault then
      if heapLo ≤ m.data1 ∧ m.data1 < heapHi then
        conWrite (conWrite (.map m.data1 (.send source (reply 0 0) fun _ => .again .pager)))
      else conWrite (conWrite (.send source (reply 1 0) fun _ => .again .pager))
    else .again .pager

/-! `servers/pm/main.c`. -/

def manager : Code := announce (conWrite (.again .manager))

def managerLoop : Code :=
  .recv (-1) none fun source m =>
    if m.label = msgSpawn then
      .spawn m.data0 fun tid =>
        let answer := .send source (reply (cword tid) 0) fun _ => .again .manager
        if 0 ≤ tid then .grantCap tid conTid (.send tid (reply 0 0) fun _ => answer) else answer
    else .again .manager

/-! `servers/fs_server/main.c`. -/

def files : Code := announce (conWrite (.again .files))

def filesLoop : Code :=
  .recv (-1) none fun source m =>
    if m.label = msgOpen then .again (.sectors source)
    else if m.label = msgFread then .again (.sectors source)
    else if m.label = msgClose then .send source (reply 0 0) fun _ => .again .files
    else if m.label = msgList then .again (.sectors source)
    else .again .files

/- One more block is read, or the request is answered. -/
def sectorsLoop (client : Int) : Code :=
  .pick fun finished lba =>
    if finished = 0 then
      .pick fun buf _ => ask blkTid ⟨msgBread,lba,buf,0⟩ fun _ => .again (.sectors client)
    else .pick fun data0 data1 => .send client (reply data0 data1) fun _ => .again .files

/-! `servers/shell/main.c`, the source of both shells. -/

def shell : Code :=
  announce (.send blkTid ⟨msgReady,0,0,0⟩ fun refused =>
    let greet := conWrites 2 (.again .shell)
    if refused ≠ 0 then conWrite greet else greet)

def cmdLs (next : Code) : Code :=
  .pick fun buf _ => ask fsTid ⟨msgList,buf,512,0⟩ fun _ => conWrite next

def cmdCat (next : Code) : Code :=
  .pick fun name empty =>
    if empty ≠ 0 then conWrite next
    else ask fsTid ⟨msgOpen,name,0,0⟩ fun opened =>
      if opened.data0.toInt < 0 then conWrites 3 next
      else .pick fun buf _ => ask fsTid ⟨msgFread,opened.data0,buf,2048⟩ fun _ =>
        conWrite (ask fsTid ⟨msgClose,opened.data0,0,0⟩ fun _ => next)

def cmdRun (prog : Word) (next : Code) : Code :=
  ask pmTid ⟨msgSpawn,prog,0,0⟩ fun _ => conWrites 3 next

/- Slots `t .. 15`; the state of each is read with `u_tinfo`. -/
def cmdPs (next : Code) : Nat → Code
  | 0 => next
  | left + 1 => .pick fun live _ =>
    if live = 0 then cmdPs next left
    else conWrites (if 16 - (left + 1) < 8 then 8 else 5) (cmdPs next left)

def cmdVga (next : Code) : Code :=
  .pick fun args _ => ask vgaTid ⟨msgVputs,args,13,0⟩ fun _ => conWrite next

/- The prompt, a line, and the command that the line names. `named` is what
`cmd_run` asks for, where the source has `PROG_HELLO`. -/
def shellLoop (named : Word → Word) : Code :=
  conWrite <| conReadline fun n =>
    if n = 0 then .again .shell
    else .pick fun command arg =>
      match command.toNat with
      | 0 => conWrite (.again .shell)            -- help
      | 1 => conWrites 2 (.again .shell)         -- echo
      | 2 => cmdLs (.again .shell)
      | 3 => cmdCat (.again .shell)
      | 4 => cmdRun (named arg) (.again .shell)
      | 5 => cmdPs (.again .shell) 16
      | 6 => conWrites 7 (.again .shell)         -- mem
      | 7 => conWrites 5 (.again .shell)         -- uptime
      | 8 => cmdVga (.again .shell)
      | 9 => conWrite (.again .shell)            -- clear
      | 10 => conWrite .exit
      | _ => conWrites 3 (.again .shell)

/-! `servers/hello/main.c`, `servers/app/main.c`, `servers/rogue/main.c`. -/

def hello : Code := .recv pmTid none fun _ _ => conWrite .exit

def app : Code :=
  .pick fun name buf => ask fsTid ⟨msgOpen,name,0,0⟩ fun opened =>
    if opened.data0.toInt < 0 then conWrite .exit
    else conWrites 2 (ask fsTid ⟨msgFread,opened.data0,buf,0⟩ fun _ => conWrites 2 .exit)

def rogue : Code := conWrite (.store 0x0000700000000000 (conWrite .exit))

/-! `servers/init/main.c`. -/

def vgaFbVa : Word := 0x0000400000b00000
def heapVa : Word := 0x0000400000400000

def start (prog : Fin 12) (release : Int → Code) : Code :=
  .spawn (BitVec.ofNat 64 prog.val) fun child => .recv (-1) none fun _ _ => release child

def go (t : Int) (terminal : Word) (next : Code) : Code := .send t (reply terminal 0) fun _ => next

def init : Code :=
  start progConsole fun _ =>
  .grantIo conTid 0x3F8 8 <| go conTid 0 <| conWrite <|
  start progBlock fun _ =>
  .grantIo blkTid 0x1F0 8 <| .grantCap blkTid conTid <| go blkTid 0 <|
  start progVm fun _ =>
  .grantCap vmTid conTid <| go vmTid 0 <|
  start progPm fun _ =>
  .grantCap pmTid conTid <| go pmTid 0 <|
  start progFs fun _ =>
  .grantCap fsTid conTid <| .grantCap fsTid blkTid <| go fsTid 0 <| conWrite <|
  .mapPhys vgaFbVa 0xB8000 <|
  start progVga fun _ =>
  .grantIo vgaTid 0x60 8 <| go vgaTid 0 <| conWrite <|
  .store heapVa <| conWrite <|
  start progShell fun sh1 =>
  .grantCap sh1 conTid <| .grantCap sh1 fsTid <| .grantCap sh1 pmTid <| go sh1 (cword conTid) <|
  start progShell2 fun sh2 =>
  .grantCap sh2 vgaTid <| .grantCap sh2 fsTid <| .grantCap sh2 pmTid <| go sh2 (cword vgaTid) <| conWrite <|
  .recv (-1) none fun _ _ => .exit

/- What the program of a number starts with. -/
def main (prog : Fin 12) : Code :=
  match prog with
  | 0 => init
  | 1 => manager
  | 2 => hello
  | 3 => pager
  | 4 => console
  | 5 => block
  | 6 => files
  | 7 => app
  | 8 => rogue
  | 9 | 11 => shell
  | 10 => vga

/- What a program goes on with at the head of a loop. -/
def body (named : Word → Word) : Loop → Code
  | .console reader => terminal .console reader
  | .block => blockLoop
  | .pager => pagerLoop
  | .manager => managerLoop
  | .files => filesLoop
  | .sectors client => sectorsLoop client
  | .vga reader => terminal .vga reader
  | .shell => shellLoop named

end Code
end Mukern
