import Mukern.UserRun

/-! What the programs of the boot archive promise each other. A `Stage` is what the
others may rely on about a thread: whom it still owes a reply and whose reply it
awaits, and before that how far init or the process manager has brought it. A
program conforms when every call it makes is one that its stage allows. -/
namespace Mukern
open Kernel

/- A request whose reply is outstanding. A line may be late for ever: the next
`MSG_READLINE` takes the place of the one before. -/
inductive Outstanding where
  | plain (server : Slot)
  | line (server : Slot)
  deriving DecidableEq, Repr

def Outstanding.server : Outstanding → Slot
  | .plain s | .line s => s

inductive Stage where
  | gone
  | fresh (ready : Bool)                                        -- not announced; the pager registers first
  | told                                                        -- announced, waits for init
  | unborn                                                      -- waits for the process manager
  | work (client reader : Option Slot) (asked : Option Outstanding)   -- owes `client` a reply, `reader` a line
  | hatch (client child : Slot) (granted : Bool)                -- the manager, before it releases a child
  | lost (server : Slot) (sent : Int)                           -- waits for a reply nobody owes
  | boot (n : Nat) (asked : Option Outstanding)                       -- init, with `n` services released
  | expect (n : Nat) (child : Slot)
  | grant (n : Nat) (child : Slot) (table : CTable)
  | parked

/- The order in which init brings the programs up. -/
def service : Nat → Fin 12
  | 0 => progConsole
  | 1 => progBlock
  | 2 => progVm
  | 3 => progPm
  | 4 => progFs
  | 5 => progVga
  | 6 => progShell
  | 7 => progShell2
  | _ => progInit

/- The slot of a server, by the thread ids of `syscall.h`. -/
def home (p : Fin 12) : Option Slot :=
  if p = progConsole then some 1
  else if p = progBlock then some 2
  else if p = progVm then some 3
  else if p = progPm then some 4
  else if p = progFs then some 5
  else if p = progVga then some 6
  else none

def IsShell (p : Fin 12) : Prop := p = progShell ∨ p = progShell2
instance (p : Fin 12) : Decidable (IsShell p) := by unfold IsShell; infer_instance

/- The endpoints that init, or the process manager for its child, grants to a program. -/
def endpoints (p : Fin 12) : List Slot :=
  if p = progBlock ∨ p = progVm ∨ p = progPm ∨ p = progHello then [1]
  else if p = progFs then [1,2]
  else if p = progShell then [1,5,4]
  else if p = progShell2 then [6,5,4]
  else []

/- The servers a program sends requests to. The kernel asks the pager for init. -/
def asks (p : Fin 12) : List Slot :=
  if p = progInit then [1,3]
  else if p = progBlock ∨ p = progVm ∨ p = progPm ∨ p = progHello then [1]
  else if p = progFs then [1,2]
  else if IsShell p then [1,5,4]
  else []

/- The requests that a server answers at once, and those it answers with a line. -/
def plainAt (server : Slot) (label : Word) : Bool :=
  if server = 1 ∨ server = 6 then label = msgWrite
  else if server = 2 then label = msgBread
  else if server = 3 then label = msgFault
  else if server = 4 then label = msgSpawn
  else if server = 5 then label = msgOpen ∨ label = msgFread ∨ label = msgClose ∨ label = msgList
  else false

def lineAt (server : Slot) (label : Word) : Bool := (server = 1 ∨ server = 6) ∧ label = msgReadline

def InHeap (va : Word) : Prop := Code.heapLo ≤ va ∧ va < Code.heapHi

section
variable (ok : Word → Prop) (p : Fin 12)

/- What is fixed about the words of a request: the programs a spawn may name, and
that the pager is asked for heap pages only. -/
def Meant (server : Slot) (m : IpcMsg) : Prop := (server = 4 → ok m.data0) ∧ (server = 3 → InHeap m.data1)

/- A send, the stage once it is taken, and the stage if the kernel refuses it;
`none` where the kernel never does. -/
inductive Sends : Stage → Int → IpcMsg → Stage → Option Stage → Prop where
  | announce {m} : Sends (.fresh true) 0 m .told none
  | release {n c table m} (granted : ∀ s ∈ endpoints (service n), table.hasEndpoint (tid s)) :
      Sends (.grant n c table) (tid c) m (.boot (n + 1) none) none
  | hatch {client c m} : Sends (.hatch client c true) (tid c) m (.work (some client) none none)
      (some (.work (some client) none none))
  | reply {client reader m} (pardon : p = progVm → m.data0 = 0) :
      Sends (.work (some client) reader none) (tid client) m (.work none reader none) none
  | line {reader m} (pardon : p = progVm → m.data0 = 0) :
      Sends (.work none (some reader) none) (tid reader) m (.work none none none) none
  | plain {client reader s m} (asks : s ∈ asks p) (label : plainAt s m.label) (meant : Meant ok s m) :
      Sends (.work client reader none) (tid s) m (.work client reader (some (.plain s)))
        (if s ∈ endpoints p then none else some (.lost s (-1)))
  | askLine {client reader s m} (asks : s ∈ asks p) (shell : IsShell p) (label : lineAt s m.label) :
      Sends (.work client reader none) (tid s) m (.work client reader (some (.line s)))
        (if s ∈ endpoints p then none else some (.lost s (-1)))
  | boot {n s m} (asks : s ∈ asks p) (up : s.val ≤ n) (label : plainAt s m.label) (meant : Meant ok s m) :
      Sends (.boot n none) (tid s) m (.boot n (some (.plain s))) none
  | vputs {m} (shell : IsShell p) (label : m.label = msgVputs) : Sends (.work none none none) 6 m (.lost 6 0)
      (if 6 ∈ endpoints p then none else some (.lost 6 (-1)))
  | probe {m} (shell : IsShell p) (label : m.label = msgReady) :
      Sends (.work none none none) 2 m (.work none none none) (some (.work none none none))

/- A receive: whom it accepts, and the mark on it. -/
inductive Listens : Stage → Int → Option Int → Prop where
  | told : Listens .told 0 none
  | unborn : Listens .unborn 4 none
  | expect {n c} : Listens (.expect n c) (-1) none
  | park : Listens (.boot 8 none) (-1) none
  | parked : Listens .parked (-1) none
  | answer {client reader a} : Listens (.work client reader (some a)) (tid a.server) (some 0)
  | root {n a} : Listens (.boot n (some a)) (tid a.server) (some 0)
  | serve {reader s} (home : home p = some s) : Listens (.work none reader none) (-1) none
  | lost {d r} : Listens (.lost d r) (tid d) (some r)

/- What a receive returns, and the stage after it. -/
inductive Hears : Stage → Int → IpcMsg → Stage → Prop where
  | go {m} : Hears .told 0 m (.work none none none)
  | born {m} : Hears .unborn 4 m (.work none none none)
  | ready {n c m} : Hears (.expect n c) (tid c) m (.grant n c capClear)
  | answer {client reader a m} : Hears (.work client reader (some a)) (tid a.server) m (.work client reader none)
  | root {n a m} (pardon : a.server = 3 → m.data0 = 0) : Hears (.boot n (some a)) (tid a.server) m (.boot n none)
  | plain {reader s client m} (home : home p = some s) (label : plainAt s m.label) (meant : Meant ok s m) :
      Hears (.work none reader none) (tid client) m (.work (some client) reader none)
  | line {reader s client m} (home : home p = some s) (label : lineAt s m.label) :
      Hears (.work none reader none) (tid client) m (.work none (some client) none)
  | other {reader s client m} (home : home p = some s) (plain : ¬ plainAt s m.label) (line : ¬ lineAt s m.label) :
      Hears (.work none reader none) (tid client) m (.work none reader none)
  | irq {reader junk} (terminal : home p = some 1 ∨ home p = some 6) :
      Hears (.work none reader none) ipcIrqSender (irqMsg junk) (.work none reader none)

/- The stages in which a program is at the head of a loop. -/
inductive At : Loop → Stage → Prop where
  | console {reader} (prog : p = progConsole) : At (.console (reader.map tid)) (.work none reader none)
  | block (prog : p = progBlock) : At .block (.work none none none)
  | pager (prog : p = progVm) : At .pager (.work none none none)
  | manager (prog : p = progPm) : At .manager (.work none none none)
  | files (prog : p = progFs) : At .files (.work none none none)
  | sectors {client} (prog : p = progFs) : At (.sectors (tid client)) (.work (some client) none none)
  | vga {reader} (prog : p = progVga) : At (.vga (reader.map tid)) (.work none reader none)
  | shell (prog : IsShell p) : At .shell (.work none none none)

/- Every call of the program, whatever the calls before it return, is one that its
stage allows. -/
def Code.Conforms : Code → Stage → Prop
  | .send dest m next, φ => ∃ taken refused, Sends ok p φ dest m taken refused ∧ (next 0).Conforms taken ∧
      ∀ ψ, refused = some ψ → (next (-1)).Conforms ψ
  | .recv src answering next, φ => Listens p φ src answering ∧
      ∀ source m ψ, Hears ok p φ source m ψ → (next source m).Conforms ψ
  | .spawn prog next, φ =>
      (∃ n, φ = .boot n none ∧ n < 8 ∧ cint prog = (service n).val ∧
        (∀ c : Slot, (n < 6 → c.val = n + 1) → (next (tid c)).Conforms (.expect n c)) ∧
        (7 ≤ n → (next (-1)).Conforms .parked)) ∨
      (∃ client, φ = .work (some client) none none ∧ p = progPm ∧ ok prog ∧
        (∀ c : Slot, (next (tid c)).Conforms (.hatch client c false)) ∧
        (next (-1)).Conforms (.work (some client) none none))
  | .map _ next, φ => next.Conforms φ
  | .setPager next, φ => φ = .fresh false ∧ p = progVm ∧ next.Conforms (.fresh true)
  | .grantIo t base len next, φ => ∃ n c table, φ = .grant n c table ∧ t = tid c ∧
      next.Conforms (.grant n c (table.grantIo base len).1)
  | .irqRegister _ next, φ => φ = .work none none none ∧ (home p = some 1 ∨ home p = some 6) ∧ next.Conforms φ
  | .mapPhys _ _ next, φ => (∃ n asked, φ = .boot n asked) ∧ next.Conforms φ
  | .grantCap t ep next, φ =>
      (∃ n c table s, φ = .grant n c table ∧ t = tid c ∧ ep = tid s ∧
        next.Conforms (.grant n c (table.grantEndpoint ep).1)) ∨
      (∃ client c, φ = .hatch client c false ∧ t = tid c ∧ ep = 1 ∧ next.Conforms (.hatch client c true))
  | .store va next, φ => ∃ n, φ = .boot n none ∧ 3 ≤ n ∧ InHeap va ∧ next.Conforms φ
  | .pick next, φ => ∀ a b, (next a b).Conforms φ
  | .again loop, φ => At p loop φ
  | .exit, φ => φ = .work none none none ∧ (p = progHello ∨ IsShell p)

/- What a program is expected to do first. -/
def opening (p : Fin 12) : Stage :=
  if p = progInit then .boot 0 none
  else if p = progHello then .unborn
  else .fresh (p ≠ progVm)

end
end Mukern
