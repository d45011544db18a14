import Mukern.Compliance
import Mukern.ReceivedBytes
import Mukern.HeapWindow
import Mukern.ThreadFrames

/-! The requests for pages of the heap: what the programs map, and the way of a request
from the thread that faults through `vm_server` to `SYS_MAP`. -/
namespace Mukern
open Kernel Rendezvous

/- The message of a page fault in the window, on the page of that number. -/
def Requests (m : IpcMsg) (page : Nat) : Prop := m.label = msgFault ∧ InHeap m.data1 ∧ pageNumber m.data1 = page

/- The message that waits in a send, or that a receive has got. -/
def inFlight : Phase Int IpcMsg → Option IpcMsg
  | .sending _ m | .received _ m => some m
  | .idle | .sent | .receiving _ => none

namespace Code

/- What the program maps before it comes back to a loop or ends: the page of that address,
or nothing. -/
def Plans : Code → Option Word → Prop
  | .map va next, plan => plan = some va ∧ next.Plans none
  | .send _ m next, plan => m.label ≠ msgFault ∧ ∀ r, (next r).Plans plan
  | .recv _ _ next, plan => ∀ source m, (next source m).Plans plan
  | .spawn _ next, plan => ∀ r, (next r).Plans plan
  | .mapPhys va _ next, plan => (∀ va', InHeap va' → pageNumber va' ≠ pageNumber va) ∧ next.Plans plan
  | .setPager next, plan | .grantIo _ _ _ next, plan | .irqRegister _ next, plan | .grantCap _ _ next, plan
  | .store _ next, plan => next.Plans plan
  | .pick next, plan => ∀ a b, (next a b).Plans plan
  | .again _, plan | .exit, plan => plan = none

/- A program of the repository: it maps a page of the window at most, and only the pager's
loop leaves the choice to the message that it gets. -/
def Tame (c : Code) : Prop := c.Plans none ∨ (∃ va, InHeap va ∧ c.Plans (some va)) ∨ c = pagerLoop

section
variable {c c' : Code} {plan plan' : Option Word} {va : Word}

theorem Plans.unique (here : c.Plans plan) (there : c.Plans plan') : plan = plan' := by
  induction c generalizing plan plan' with
  | map va next _ => exact here.1.trans there.1.symm
  | send dest m next ih => exact ih 0 (here.2 0) (there.2 0)
  | recv src answering next ih => exact ih 0 ⟨0,0,0,0⟩ (here 0 ⟨0,0,0,0⟩) (there 0 ⟨0,0,0,0⟩)
  | spawn prog next ih => exact ih 0 (here 0) (there 0)
  | mapPhys va pa next ih => exact ih here.2 there.2
  | pick next ih => exact ih 0 0 (here 0 0) (there 0 0)
  | again loop | exit => exact Eq.trans here (Eq.symm there)
  | _ => rename_i ih; exact ih here there

theorem askPlans {dest : Int} {m : IpcMsg} {next : IpcMsg → Code} (label : m.label ≠ msgFault) (rest : ∀ r, (next r).Plans plan) :
    (ask dest m next).Plans plan := ⟨label,fun _ _ r => rest r⟩

theorem writePlans (rest : c.Plans plan) : (conWrite c).Plans plan :=
  fun _ _ => askPlans (by show msgWrite ≠ msgFault; decide) fun _ => rest

theorem writesPlans (n : Nat) (rest : c.Plans plan) : (conWrites n c).Plans plan := by
  induction n with
  | zero => exact rest
  | succ n ih => exact writePlans ih

theorem announcePlans (rest : c.Plans plan) : (announce c).Plans plan := ⟨by show msgReady ≠ msgFault; decide,fun _ _ _ => rest⟩

theorem replyPlans {dest : Int} {data0 data1 : Word} {next : Int → Code} (rest : ∀ r, (next r).Plans plan) :
    (Code.send dest (reply data0 data1) next).Plans plan := ⟨by show msgReply ≠ msgFault; decide,rest⟩

/-! The loops other than the pager's, and the entries of the programs. -/

theorem editPlans {loop : Option Int → Loop} {reader : Option Int} : (edit loop reader).Plans none := by
  cases reader with
  | none => rfl
  | some client =>
    intro finished n
    dsimp only
    split
    · rfl
    · exact replyPlans fun _ => rfl

theorem terminalPlans {loop : Option Int → Loop} {reader : Option Int} : (terminal loop reader).Plans none := by
  intro source m
  dsimp only
  split
  · exact editPlans
  split
  · exact replyPlans fun _ => rfl
  split
  · exact editPlans
  · rfl

theorem blockPlans : blockLoop.Plans none := by
  intro source m
  dsimp only
  split
  · exact fun _ _ => replyPlans fun _ => rfl
  · rfl

theorem managerPlans : managerLoop.Plans none := by
  intro source m
  dsimp only
  split
  · intro child
    have answer : (Code.send source (reply (cword child) 0) fun _ => .again .manager).Plans none := replyPlans fun _ => rfl
    dsimp only
    split
    · exact ⟨by show msgReply ≠ msgFault; decide,fun _ => answer⟩
    · exact answer
  · rfl

theorem filesPlans : filesLoop.Plans none := by
  intro source m
  dsimp only
  split
  · rfl
  split
  · rfl
  split
  · exact replyPlans fun _ => rfl
  split <;> rfl

theorem sectorsPlans {client : Int} : (sectorsLoop client).Plans none := by
  intro finished lba
  dsimp only
  split
  · exact fun _ _ => askPlans (by show msgBread ≠ msgFault; decide) fun _ => rfl
  · exact fun _ _ => replyPlans fun _ => rfl

theorem psPlans (rest : c.Plans plan) : ∀ left, (cmdPs c left).Plans plan
  | 0 => rest
  | left + 1 => by
    intro live _
    dsimp only
    split
    · exact psPlans rest left
    · exact writesPlans _ (psPlans rest left)

theorem shellLoopPlans {named : Word → Word} : (shellLoop named).Plans none := by
  have head : (Code.again .shell).Plans none := rfl
  refine writePlans fun buf max => askPlans (by show msgReadline ≠ msgFault; decide) fun r => ?_
  dsimp only
  split
  · exact head
  intro command arg
  dsimp only
  split
  · exact writePlans head
  · exact writesPlans 2 head
  · exact fun _ _ => askPlans (by show msgList ≠ msgFault; decide) fun _ => writePlans head
  · intro name empty
    dsimp only
    split
    · exact writePlans head
    · refine askPlans (by show msgOpen ≠ msgFault; decide) fun opened => ?_
      split
      · exact writesPlans 3 head
      · exact fun _ _ => askPlans (by show msgFread ≠ msgFault; decide) fun _ =>
          writePlans (askPlans (by show msgClose ≠ msgFault; decide) fun _ => head)
  · exact askPlans (by show msgSpawn ≠ msgFault; decide) fun _ => writesPlans 3 head
  · exact psPlans head 16
  · exact writesPlans 7 head
  · exact writesPlans 5 head
  · exact fun _ _ => askPlans (by show msgVputs ≠ msgFault; decide) fun _ => writePlans head
  · exact writePlans head
  · exact writePlans (show Code.exit.Plans none from rfl)
  · exact writesPlans 3 head

theorem startPlans {p : Fin 12} {release : Int → Code} (rest : ∀ child, (release child).Plans plan) : (start p release).Plans plan :=
  fun child _ _ => rest child

theorem goPlans (t : Int) (word : Word) (rest : c.Plans plan) : (Code.go t word c).Plans plan := replyPlans fun _ => rest

theorem initPlans : Code.init.Plans none := by
  have apart : ∀ va, InHeap va → pageNumber va ≠ pageNumber vgaFbVa := by
    intro va inside same
    have above : heapLo.toNat ≤ va.toNat := BitVec.le_def.mp inside.1
    have below : va.toNat < heapHi.toNat := BitVec.lt_def.mp inside.2
    have low : heapLo.toNat = 0x400000400000 := by decide
    have high : heapHi.toNat = 0x400000410000 := by decide
    have place : vgaFbVa.toNat = 0x400000b00000 := by decide
    unfold pageNumber at same
    omega
  refine startPlans fun con => goPlans conTid 0 (writePlans (startPlans fun blk => goPlans blkTid 0 (startPlans fun vm =>
    goPlans vmTid 0 (startPlans fun pm => goPlans pmTid 0 (startPlans fun fs => goPlans fsTid 0 (writePlans ⟨apart,?_⟩))))))
  refine startPlans fun vga => goPlans vgaTid 0 (writePlans (show (Code.store _ _).Plans none from writePlans ?_))
  exact startPlans fun sh1 => goPlans sh1 _ (startPlans fun sh2 => goPlans sh2 _ (writePlans fun _ _ => rfl))

theorem shellPlans : Code.shell.Plans none := by
  have greet : (conWrites 2 (.again .shell)).Plans none := writesPlans 2 (show (Code.again .shell).Plans none from rfl)
  refine announcePlans ⟨by show msgReady ≠ msgFault; decide,fun refused => ?_⟩
  dsimp only
  split
  · exact writePlans greet
  · exact greet

theorem appPlans : Code.app.Plans none := by
  have last : Code.exit.Plans none := rfl
  refine fun name buf => askPlans (by show msgOpen ≠ msgFault; decide) fun opened => ?_
  split
  · exact writePlans last
  · exact writesPlans 2 (askPlans (by show msgFread ≠ msgFault; decide) fun _ => writesPlans 2 last)

theorem mainPlans (p : Fin 12) : (Code.main p).Plans none := by
  have last : Code.exit.Plans none := rfl
  match p with
  | 0 => exact initPlans
  | 1 => exact announcePlans (writePlans rfl)
  | 2 => exact fun _ _ => writePlans last
  | 3 => exact announcePlans (writePlans rfl)
  | 4 => exact announcePlans rfl
  | 5 => exact announcePlans (writePlans rfl)
  | 6 => exact announcePlans (writePlans rfl)
  | 7 => exact appPlans
  | 8 => exact writePlans (show (Code.store _ _).Plans none from writePlans last)
  | 9 => exact shellPlans
  | 10 => exact announcePlans rfl
  | 11 => exact shellPlans

theorem bodyPlans {named : Word → Word} {loop : Loop} (other : loop ≠ .pager) : (body named loop).Plans none := by
  cases loop with
  | console reader | vga reader => exact terminalPlans
  | block => exact blockPlans
  | pager => exact absurd rfl other
  | manager => exact managerPlans
  | files => exact filesPlans
  | sectors client => exact sectorsPlans
  | shell => exact shellLoopPlans

/-! What a program leads to. -/

/- The program is about to map that page of the window. -/
def Owes (c : Code) (page : Nat) : Prop := ∃ va, InHeap va ∧ pageNumber va = page ∧ c.Plans (some va)

/- `c'` comes after `c` and maps no other page of the window. -/
structure Leads (c c' : Code) : Prop where
  tame : c'.Tame
  owes : ∀ page, c'.Owes page → c.Owes page

theorem Plans.free {page : Nat} (idle : c.Plans none) : ¬ c.Owes page :=
  fun ⟨va,_,_,planned⟩ => Option.some_ne_none va (planned.unique idle)

theorem Plans.leads (idle : c'.Plans none) : Leads c c' := ⟨.inl idle,fun _ owes => absurd owes idle.free⟩

theorem pagerFree {page : Nat} : ¬ pagerLoop.Owes page := by
  rintro ⟨va,_,_,planned⟩
  have nothing : (Code.again .pager).Plans (some va) := planned 0 ⟨0,0,0,0⟩
  exact Option.some_ne_none va nothing

theorem bodyLeads {named : Word → Word} {loop : Loop} : Leads c (body named loop) := by
  by_cases pager : loop = .pager
  · subst pager
    exact ⟨.inr (.inr rfl),fun _ owes => absurd owes pagerFree⟩
  · exact (bodyPlans pager).leads

theorem Tame.leads (tame : c.Tame) (other : c ≠ pagerLoop) (same : ∀ plan, c.Plans plan → c'.Plans plan) : Leads c c' := by
  obtain idle | ⟨va,inside,planned⟩ | pager := tame
  · exact (same none idle).leads
  · refine ⟨.inr (.inl ⟨va,inside,same _ planned⟩),?_⟩
    rintro page ⟨va',inside',number,there⟩
    obtain rfl := Option.some.inj (there.unique (same _ planned))
    exact ⟨va',inside',number,planned⟩
  · exact absurd pager other

/- A receive leaves what is planned, or it is the pager's and takes a request. -/
theorem Tame.heard {src : Int} {mark : Option Int} {next : Int → IpcMsg → Code} (tame : (Code.recv src mark next).Tame) (source : Int) (m : IpcMsg) :
    Leads (.recv src mark next) (next source m) ∨ (next source m).Tame ∧ ∀ page, (next source m).Owes page → Requests m page := by
  obtain idle | ⟨va,inside,planned⟩ | pager := tame
  · exact .inl (Plans.leads (idle source m))
  · refine .inl ⟨.inr (.inl ⟨va,inside,planned source m⟩),?_⟩
    rintro page ⟨va',inside',number,there⟩
    obtain rfl := Option.some.inj (there.unique (planned source m))
    exact ⟨va',inside',number,planned⟩
  · cases pager
    refine .inr ?_
    dsimp only
    split
    · rename_i label
      split
      · rename_i inside
        have planned : (conWrite (conWrite (.map m.data1 (.send source (reply 0 0) fun _ => .again .pager)))).Plans (some m.data1) :=
          writePlans (writePlans ⟨rfl,replyPlans fun _ => rfl⟩)
        refine ⟨.inr (.inl ⟨_,inside,planned⟩),?_⟩
        rintro page ⟨va,_,number,there⟩
        obtain rfl := Option.some.inj (there.unique planned)
        exact ⟨label,inside,number⟩
      · have idle : (conWrite (conWrite (.send source (reply 1 0) fun _ => .again .pager))).Plans none :=
          writePlans (writePlans (replyPlans fun _ => rfl))
        exact ⟨.inl idle,fun _ owes => absurd owes idle.free⟩
    · exact ⟨.inl rfl,fun _ owes => absurd owes (Plans.free rfl)⟩

theorem Tame.signalled {src source : Int} {mark : Option Int} {next : Int → IpcMsg → Code} (tame : (Code.recv src mark next).Tame)
    {m : IpcMsg} (label : m.label ≠ msgFault) : Leads (.recv src mark next) (next source m) := by
  obtain leads | ⟨tame,owes⟩ := tame.heard source m
  · exact leads
  · exact ⟨tame,fun page there => absurd (owes page there).1 label⟩

end
end Code

/-! The requests of the pager that are under way. -/

/- Where a request waits: in the message of a thread, or in what its program does next. -/
inductive Holder where
  | wire (i : Slot)
  | code (i : Slot)

/- Where the request was that thread `i` has got from thread `j`. -/
def Holder.earlier (i j : Slot) : Holder → Holder
  | .wire l => .wire l
  | .code l => if l = i then .wire j else .code l

def Sought (k : Kernel) (code : Slot → Code) (page : Nat) : Holder → Prop
  | .wire i => ∃ m, inFlight (face (k.threads i)).wire = some m ∧ Requests m page
  | .code i => (code i).Owes page

/- The thread is in a receive of its program. -/
def Face.Hears (f : Face) : Prop := f.fault = false ∧ ((∃ src, f.wire = .receiving src) ∨ ∃ source m, f.wire = .received source m)

/- Each page of the window that a request is under way for has one request, and is not
mapped. -/
structure Orderly (k : Kernel) (code : Slot → Code) : Prop where
  hears : ∀ i, (face (k.threads i)).Hears → (code i).isRecv
  tame : ∀ i, (code i).Tame
  single : ∀ page x y, Sought k code page x → Sought k code page y → x = y
  unmapped : ∀ va x, InHeap va → Sought k code (pageNumber va) x → k.memory.trace va = none
  pages : HeapPages k.memory

/- A thread sends nothing new, and its program maps no other page. -/
structure Onward (f f' : Face) (c c' : Code) : Prop where
  flight : inFlight f'.wire = none ∨ inFlight f'.wire = inFlight f.wire
  hears : f'.Hears → f.Hears ∧ c' = c ∨ c'.isRecv
  code : c' = c ∨ c.Leads c'

section
variable {k k' : Kernel} {code code' : Slot → Code} {f f' : Face} {c c' : Code} {i j : Slot} {m : IpcMsg} {page : Nat}

theorem Onward.refl : Onward f f c c := ⟨.inr rfl,fun hears => .inl ⟨hears,rfl⟩,.inl rfl⟩

theorem Onward.same (wire : f'.wire = f.wire) (fault : f'.fault = f.fault) : Onward f f' c c :=
  ⟨.inr (congrArg inFlight wire),fun hears => .inl ⟨⟨fault.symm.trans hears.1,wire ▸ hears.2⟩,rfl⟩,.inl rfl⟩

theorem Face.deaf (quiet : f.wire = .idle ∨ f.wire = .sent) : ¬ f.Hears := by
  rintro ⟨_,⟨src,receiving⟩ | ⟨source,m,received⟩⟩
  · rw [receiving] at quiet
    simp at quiet
  · rw [received] at quiet
    simp at quiet

/- A thread that carries no message and waits for none. -/
theorem Onward.quiet (wire : f'.wire = .idle ∨ f'.wire = .sent) (code : c' = c ∨ c.Leads c') : Onward f f' c c' := by
  refine ⟨.inl ?_,fun hears => absurd hears (Face.deaf wire),code⟩
  obtain idle | sent := wire
  · rw [idle]
    rfl
  · rw [sent]
    rfl

/- The kernel waits for the pager's answer on behalf of a thread. -/
theorem Onward.faulting {src : Int} (wire : f'.wire = .receiving src) (fault : f'.fault = true) : Onward f f' c c :=
  ⟨.inl (by rw [wire]; rfl),fun hears => (by cases fault.symm.trans hears.1),.inl rfl⟩

section
variable (follows : Onward f f' c c')
include follows

theorem Onward.tame (tame : c.Tame) : c'.Tame := by
  obtain same | leads := follows.code
  · exact same ▸ tame
  · exact leads.tame

theorem Onward.owes (owes : c'.Owes page) : c.Owes page := by
  obtain same | leads := follows.code
  · exact same ▸ owes
  · exact leads.owes page owes

theorem Onward.carried (carried : inFlight f'.wire = some m) : inFlight f.wire = some m := by
  obtain none | same := follows.flight
  · cases none.symm.trans carried
  · exact same ▸ carried

theorem Onward.listens (listens : f.Hears → c.isRecv) (hears : f'.Hears) : c'.isRecv := by
  obtain ⟨before,same⟩ | recv := follows.hears hears
  · exact same ▸ listens before
  · exact recv

end

theorem Sought.before {x : Holder} (each : ∀ j, Onward (face (k.threads j)) (face (k'.threads j)) (code j) (code' j)) (here : Sought k' code' page x) :
    Sought k code page x := by
  cases x with
  | wire j =>
    obtain ⟨m,carried,requests⟩ := here
    exact ⟨m,(each j).carried carried,requests⟩
  | code j => exact (each j).owes here

/- No request is new. -/
theorem Orderly.onto (h : Orderly k code) (each : ∀ j, Onward (face (k.threads j)) (face (k'.threads j)) (code j) (code' j))
    (unmapped : ∀ va x, InHeap va → Sought k' code' (pageNumber va) x → k'.memory.trace va = none) (pages : HeapPages k'.memory) :
    Orderly k' code' :=
  ⟨fun j => (each j).listens (h.hears j),fun j => (each j).tame (h.tame j),
    fun page x y here there => h.single page x y (here.before each) (there.before each),unmapped,pages⟩

section
variable (h : Orderly k code) (memory : k'.memory = k.memory)
include h memory

theorem Orderly.follow (each : ∀ j, Onward (face (k.threads j)) (face (k'.threads j)) (code j) (code' j)) : Orderly k' code' := by
  refine h.onto each (fun va x inside here => ?_) (memory ▸ h.pages)
  rw [memory]
  exact h.unmapped va x inside (here.before each)

/- A message that thread `j` carried comes to the program of thread `i`. -/
theorem Orderly.pass (carried : inFlight (face (k.threads j)).wire = some m) (taken : inFlight (face (k'.threads j)).wire = none)
    (idle : (face (k'.threads i)).wire = .idle) (tame : (code' i).Tame) (owes : ∀ page, (code' i).Owes page → Requests m page)
    (rest : ∀ l, l ≠ i → Onward (face (k.threads l)) (face (k'.threads l)) (code l) (code' l)) : Orderly k' code' := by
  have empty : ∀ page l, l = i ∨ l = j → ¬ Sought k' code' page (.wire l) := by
    rintro page l own ⟨m',carried',_⟩
    obtain rfl | rfl := own
    · rw [idle] at carried'
      cases carried'
    · cases taken.symm.trans carried'
  have back : ∀ page x, Sought k' code' page x → Sought k code page (Holder.earlier i j x) := by
    intro page x here
    cases x with
    | wire l =>
      by_cases own : l = i
      · exact absurd here (empty page l (.inl own))
      · obtain ⟨m',carried',requests⟩ := here
        exact ⟨m',(rest l own).carried carried',requests⟩
    | code l =>
      by_cases own : l = i
      · rw [Holder.earlier,if_pos own]
        exact ⟨m,carried,owes page (own ▸ here)⟩
      · rw [Holder.earlier,if_neg own]
        exact (rest l own).owes here
  refine ⟨atOne (i := i) (fun hears => absurd hears (Face.deaf (.inl idle))) fun l other => (rest l other).listens (h.hears l),
    atOne (i := i) tame fun l other => (rest l other).tame (h.tame l),fun page x y here there => ?_,fun va x inside here => ?_,memory ▸ h.pages⟩
  · have same := h.single page _ _ (back page x here) (back page y there)
    cases x with
    | wire l =>
      cases y with
      | wire l' => exact same
      | code l' =>
        simp only [Holder.earlier] at same
        split at same
        · cases same
          exact absurd here (empty page j (.inr rfl))
        · cases same
    | code l =>
      cases y with
      | wire l' =>
        simp only [Holder.earlier] at same
        split at same
        · cases same
          exact absurd there (empty page j (.inr rfl))
        · cases same
      | code l' =>
        simp only [Holder.earlier] at same
        split at same <;> split at same
        · rename_i own own'
          rw [own,own']
        · cases same
        · cases same
        · exact same
  · rw [memory]
    exact h.unmapped va _ inside (back _ x here)

/- A thread carries a message that nobody carried before. -/
theorem Orderly.grant (carries : inFlight (face (k'.threads i)).wire = some m) (fresh : ∀ page x, Requests m page → ¬ Sought k code page x)
    (absent : ∀ va, InHeap va → Requests m (pageNumber va) → k.memory.trace va = none)
    (listens : (face (k'.threads i)).Hears → (face (k.threads i)).Hears) (same : code' i = code i)
    (rest : ∀ l, l ≠ i → Onward (face (k.threads l)) (face (k'.threads l)) (code l) (code' l)) : Orderly k' code' := by
  have back : ∀ page x, Sought k' code' page x → Sought k code page x ∨ x = .wire i ∧ Requests m page := by
    intro page x here
    cases x with
    | wire l =>
      obtain ⟨m',carried,requests⟩ := here
      by_cases own : l = i
      · subst own
        cases carries.symm.trans carried
        exact .inr ⟨rfl,requests⟩
      · exact .inl ⟨m',(rest l own).carried carried,requests⟩
    | code l =>
      by_cases own : l = i
      · subst own
        exact .inl (show (code l).Owes page from same ▸ here)
      · exact .inl ((rest l own).owes here)
  refine ⟨atOne (i := i) (fun hears => ?_) fun l other => (rest l other).listens (h.hears l),
    atOne (i := i) (same ▸ h.tame i) fun l other => (rest l other).tame (h.tame l),fun page x y here there => ?_,fun va x inside here => ?_,memory ▸ h.pages⟩
  · rw [same]
    exact h.hears i (listens hears)
  · obtain before | ⟨rfl,requests⟩ := back page x here <;> obtain before' | ⟨rfl,requests'⟩ := back page y there
    · exact h.single page x y before before'
    · exact absurd before (fresh page x requests')
    · exact absurd before' (fresh page y requests)
    · rfl
  · rw [memory]
    obtain before | ⟨_,requests⟩ := back _ x here
    · exact h.unmapped va x inside before
    · exact absent va inside requests

/- The program of thread `i` goes on. -/
theorem Orderly.goes (idle : (face (k'.threads i)).wire = .idle) (leads : (code i).Leads c)
    (rest : ∀ l, l ≠ i → Onward (face (k.threads l)) (face (k'.threads l)) (code l) (code l)) :
    Orderly k' fun j => if j = i then c else code j := by
  refine h.follow memory (atOne (i := i) ?_ fun l other => ?_)
  · rw [if_pos rfl]
    exact .quiet (.inl idle) (.inr leads)
  · rw [if_neg other]
    exact rest l other

/- The program of thread `i` gets the message that thread `j` carried. -/
theorem Orderly.gets {src source : Int} {mark : Option Int} {next : Int → IpcMsg → Code} (calls : code i = .recv src mark next)
    (carried : inFlight (face (k.threads j)).wire = some m) (taken : inFlight (face (k'.threads j)).wire = none)
    (idle : (face (k'.threads i)).wire = .idle)
    (rest : ∀ l, l ≠ i → Onward (face (k.threads l)) (face (k'.threads l)) (code l) (code l)) :
    Orderly k' fun l => if l = i then next source m else code l := by
  have tame : (Code.recv src mark next).Tame := calls ▸ h.tame i
  obtain leads | ⟨tame,owes⟩ := tame.heard source m
  · exact h.goes memory idle (calls ▸ leads) rest
  · refine h.pass (i := i) memory carried taken idle ?_ (fun page there => owes page ?_) fun l other => ?_
    · rw [if_pos rfl]
      exact tame
    · rwa [if_pos rfl] at there
    · rw [if_neg other]
      exact rest l other

/- Thread `i` carries a message that asks for no page. -/
theorem Orderly.carries (carries : inFlight (face (k'.threads i)).wire = some m) (label : m.label ≠ msgFault)
    (listens : (face (k'.threads i)).Hears → (face (k.threads i)).Hears)
    (rest : ∀ l, l ≠ i → Onward (face (k.threads l)) (face (k'.threads l)) (code l) (code l)) : Orderly k' code :=
  h.grant memory carries (fun _ _ requests => absurd requests.1 label) (fun _ _ requests => absurd requests.1 label) listens rfl rest

end
end
end Mukern
