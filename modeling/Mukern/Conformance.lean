import Mukern.Protocol

/-! Every program of the boot archive that init or a shell starts keeps to the
protocol: one lemma for each way of calling, then the loops, then the entries. -/
namespace Mukern
open Kernel
namespace Code
variable {ok : Word → Prop} {p : Fin 12} {client reader : Option Slot} {n : Nat}

theorem terminalProg : home p = some 1 ∨ home p = some 6 → p = progConsole ∨ p = progVga := by
  revert p
  decide

/- A thread that waits for a reply nobody owes does as it should, for ever. -/
theorem lostConforms {d : Slot} {r : Int} {next : Int → IpcMsg → Code} :
    (Code.recv (tid d) (some r) next).Conforms ok p (.lost d r) :=
  ⟨.lost,fun _ _ _ heard => nomatch heard⟩

theorem answerConforms {a : Outstanding} {next : IpcMsg → Code} (go : ∀ r, (next r).Conforms ok p (.work client reader none)) :
    (Code.recv (tid a.server) (some 0) fun _ r => next r).Conforms ok p (.work client reader (some a)) := by
  refine ⟨.answer,fun source m ψ heard => ?_⟩
  cases heard
  exact go m

theorem refusedConforms {s : Slot} {next : Int → IpcMsg → Code} {ψ : Stage}
    (refused : (if s ∈ endpoints p then none else some (.lost s (-1))) = some ψ) :
    (Code.recv (tid s) (some (-1)) next).Conforms ok p ψ := by
  split at refused
  · cases refused
  · cases refused
    exact lostConforms

theorem askConforms {s : Slot} {m : IpcMsg} {next : IpcMsg → Code} (member : s ∈ asks p) (label : plainAt s m.label)
    (meant : Meant ok s m) (go : ∀ r, (next r).Conforms ok p (.work client reader none)) :
    (ask (tid s) m next).Conforms ok p (.work client reader none) :=
  ⟨_,_,.plain member label meant,answerConforms go,fun _ => refusedConforms⟩

theorem conWriteConforms {next : Code} (member : 1 ∈ asks p) (go : next.Conforms ok p (.work client reader none)) :
    (conWrite next).Conforms ok p (.work client reader none) :=
  fun _ _ => askConforms (s := 1) member rfl ⟨nofun,nofun⟩ fun _ => go

theorem conWritesConforms {next : Code} (member : 1 ∈ asks p) (go : next.Conforms ok p (.work client reader none)) :
    ∀ n, (conWrites n next).Conforms ok p (.work client reader none)
  | 0 => go
  | n + 1 => conWriteConforms member (conWritesConforms member go n)

theorem conReadlineConforms {next : BitVec 32 → Code} (member : 1 ∈ asks p) (shell : IsShell p)
    (go : ∀ n, (next n).Conforms ok p (.work client reader none)) :
    (conReadline next).Conforms ok p (.work client reader none) :=
  fun _ _ => ⟨_,_,.askLine (s := 1) member shell rfl,answerConforms fun _ => go _,fun _ => refusedConforms⟩

theorem announceConforms {next : Code} (go : next.Conforms ok p (.work none none none)) :
    (announce next).Conforms ok p (.fresh true) := by
  refine ⟨_,_,.announce,⟨.told,fun source m ψ heard => ?_⟩,nofun⟩
  cases heard
  exact go

theorem replyConforms {y : Slot} {m : IpcMsg} {next : Int → Code} (pardon : p = progVm → m.data0 = 0)
    (go : (next 0).Conforms ok p (.work none reader none)) :
    (Code.send (tid y) m next).Conforms ok p (.work (some y) reader none) :=
  ⟨_,_,.reply pardon,go,nofun⟩


/- The bodies of the loops. -/

theorem editConforms {loop : Option Int → Loop} {reader : Option Slot} (notPager : p ≠ progVm)
    (head : ∀ reader : Option Slot, At p (loop (reader.map tid)) (.work none reader none)) :
    (edit loop (reader.map tid)).Conforms ok p (.work none reader none) := by
  cases reader with
  | none => exact head none
  | some y =>
    intro finished n
    dsimp only
    split
    · exact head (some y)
    · exact ⟨_,_,.line fun pager => absurd pager notPager,head none,nofun⟩

theorem terminalConforms {loop : Option Int → Loop} {s : Slot} (place : home p = some s) (terminal : s = 1 ∨ s = 6)
    (head : ∀ reader : Option Slot, At p (loop (reader.map tid)) (.work none reader none)) :
    (Code.terminal loop (reader.map tid)).Conforms ok p (.work none reader none) := by
  refine ⟨.serve place,fun source m ψ heard => ?_⟩
  dsimp only
  have pagerless : p ≠ progVm := by
    rintro rfl
    cases place.symm.trans (show home progVm = some 3 from rfl)
    simp at terminal
  cases heard with
  | @plain _ s' y _ place' label meant =>
    cases place.symm.trans place'
    have label' : m.label = msgWrite := by simpa [plainAt,terminal] using label
    rw [label',if_neg (by decide),if_pos rfl]
    exact replyConforms (fun pager => absurd pager pagerless) (head reader)
  | @line _ s' y _ place' label =>
    cases place.symm.trans place'
    have label' : m.label = msgReadline := by simpa [lineAt,terminal] using label
    rw [label',if_neg (by decide),if_neg (by decide),if_pos rfl]
    have started := @editConforms ok p loop (some y) pagerless head
    exact started
  | @other _ s' y _ place' plain line =>
    cases place.symm.trans place'
    have notWrite : m.label ≠ msgWrite := by simpa [plainAt,terminal] using plain
    have notLine : m.label ≠ msgReadline := by simpa [lineAt,terminal] using line
    rw [if_neg notWrite,if_neg notLine]
    split
    · exact editConforms pagerless head
    · exact head reader
  | @irq _ junk _ =>
    have fired : (irqMsg junk).label = msgIrq := rfl
    rw [if_pos fired]
    exact editConforms pagerless head

theorem blockConforms : blockLoop.Conforms ok progBlock (.work none none none) := by
  refine ⟨.serve (s := 2) rfl,fun source m ψ heard => ?_⟩
  dsimp only
  cases heard with
  | @plain _ s y _ place label meant =>
    cases (show home progBlock = some 2 from rfl).symm.trans place
    have label' : m.label = msgBread := by simpa [plainAt] using label
    rw [if_pos label']
    exact fun rc _ => replyConforms nofun (.block rfl)
  | @line _ s y _ place label =>
    cases (show home progBlock = some 2 from rfl).symm.trans place
    simp [lineAt] at label
  | @other _ s y _ place plain line =>
    cases (show home progBlock = some 2 from rfl).symm.trans place
    have label : m.label ≠ msgBread := by simpa [plainAt] using plain
    rw [if_neg label]
    exact .block rfl
  | irq terminal => exact absurd (terminalProg terminal) (by decide)

theorem pagerConforms : pagerLoop.Conforms ok progVm (.work none none none) := by
  refine ⟨.serve (s := 3) rfl,fun source m ψ heard => ?_⟩
  dsimp only
  cases heard with
  | @plain _ s y _ place label meant =>
    cases (show home progVm = some 3 from rfl).symm.trans place
    have label' : m.label = msgFault := by simpa [plainAt] using label
    have window : heapLo ≤ m.data1 ∧ m.data1 < heapHi := meant.2 rfl
    rw [if_pos label',if_pos window]
    have answered : (Code.send (tid y) (reply 0 0) fun _ => .again .pager).Conforms ok progVm
        (.work (some y) none none) := replyConforms (fun _ => rfl) (.pager rfl)
    exact conWriteConforms (by decide) (conWriteConforms (by decide) answered)
  | @line _ s y _ place label =>
    cases (show home progVm = some 3 from rfl).symm.trans place
    simp [lineAt] at label
  | @other _ s y _ place plain line =>
    cases (show home progVm = some 3 from rfl).symm.trans place
    have label : m.label ≠ msgFault := by simpa [plainAt] using plain
    rw [if_neg label]
    exact .pager rfl
  | irq terminal => exact absurd (terminalProg terminal) (by decide)

theorem managerConforms : managerLoop.Conforms ok progPm (.work none none none) := by
  refine ⟨.serve (s := 4) rfl,fun source m ψ heard => ?_⟩
  dsimp only
  cases heard with
  | @plain _ s y _ place label meant =>
    cases (show home progPm = some 4 from rfl).symm.trans place
    have label' : m.label = msgSpawn := by simpa [plainAt] using label
    rw [if_pos label']
    have answered : ∀ r, (Code.send (tid y) (reply (cword r) 0) fun _ => .again .manager).Conforms ok progPm
        (.work (some y) none none) := fun r => replyConforms nofun (.manager rfl)
    refine .inr ⟨y,rfl,rfl,meant.1 rfl,fun c => ?_,answered _⟩
    dsimp only
    rw [if_pos (tidNonneg c)]
    refine .inr ⟨y,c,rfl,rfl,rfl,_,_,.hatch,answered _,?_⟩
    rintro _ ⟨⟩
    exact answered _
  | @line _ s y _ place label =>
    cases (show home progPm = some 4 from rfl).symm.trans place
    simp [lineAt] at label
  | @other _ s y _ place plain line =>
    cases (show home progPm = some 4 from rfl).symm.trans place
    have label : m.label ≠ msgSpawn := by simpa [plainAt] using plain
    rw [if_neg label]
    exact .manager rfl
  | irq terminal => exact absurd (terminalProg terminal) (by decide)

theorem filesConforms : filesLoop.Conforms ok progFs (.work none none none) := by
  refine ⟨.serve (s := 5) rfl,fun source m ψ heard => ?_⟩
  dsimp only
  cases heard with
  | @plain _ s y _ place label meant =>
    cases (show home progFs = some 5 from rfl).symm.trans place
    split
    · exact .sectors rfl
    split
    · exact .sectors rfl
    split
    · exact replyConforms nofun (.files rfl)
    split
    · exact .sectors rfl
    · simp_all [plainAt]
  | @line _ s y _ place label =>
    cases (show home progFs = some 5 from rfl).symm.trans place
    simp [lineAt] at label
  | @other _ s y _ place plain line =>
    cases (show home progFs = some 5 from rfl).symm.trans place
    have label : ¬ (m.label = msgOpen ∨ m.label = msgFread ∨ m.label = msgClose ∨ m.label = msgList) := by
      simpa [plainAt] using plain
    obtain ⟨notOpen,notRead,notClose,notList⟩ : m.label ≠ msgOpen ∧ m.label ≠ msgFread ∧ m.label ≠ msgClose ∧
        m.label ≠ msgList := by simpa using label
    rw [if_neg notOpen,if_neg notRead,if_neg notClose,if_neg notList]
    exact .files rfl
  | irq terminal => exact absurd (terminalProg terminal) (by decide)

theorem sectorsConforms {y : Slot} : (sectorsLoop (tid y)).Conforms ok progFs (.work (some y) none none) := by
  intro finished lba
  dsimp only
  split
  · exact fun buf _ => askConforms (s := 2) (by decide) rfl ⟨nofun,nofun⟩ fun _ => .sectors rfl
  · exact fun data0 data1 => replyConforms nofun (.files rfl)

theorem cmdPsConforms {next : Code} (member : 1 ∈ asks p) (go : next.Conforms ok p (.work client reader none)) :
    ∀ left, (cmdPs next left).Conforms ok p (.work client reader none)
  | 0 => go
  | left + 1 => by
    intro live _
    dsimp only
    split
    · exact cmdPsConforms member go left
    · exact conWritesConforms member (cmdPsConforms member go left) _

theorem shellLoopConforms {named : Word → Word} (asked : ∀ arg, ok (named arg)) (shell : IsShell p) :
    (shellLoop named).Conforms ok p (.work none none none) := by
  have con : 1 ∈ asks p := by revert p; decide
  have fs : 5 ∈ asks p := by revert p; decide
  have pm : 4 ∈ asks p := by revert p; decide
  have head : (Code.again .shell).Conforms ok p (.work none none none) := .shell shell
  refine conWriteConforms con (conReadlineConforms con shell fun n => ?_)
  split
  · exact head
  · intro command arg
    dsimp only
    split
    · exact conWriteConforms con head
    · exact conWritesConforms con head 2
    · exact fun buf _ => askConforms (s := 5) fs rfl ⟨nofun,nofun⟩ fun _ => conWriteConforms con head
    · intro name empty
      dsimp only
      split
      · exact conWriteConforms con head
      · refine askConforms (s := 5) fs rfl ⟨nofun,nofun⟩ fun opened => ?_
        split
        · exact conWritesConforms con head 3
        · exact fun buf _ => askConforms (s := 5) fs rfl ⟨nofun,nofun⟩ fun _ =>
            conWriteConforms con (askConforms (s := 5) fs rfl ⟨nofun,nofun⟩ fun _ => head)
    · exact askConforms (s := 4) pm rfl ⟨fun _ => asked arg,nofun⟩ fun _ => conWritesConforms con head 3
    · exact cmdPsConforms con head 16
    · exact conWritesConforms con head 7
    · exact conWritesConforms con head 5
    · exact fun args _ => ⟨_,_,.vputs shell rfl,lostConforms (d := 6),fun _ => refusedConforms (s := 6)⟩
    · exact conWriteConforms con head
    · exact conWriteConforms con ⟨rfl,.inr shell⟩
    · exact conWritesConforms con head 3

/- At the head of a loop the body conforms. -/
theorem bodyConforms {named : Word → Word} (asked : ∀ arg, ok (named arg)) {loop : Loop} {φ : Stage}
    (head : At p loop φ) : (body named loop).Conforms ok p φ := by
  cases head with
  | console prog => subst prog; exact terminalConforms (s := 1) rfl (.inl rfl) fun _ => .console rfl
  | block prog => subst prog; exact blockConforms
  | pager prog => subst prog; exact pagerConforms
  | manager prog => subst prog; exact managerConforms
  | files prog => subst prog; exact filesConforms
  | sectors prog => subst prog; exact sectorsConforms
  | vga prog => subst prog; exact terminalConforms (s := 6) rfl (.inr rfl) fun _ => .vga rfl
  | shell prog => exact shellLoopConforms asked prog

theorem shellConforms (shell : IsShell p) : Code.shell.Conforms ok p (.fresh true) := by
  have con : 1 ∈ asks p := by revert p; decide
  have head : (Code.again .shell).Conforms ok p (.work none none none) := .shell shell
  have greet := conWritesConforms con head 2
  exact announceConforms ⟨_,_,.probe shell rfl,greet,fun _ same => by cases same; exact conWriteConforms con greet⟩

theorem helloConforms : hello.Conforms ok progHello .unborn := by
  refine ⟨.unborn,fun source m ψ heard => ?_⟩
  cases heard
  exact conWriteConforms (by decide) ⟨rfl,.inl rfl⟩

theorem printConforms {next : Code} (up : 1 ≤ n) (go : next.Conforms ok progInit (.boot n none)) :
    (conWrite next).Conforms ok progInit (.boot n none) := by
  have printing : ∀ m : IpcMsg, m.label = msgWrite → Sends ok progInit (.boot n none) (tid 1) m (.boot n (some (.plain 1))) none :=
    fun m label => .boot (by decide) up (by simp [plainAt,label]) ⟨nofun,nofun⟩
  refine fun _ _ => ⟨_,_,printing _ rfl,⟨.root (a := .plain 1),fun source m ψ heard => ?_⟩,nofun⟩
  cases heard
  exact go

theorem startConforms {release : Int → Code} (few : n < 8)
    (go : ∀ c : Slot, (n < 6 → c.val = n + 1) → (release (tid c)).Conforms ok progInit (.grant n c capClear)) :
    (start (service n) release).Conforms ok progInit (.boot n none) := by
  have numbers : ∀ n < 8, cint (BitVec.ofNat 64 (service n).val) = (service n).val := by decide
  refine .inl ⟨n,rfl,few,numbers n few,fun c placed => ⟨.expect,fun source m ψ heard => ?_⟩,fun _ => ⟨.parked,nofun⟩⟩
  cases heard
  exact go c placed

theorem goConforms {c : Slot} {table : CTable} {terminal : Word} {next : Code}
    (granted : ∀ s ∈ endpoints (service n), table.hasEndpoint (tid s)) (go : next.Conforms ok progInit (.boot (n + 1) none)) :
    (Code.go (tid c) terminal next).Conforms ok progInit (.grant n c table) := ⟨_,_,.release granted,go,nofun⟩

theorem initConforms : init.Conforms ok progInit (.boot 0 none) := by
  refine startConforms (n := 0) (by decide) fun c first => ?_
  have con : c = 1 := Fin.ext (first (by decide))
  subst con
  refine ⟨0,1,_,rfl,rfl,goConforms (c := 1) nofun (printConforms (by decide) ?_)⟩
  refine startConforms (n := 1) (by decide) fun c second => ?_
  have blk : c = 2 := Fin.ext (second (by decide))
  subst blk
  refine ⟨1,2,_,rfl,rfl,.inl ⟨1,2,_,1,rfl,rfl,rfl,goConforms (c := 2) (by decide) ?_⟩⟩
  refine startConforms (n := 2) (by decide) fun c third => ?_
  have vm : c = 3 := Fin.ext (third (by decide))
  subst vm
  refine .inl ⟨2,3,_,1,rfl,rfl,rfl,goConforms (c := 3) (by decide) ?_⟩
  refine startConforms (n := 3) (by decide) fun c fourth => ?_
  have pm : c = 4 := Fin.ext (fourth (by decide))
  subst pm
  refine .inl ⟨3,4,_,1,rfl,rfl,rfl,goConforms (c := 4) (by decide) ?_⟩
  refine startConforms (n := 4) (by decide) fun c fifth => ?_
  have fs : c = 5 := Fin.ext (fifth (by decide))
  subst fs
  refine .inl ⟨4,5,_,1,rfl,rfl,rfl,.inl ⟨4,5,_,2,rfl,rfl,rfl,goConforms (c := 5) (by decide) ?_⟩⟩
  refine printConforms (by decide) ⟨⟨5,none,rfl⟩,?_⟩
  refine startConforms (n := 5) (by decide) fun c sixth => ?_
  have vga : c = 6 := Fin.ext (sixth (by decide))
  subst vga
  refine ⟨5,6,_,rfl,rfl,goConforms (c := 6) nofun (printConforms (by decide) ?_)⟩
  refine ⟨6,rfl,by decide,⟨by decide,by decide⟩,printConforms (by decide) ?_⟩
  refine startConforms (n := 6) (by decide) fun sh1 _ => ?_
  refine .inl ⟨6,sh1,_,1,rfl,rfl,rfl,.inl ⟨6,sh1,_,5,rfl,rfl,rfl,.inl ⟨6,sh1,_,4,rfl,rfl,rfl,?_⟩⟩⟩
  refine goConforms (by decide) ?_
  refine startConforms (n := 7) (by decide) fun sh2 _ => ?_
  refine .inl ⟨7,sh2,_,6,rfl,rfl,rfl,.inl ⟨7,sh2,_,5,rfl,rfl,rfl,.inl ⟨7,sh2,_,4,rfl,rfl,rfl,?_⟩⟩⟩
  refine goConforms (by decide) (printConforms (by decide) ?_)
  exact ⟨.park,nofun⟩

/- Every program that init starts, from its entry. -/
theorem serviceConforms {n : Nat} (few : n < 8) : (main (service n)).Conforms ok (service n) (opening (service n)) := by
  match n, few with
  | 0, _ =>
    have head : At progConsole (.console (Option.map tid none)) (.work none none none) := .console rfl
    exact announceConforms ⟨rfl,.inl rfl,head⟩
  | 1, _ => exact announceConforms (conWriteConforms (by decide) (At.block rfl))
  | 2, _ => exact ⟨rfl,rfl,announceConforms (conWriteConforms (by decide) (At.pager rfl))⟩
  | 3, _ => exact announceConforms (conWriteConforms (by decide) (At.manager rfl))
  | 4, _ => exact announceConforms (conWriteConforms (by decide) (At.files rfl))
  | 5, _ =>
    have head : At progVga (.vga (Option.map tid none)) (.work none none none) := .vga rfl
    exact announceConforms ⟨rfl,.inr rfl,head⟩
  | 6, _ => exact shellConforms (.inl rfl)
  | 7, _ => exact shellConforms (.inr rfl)

end Code
end Mukern
