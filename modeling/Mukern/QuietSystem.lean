import Mukern.ManagerAnswers

/-! The booted system as a whole: every server runs where the thread ids of `syscall.h`
say, and when no thread can run any more the boot is over and all wait for input. -/
namespace Mukern
open Kernel Rendezvous

/- Thread `i` sleeps in a receive from `src`. -/
def Kernel.listens (k : Kernel) (i : Slot) (src : Int) : Prop :=
  (k.threads i).state = .blocked ∧ (k.threads i).ipcState = .receiving ∧ (k.threads i).ipcPeer = src

/- A wait for the answer to a request that the kernel has refused. -/
def Code.unheard : Code → Bool
  | .recv _ (some sent) _ => sent = -1
  | _ => false

/- The calls in which a thread may sleep for good: init and the servers at their loops, a
program that the process manager could not release, a shell that waits for a line (or for the
answer to `MSG_VPUTS`, which the VGA server never gives), and one whose request was refused. -/
inductive Booted.Rests (s : Booted) (i : Slot) : Prop where
  | init (root : i = 0) (prog : s.prog i = progInit) (listens : s.kernel.listens i (-1))
  | server (place : home (s.prog i) = some i) (listens : s.kernel.listens i (-1))
  | hello (prog : s.prog i = progHello) (listens : s.kernel.listens i pmTid)
  | line (shell : IsShell (s.prog i)) (listens : s.kernel.listens i conTid ∨ s.kernel.listens i vgaTid)
  | unheard (shell : IsShell (s.prog i)) (calls : (s.code i).unheard)

/- All servers wait for requests, everybody else rests, and an interrupt on a line that
somebody has registered wakes its driver. -/
structure Booted.Idles (s : Booted) : Prop where
  root : s.prog 0 = progInit ∧ s.kernel.listens 0 (-1)
  servers : ∀ i : Slot, 1 ≤ i.val → i.val ≤ 6 → home (s.prog i) = some i ∧ s.kernel.listens i (-1)
  rest : ∀ i, presence (s.kernel.threads i) = .live → s.Rests i
  wakes : ∀ line d, s.kernel.irqTid line = tid d → ((s.kernel.irqNotify line).threads d).state = .runnable

section
variable {stray : Prop} {ok : Word → Prop} {φ : Slot → Stage} {c : Config} {s : Booted} {named : Word → Word} {i h : Slot} {a σ : Stage}
  {p : Fin 12} {table : CTable} {src : Int} {mark : Option Int} {n : Nat}

/-! Where the servers run. -/

theorem Working.atHome (working : Working σ i p table) (place : home p = some h) : i = h := by
  obtain ⟨here,_⟩ | ⟨hello | shell,_⟩ := working.place
  · exact Option.some.inj (here.symm.trans place)
  · rw [hello] at place
    cases place
  · exact absurd shell (homeShell place)

theorem homeService (place : home (service n) = some h) : n < 6 ∧ h.val = n + 1 := by
  match n with
  | 0 | 1 | 2 | 3 | 4 | 5 =>
    cases place
    decide
  | 6 | 7 | _ + 8 => cases place

theorem Seated.atHome (seated : Seated n i) (place : home (service n) = some h) : i = h := by
  obtain ⟨low,slot⟩ := homeService place
  obtain ⟨_,seat⟩ | ⟨high,_⟩ := seated
  · exact Fin.ext (seat.trans slot.symm)
  · omega

/- A program that has a home runs there, in whichever stage it is. -/
theorem Sound.atHome (sound : Sound ok stray φ c) (live : (c.face i).presence = .live) (place : home (c.prog i) = some h) : i = h := by
  have present := (sound.fit i).live.mp live
  have settled := sound.pact.settled i
  generalize stage : φ i = a at settled present
  cases a with
  | gone => exact absurd rfl present
  | fresh ready =>
    obtain ⟨n,_,program,_,seated⟩ := settled
    exact seated.atHome (program ▸ place)
  | told =>
    obtain ⟨n,_,program,seated⟩ := settled
    exact seated.atHome (program ▸ place)
  | unborn =>
    rw [settled.1] at place
    cases place
  | work | hatch | lost => exact settled.1.atHome place
  | boot | expect | grant =>
    rw [settled.2.1] at place
    cases place
  | parked =>
    rw [settled.2] at place
    cases place

/-! Who rests, and in which call. -/

/- Whom a thread listens to, by its stage, when nobody can run. -/
inductive Dozes (c : Config) (i : Slot) (src : Int) : Option Int → Prop where
  | init (root : i = 0) (prog : c.prog i = progInit) (any : src = -1) : Dozes c i src none
  | server (place : home (c.prog i) = some i) (any : src = -1) : Dozes c i src none
  | hello (prog : c.prog i = progHello) (manager : src = pmTid) : Dozes c i src none
  | line (shell : IsShell (c.prog i)) (terminal : src = conTid ∨ src = vgaTid) {mark} : Dozes c i src mark
  | unheard (shell : IsShell (c.prog i)) : Dozes c i src (some (-1))

theorem Pact.rootThere {prog : Slot → Fin 12} {tables : Slot → CTable} (pact : Pact stray φ prog tables) : φ 0 ≠ .gone := by
  intro gone
  have boots := pact.root
  rw [gone] at boots
  exact boots

/- Init waits for no child: one that it has started is awake, or asleep in another call. -/
theorem Sound.rootParks (sound : Sound ok stray φ c) (still : Still c) : φ 0 = .boot 8 none ∨ φ 0 = .parked := by
  obtain ⟨src,mark,_,listens⟩ := sound.listening still sound.pact.rootThere
  have boots := sound.pact.root
  have settled := sound.pact.settled 0
  generalize stage : φ 0 = a at listens settled boots
  cases listens with
  | park => exact .inl rfl
  | parked => exact .inr rfl
  | @expect n child =>
    obtain ⟨ready,fresh⟩ : ∃ ready, φ child = .fresh ready := by
      have raised := sound.pact.children 0 child (by rw [stage]; rfl)
      rwa [stage] at raised
    obtain ⟨_,_,_,listens⟩ := sound.listening still (i := child) (by rw [fresh]; exact nofun)
    rw [fresh] at listens
    cases listens
  | @root n asked =>
    have fits := settled.2.2.2 asked rfl
    cases asked with
    | plain server => exact absurd (by rw [stage]; rfl) (sound.answersAll still server (i := 0))
    | line server =>
      rw [settled.2.1] at fits
      exact absurd fits.2.1 (by decide)
  | _ => exact absurd boots id

theorem Sound.indexEight (sound : Sound ok stray φ c) (still : Still c) : (φ 0).index = 8 := by
  obtain stage | stage := sound.rootParks still <;> rw [stage] <;> rfl

theorem Sound.dozes (sound : Sound ok stray φ c) (still : Still c) (listens : Listens (c.prog i) (φ i) src mark) : Dozes c i src mark := by
  have settled := sound.pact.settled i
  have parks := sound.rootParks still
  have root : (φ i).boots → i = 0 := sound.pact.rootOnly
  generalize stage : φ i = a at listens settled root
  cases listens with
  | told =>
    -- a child that init has heard of keeps init from its loop
    obtain ⟨n,grants,_⟩ := settled
    rw [grants] at parks
    obtain boot | boot := parks <;> cases boot
  | unborn => exact .hello settled.1 rfl
  | expect =>
    obtain rfl := root trivial
    rw [stage] at parks
    obtain boot | boot := parks <;> cases boot
  | park => exact .init settled.1 settled.2.1 rfl
  | parked => exact .init settled.1 settled.2 rfl
  | @answer client reader asked =>
    cases asked with
    | plain server => exact absurd (by rw [stage]; rfl) (sound.answersAll still server (i := i))
    | line server =>
      obtain ⟨_,shell,rfl | rfl⟩ := settled.2 _ rfl
      · exact .line shell (.inl rfl)
      · exact .line shell (.inr rfl)
  | root =>
    obtain rfl := root trivial
    rw [stage] at parks
    obtain boot | boot := parks <;> cases boot
  | serve place =>
    obtain rfl := settled.1.atHome place
    exact .server place rfl
  | @lost d r =>
    obtain ⟨_,shell,⟨_,rfl⟩ | ⟨rfl,rfl⟩⟩ := settled
    · exact .unheard shell
    · exact .line shell (.inr rfl)

/-! The kernel's records. -/

theorem quietBlocked (quiet : s.kernel.Quiet) (live : presence (s.kernel.threads i) = .live) : (s.kernel.threads i).state = .blocked := by
  obtain ⟨waits,runs⟩ := quiet i
  unfold presence at live
  cases state : (s.kernel.threads i).state <;> simp_all

/- The mark on the receive tells whether its request was refused. -/
theorem Linked.marked {f : Face} {code : Code} (linked : Linked ok p f code a) (wire : f.wire = .receiving src) :
    ∃ mark, Listens p a src mark ∧ (mark = some (-1) → code.unheard) := by
  cases linked with
  | receiving wire' outside calls listens go =>
    cases wire.symm.trans wire'
    refine ⟨_,listens,fun refused => ?_⟩
    rw [calls,refused]
    rfl
  | faulted wire' fault stage go =>
    obtain sent | receiving := wire'
    · cases wire.symm.trans sent
    · cases wire.symm.trans receiving
      rw [stage]
      exact ⟨_,.root (a := .plain 3),nofun⟩
  | idle wire' | sending wire' | sent wire' | received wire' | faulting wire' | pardoned wire' => cases wire.symm.trans wire'

theorem Sound.rests (sound : Sound ok stray φ s.config) (still : Still s.config) (quiet : s.kernel.Quiet)
    (live : presence (s.kernel.threads i) = .live) : s.Rests i := by
  obtain ⟨present,linked⟩ := sound.linked (c := s.config) live
  obtain ⟨src,_,receiving,_⟩ := sound.listening still present
  obtain ⟨receives,peer⟩ := wireReceiving receiving
  have asleep : s.kernel.listens i src := ⟨quietBlocked quiet live,receives,peer⟩
  obtain ⟨mark,listens,refused⟩ := linked.marked receiving
  cases sound.dozes still listens with
  | init root prog any => exact .init root prog (any ▸ asleep)
  | server place any => exact .server place (any ▸ asleep)
  | hello prog manager => exact .hello prog (manager ▸ asleep)
  | line shell terminal =>
    refine .line shell ?_
    obtain rfl | rfl := terminal
    · exact .inl asleep
    · exact .inr asleep
  | unheard shell => exact .unheard shell (refused rfl)

/- A server that rests is at its loop. -/
theorem Booted.Rests.serves (rests : s.Rests i) (place : home (s.prog i) = some h) : s.kernel.listens i (-1) := by
  cases rests with
  | init root prog listens => exact listens
  | server _ listens => exact listens
  | hello prog =>
    rw [prog] at place
    cases place
  | line shell | unheard shell => exact absurd shell (homeShell place)

theorem Booted.Rests.parks (rests : s.Rests i) (prog : s.prog i = progInit) : s.kernel.listens i (-1) := by
  cases rests with
  | init root _ listens => exact listens
  | server place =>
    rw [prog] at place
    cases place
  | hello prog' => cases prog.symm.trans prog'
  | line shell | unheard shell =>
    rw [prog] at shell
    exact absurd shell (by decide)

/- An interrupt wakes a driver that receives. -/
theorem irqWakes {k : Kernel} {line : Fin 16} (named : k.irqTid line = tid i) (listens : k.listens i src) :
    ((k.irqNotify line).threads i).state = .runnable := by
  obtain ⟨blocked,receives,_⟩ := listens
  have driver : threadById (k.irqTid line) = some i := by rw [named,threadByIdTid]
  simp [irqNotify,driver,blocked,receives,threadWake]

theorem Sound.idles (sound : Sound ok stray φ s.config) (still : Still s.config) (quiet : s.kernel.Quiet) : s.Idles := by
  have eight := sound.indexEight still
  have servers : ∀ i : Slot, 1 ≤ i.val → i.val ≤ 6 → home (s.prog i) = some i ∧ s.kernel.listens i (-1) := by
    intro i low high
    obtain ⟨serves,place⟩ := sound.pact.serving low high (by omega)
    exact ⟨place,(sound.rests still quiet (sound.present serves.present)).serves place⟩
  refine ⟨?_,servers,fun i live => sound.rests still quiet live,fun line d registered => ?_⟩
  · have prog : s.prog 0 = progInit := by
      have settled := sound.pact.settled 0
      obtain stage | stage := sound.rootParks still
      · rw [stage] at settled
        exact settled.2.1
      · rw [stage] at settled
        exact settled.2
    exact ⟨prog,(sound.rests still quiet (sound.present sound.pact.rootThere)).parks prog⟩
  · obtain ⟨terminal | terminal,_⟩ := sound.lines line d registered
    all_goals
      subst terminal
      exact irqWakes registered (servers _ (by decide) (by decide)).2

/- In every run in which the process manager starts no program but hello. -/
theorem bootedSound (reach : Transition.Reach (bootedWith named) (fun s act => s.breedsOther act = false) s) :
    ∃ φ, Sound (fun _ => True) True φ s.config := by
  refine runSound (fun _ => trivial) (fun s ptr junk i straight current => ?_) reach
  refine ⟨fun _ _ _ _ => .inl trivial,fun program next calls manager free _ p named => ?_⟩
  have numbered : progById (cint program) = some p := by rw [named,progByIdVal]
  simpa [Booted.breedsOther,current,calls,manager,free,numbered] using straight

theorem shellsReach : Transition.Reach (bootedWith fun _ => 2) (fun s act => s.breedsOther act = false)
    (Booted.drive (fun _ => 2) 0 0 (fun s act => !s.breedsOther act) 238 (Booted.start Script.memory 0x110000)) := by
  have reach : Transition.Reach (bootedWith fun _ => 2) (fun s act => (!s.breedsOther act) = true) (Booted.start Script.memory 0x110000) :=
    .start ⟨_,_,rfl⟩
  exact (Booted.driveReach 0 0 (fun s act => !s.breedsOther act) 238 reach).mono fun s act keeps => by simpa using keeps

/- In a run in which the process manager starts no program but hello, no thread is ever
stuck: when nobody can run, the boot is over and the system waits for input. -/
theorem quietIdles (reach : Transition.Reach (bootedWith named) (fun s act => s.breedsOther act = false) s) (quiet : s.kernel.Quiet) :
    s.Idles := by
  obtain ⟨φ,sound⟩ := bootedSound reach
  exact sound.idles (quietStill (bootedCoherent reach) quiet) quiet

/- The boot, until both shells wait for good. -/
theorem quietIdlesShells : (Booted.drive (fun _ => 2) 0 0 (fun s act => !s.breedsOther act) 238 (Booted.start Script.memory 0x110000)).Idles :=
  quietIdles shellsReach (by decide +kernel)

/- Every server runs in the slot whose thread id its clients use, and only there. -/
theorem serversHome (reach : Transition.Reach (bootedWith named) (fun s act => s.breedsOther act = false) s)
    (live : presence (s.kernel.threads i) = .live) (place : home (s.prog i) = some h) : i = h := by
  obtain ⟨φ,sound⟩ := bootedSound reach
  exact sound.atHome (c := s.config) live place

theorem serversHomeFiles : (5 : Slot) = 5 ∧
    home ((Booted.drive (fun _ => 2) 0 0 (fun s act => !s.breedsOther act) 238 (Booted.start Script.memory 0x110000)).prog 5) = some 5 := by
  have place : home ((Booted.drive (fun _ => 2) 0 0 (fun s act => !s.breedsOther act) 238
      (Booted.start Script.memory 0x110000)).prog 5) = some 5 := by decide +kernel
  exact ⟨serversHome shellsReach (by decide +kernel) place,place⟩

end
end Mukern
