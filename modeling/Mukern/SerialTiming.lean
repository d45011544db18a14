import Mukern.ReadRequests
import Mukern.Library.TypeAhead

/-! The lines that the console driver reads do not depend on when the interrupts come.
Two runs that take the same bytes and the same requests are in states that differ at
most in the ring's indices, in the memory outside the line and in what was printed. -/
namespace Mukern
open Buffers Transition TypeAhead

namespace Console
variable {con con' : Console} {c : Byte}

structure Alike (con con' : Console) : Prop where
  frame : ∃ memory ring uart wrote, con' = { con with memory := memory, ring := ring, uart := uart, wrote := wrote }
  pos : con.rdPos ≤ con.rdN
  line : con.rdActive = true → ∀ i < con.rdN, con'.memory (con.rdBuf + i) = con.memory (con.rdBuf + i)

theorem insertAlike (alike : Alike con con') (active : con.rdActive = true) : Alike (con.insChar c) (con'.insChar c) := by
  obtain ⟨⟨memory,ring,uart,wrote,rfl⟩,pos,line⟩ := alike
  simp only [insChar]
  split
  · exact ⟨⟨_,_,_,_,rfl⟩,pos,line⟩
  · exact ⟨⟨_,_,_,_,rfl⟩,Nat.succ_le_succ pos,fun _ => insertSame (line active) pos⟩

theorem deleteLeftAlike (alike : Alike con con') (active : con.rdActive = true) : Alike con.delLeft con'.delLeft := by
  obtain ⟨⟨memory,ring,uart,wrote,rfl⟩,pos,line⟩ := alike
  simp only [delLeft]
  split
  · exact ⟨⟨_,_,_,_,rfl⟩,pos,line⟩
  · rename_i later
    exact ⟨⟨_,_,_,_,rfl⟩,Nat.sub_le_sub_right pos 1,fun _ => deleteSame (line active) (by omega)⟩

theorem deleteAtAlike (alike : Alike con con') (active : con.rdActive = true) : Alike con.delAt con'.delAt := by
  obtain ⟨⟨memory,ring,uart,wrote,rfl⟩,pos,line⟩ := alike
  simp only [delAt]
  split
  · exact ⟨⟨_,_,_,_,rfl⟩,pos,line⟩
  · rename_i earlier
    exact ⟨⟨_,_,_,_,rfl⟩,Nat.le_pred_of_lt (not_le.mp earlier),fun _ => deleteSame (line active) (not_le.mp earlier)⟩

theorem leftAlike (alike : Alike con con') : Alike con.goLeft con'.goLeft := by
  obtain ⟨⟨memory,ring,uart,wrote,rfl⟩,pos,line⟩ := alike
  simp only [goLeft]
  split
  · exact ⟨⟨_,_,_,_,rfl⟩,(Nat.sub_le _ _).trans pos,line⟩
  · exact ⟨⟨_,_,_,_,rfl⟩,pos,line⟩

theorem rightAlike (alike : Alike con con') : Alike con.goRight con'.goRight := by
  obtain ⟨⟨memory,ring,uart,wrote,rfl⟩,pos,line⟩ := alike
  simp only [goRight]
  split
  · rename_i earlier
    exact ⟨⟨_,_,_,_,rfl⟩,earlier,line⟩
  · exact ⟨⟨_,_,_,_,rfl⟩,pos,line⟩

theorem homeAlike (alike : Alike con con') : Alike con.goHome con'.goHome := by
  obtain ⟨⟨memory,ring,uart,wrote,rfl⟩,pos,line⟩ := alike
  rw [goHomeIs,goHomeIs]
  exact ⟨⟨_,_,_,_,rfl⟩,Nat.zero_le _,line⟩

theorem toEndAlike (alike : Alike con con') : Alike con.goEnd con'.goEnd := by
  obtain ⟨⟨memory,ring,uart,wrote,rfl⟩,pos,line⟩ := alike
  have other : { con with memory := memory, ring := ring, uart := uart, wrote := wrote }.goEnd = _ := goEndIs pos
  rw [goEndIs pos,other]
  exact ⟨⟨_,_,_,_,rfl⟩,Nat.le_refl _,line⟩

theorem killAlike (alike : Alike con con') : Alike con.killLine con'.killLine := by
  obtain ⟨⟨memory,ring,uart,wrote,same⟩,_,_⟩ := toEndAlike alike
  rw [killLine,killLine,eraseLineIs,eraseLineIs,same]
  exact ⟨⟨_,_,_,_,rfl⟩,Nat.le_refl 0,fun _ i low => absurd low (Nat.not_lt_zero i)⟩

theorem setLineAlike (alike : Alike con con') (s : Buffer Byte) (n : Nat) : Alike (con.setLine s n) (con'.setLine s n) := by
  obtain ⟨⟨memory,ring,uart,wrote,same⟩,_,_⟩ := toEndAlike alike
  rw [setLine,setLine,eraseLineIs,eraseLineIs,same]
  refine ⟨⟨_,_,_,_,rfl⟩,Nat.le_refl _,fun _ i low => ?_⟩
  exact (copyInside low).trans (copyInside low).symm

theorem navAlike (alike : Alike con con') (nav : Nat) : Alike { con with hNav := nav } { con' with hNav := nav } := by
  obtain ⟨⟨memory,ring,uart,wrote,rfl⟩,pos,line⟩ := alike
  exact ⟨⟨_,_,_,_,rfl⟩,pos,line⟩

theorem parkAlike (alike : Alike con con') (active : con.rdActive = true) : Alike con.parkLine con'.parkLine := by
  obtain ⟨⟨memory,ring,uart,wrote,rfl⟩,pos,line⟩ := alike
  have kept : (if con.rdN < 128 then con.rdN else 128 - 1) ≤ con.rdN := by split <;> omega
  have parked : copy con.hSaved 0 memory con.rdBuf (if con.rdN < 128 then con.rdN else 128 - 1) =
      copy con.hSaved 0 con.memory con.rdBuf (if con.rdN < 128 then con.rdN else 128 - 1) :=
    copySame fun i low => line active i (low.trans_le kept)
  refine ⟨⟨memory,ring,uart,wrote,?_⟩,pos,line⟩
  simp only [parkLine,parked]

/- The end of `hist_nav`, at the depth `nav`. -/
def browse (con : Console) (nav : Int) : Console :=
  if nav = 0 then con.setLine con.hSaved con.hSavedN
  else con.setLine (con.hist ((con.hNext + 16 - con.hNav) % 16)) (con.histLen ((con.hNext + 16 - con.hNav) % 16))

theorem histNavIs (con : Console) (delta : Int) : con.histNav delta =
    let nav : Int := con.hNav + (if delta < 0 then 1 else -1)
    if nav < 0 ∨ nav > con.hCount then con
    else browse { (if con.hNav = 0 ∧ nav > 0 then con.parkLine else con) with hNav := nav.toNat } nav := rfl

theorem browseAlike (alike : Alike con con') (nav : Int) : Alike (con.browse nav) (con'.browse nav) := by
  have same := alike
  obtain ⟨⟨memory,ring,uart,wrote,rfl⟩,_,_⟩ := alike
  unfold browse
  dsimp only
  split
  · exact setLineAlike same _ _
  · exact setLineAlike same _ _

theorem histNavAlike (alike : Alike con con') (active : con.rdActive = true) (delta : Int) : Alike (con.histNav delta) (con'.histNav delta) := by
  have nav : con'.hNav = con.hNav := by
    obtain ⟨⟨_,_,_,_,rfl⟩,_,_⟩ := alike
    rfl
  have count : con'.hCount = con.hCount := by
    obtain ⟨⟨_,_,_,_,rfl⟩,_,_⟩ := alike
    rfl
  rw [histNavIs,histNavIs,nav,count]
  generalize (con.hNav : Int) + (if delta < 0 then 1 else -1) = nav
  dsimp only
  split
  · exact alike
  · split
    · exact browseAlike (navAlike (parkAlike alike active) _) nav
    · exact browseAlike (navAlike alike _) nav

theorem performAlike (alike : Alike con con') (active : con.rdActive = true) (k : LineCommand) : Alike (con.perform k) (con'.perform k) := by
  cases k with
  | insert c => exact insertAlike alike active
  | deleteLeft => exact deleteLeftAlike alike active
  | deleteAt => exact deleteAtAlike alike active
  | left => exact leftAlike alike
  | right => exact rightAlike alike
  | home => exact homeAlike alike
  | toEnd => exact toEndAlike alike
  | kill => exact killAlike alike
  | older => exact histNavAlike alike active (-1)
  | newer => exact histNavAlike alike active 1
  | nothing => exact alike

theorem histPushKeeps (con : Console) (s n : Nat) :
    (con.histPush s n).memory = con.memory ∧ (con.histPush s n).rdBuf = con.rdBuf ∧ (con.histPush s n).rdN = con.rdN ∧
      (con.histPush s n).rdPos = con.rdPos := by
  unfold histPush
  split
  · exact ⟨rfl,rfl,rfl,rfl⟩
  · dsimp only
    split <;> exact ⟨rfl,rfl,rfl,rfl⟩

/- `hist_push` reads the line and no other memory. -/
theorem histPushReads {memory : Buffer Byte} {ring uart wrote} {s n : Nat} (same : ∀ i < n, memory (s + i) = con.memory (s + i)) :
    { con with memory := memory, ring := ring, uart := uart, wrote := wrote }.histPush s n =
      { con.histPush s n with memory := memory, ring := ring, uart := uart, wrote := wrote } := by
  have newest : ∀ entry : Buffer Byte, (∀ i < n, entry i = memory (s + i)) ↔ ∀ i < n, entry i = con.memory (s + i) := by
    intro entry
    refine forall_congr' fun i => forall_congr' fun low => ?_
    rw [same i low]
  have kept : (if n ≥ 128 then 128 - 1 else n) ≤ n := by split <;> omega
  have stored : ∀ entry : Buffer Byte, copy entry 0 memory s (if n ≥ 128 then 128 - 1 else n) = copy entry 0 con.memory s (if n ≥ 128 then 128 - 1 else n) :=
    fun entry => copySame fun i low => same i (by omega)
  unfold histPush
  simp only [newest,stored]
  split
  · rfl
  · split <;> rfl

/- The line goes to the history and to the client; after that the buffer is the client's. -/
theorem finishAlike (alike : Alike con con') (active : con.rdActive = true) : Alike con.finishLine con'.finishLine := by
  obtain ⟨⟨memory,ring,uart,wrote,rfl⟩,pos,line⟩ := alike
  obtain ⟨cells,buf,n,at'⟩ := histPushKeeps con.terminated con.rdBuf con.rdN
  have same : ∀ i < con.rdN + 1, memory.set (con.rdBuf + con.rdN) 0 (con.rdBuf + i) = con.terminated.memory (con.rdBuf + i) := by
    intro i low
    rcases Nat.lt_succ_iff_lt_or_eq.mp low with below | last
    · exact (setOther (by omega)).trans ((line active i below).trans (setOther (by omega)).symm)
    · rw [last]
      exact setSame.trans setSame.symm
  have pushed : { con with memory := memory, ring := ring, uart := uart, wrote := wrote }.terminated.histPush con.rdBuf con.rdN =
      { con.terminated.histPush con.rdBuf con.rdN with
        memory := memory.set (con.rdBuf + con.rdN) 0, ring := ring, uart := uart ++ [10], wrote := wrote } :=
    histPushReads fun i low => same i (Nat.lt_succ_of_lt low)
  have reply : read (memory.set (con.rdBuf + con.rdN) 0) con.rdBuf (con.rdN + 1) = read con.terminated.memory con.rdBuf (con.rdN + 1) :=
    readMoved same
  rw [finishLineIs,finishLineIs]
  dsimp only
  rw [pushed]
  generalize con.terminated.histPush con.rdBuf con.rdN = done at cells buf n at' ⊢
  have shown : read (memory.set (con.rdBuf + con.rdN) 0) done.rdBuf (done.rdN + 1) = read done.memory done.rdBuf (done.rdN + 1) := by
    rw [buf,n,cells]
    exact reply
  have inside : done.rdPos ≤ done.rdN := by
    rw [n,at']
    exact pos
  refine ⟨⟨memory.set (con.rdBuf + con.rdN) 0,ring,uart ++ [10],wrote,?_⟩,inside,fun reading => by cases reading⟩
  simp only [shown]

theorem emptyAlike (alike : Alike con con') : Alike con.emptied con'.emptied := by
  obtain ⟨⟨memory,ring,uart,wrote,rfl⟩,_,_⟩ := alike
  exact ⟨⟨_,_,_,_,rfl⟩,Nat.le_refl 0,fun _ i low => absurd low (Nat.not_lt_zero i)⟩

theorem escAlike (alike : Alike con con') (esc : Esc) : Alike { con with esc := esc } { con' with esc := esc } := by
  obtain ⟨⟨_,_,_,_,rfl⟩,pos,line⟩ := alike
  exact ⟨⟨_,_,_,_,rfl⟩,pos,line⟩

theorem numberAlike (alike : Alike con con') (num : BitVec 32) : Alike { con with csiNum := num } { con' with csiNum := num } := by
  obtain ⟨⟨_,_,_,_,rfl⟩,pos,line⟩ := alike
  exact ⟨⟨_,_,_,_,rfl⟩,pos,line⟩

/- One turn of the loop of `edit`, in two runs. -/
theorem byteAlike (alike : Alike con con') (active : con.rdActive = true) (c : Byte) : Alike (con.editByte c) (con'.editByte c) := by
  obtain ⟨esc,csi⟩ : con'.esc = con.esc ∧ con'.csiNum = con.csiNum := by
    obtain ⟨⟨_,_,_,_,rfl⟩,_,_⟩ := alike
    exact ⟨rfl,rfl⟩
  unfold editByte
  rw [esc]
  cases con.esc with
  | sawEsc => exact escAlike (numberAlike alike 0) _
  | inCsi =>
    simp only [insideCsi,csiFinalIs,csi]
    split
    · exact numberAlike alike _
    · exact escAlike (performAlike alike active _) .normal
  | normal =>
    simp only [normalKeyIs]
    cases LineKey.ofByte c with
    | command k => exact performAlike alike active k
    | escape => exact escAlike alike .sawEsc
    | accept => exact finishAlike alike active
    | cancel => exact finishAlike (emptyAlike alike) active

theorem byteRing (con : Console) (c : Byte) : (con.editByte c).ring = con.ring := by
  have finished (con : Console) : con.finishLine.ring = con.ring := (con.terminated.histPushFramed con.rdBuf con.rdN).ring
  unfold editByte
  cases con.esc with
  | sawEsc => rfl
  | inCsi =>
    simp only [insideCsi,csiFinalIs]
    split
    · rfl
    · exact (con.performEdited _).framed.ring
  | normal =>
    simp only [normalKeyIs]
    cases LineKey.ofByte c with
    | command k => exact (con.performEdited k).framed.ring
    | escape => rfl
    | accept => exact finished con
    | cancel => exact finished con.emptied

/- A request is the sender, the address of the buffer and its size. -/
def lineDiscipline : Discipline Console Byte (Int × Nat × Nat) where
  busy con := con.rdActive
  eat := editByte
  ask con request := con.takeRequest request.1 request.2.1 request.2.2

theorem Alike.active (alike : Alike con con') : con'.rdActive = con.rdActive := by
  obtain ⟨⟨_,_,_,_,rfl⟩,_,_⟩ := alike
  rfl

theorem Alike.moved (alike : Alike con con') (ring : Ring Byte 256) : Alike con { con' with ring := ring } := by
  obtain ⟨⟨_,_,_,_,rfl⟩,pos,line⟩ := alike
  exact ⟨⟨_,_,_,_,rfl⟩,pos,line⟩

theorem editDrains : Drains lineDiscipline edit (fun con => con.ring.contents) (fun _ => True) Alike where
  done _ := rfl
  idle alike idle := editIdle (alike.active.trans idle) _
  turn := by
    intro con con' c queue turns alike active held _
    obtain ⟨ring,popped,left⟩ := Ring.popSome held
    have rest := byteRing { con' with ring := ring } c
    exact ⟨_,editTurn (alike.active.trans active) popped turns,byteAlike (alike.moved ring) active c,(congrArg Ring.contents rest).trans left⟩

/- All that is in the ring. -/
theorem editAlike {queue : List Byte} (alike : Alike con con') (held : con'.ring.contents = queue) :
    Alike (lineDiscipline.serve con queue).1 (con'.edit con'.ring.used) ∧
      (con'.edit con'.ring.used).ring.contents = (lineDiscipline.serve con queue).2 := by
  rw [← Ring.contentsLength,held]
  exact editDrains.drained alike held fun _ _ => trivial

end Console

namespace ConsoleEvent

def typed : ConsoleEvent → List Byte
  | .irq waiting => waiting
  | .write _ _ _ | .readline _ _ _ | .clients _ => []

def request? : ConsoleEvent → Option (Int × Nat × Nat)
  | .readline sender data0 data1 => some (sender,data0,data1)
  | .irq _ | .write _ _ _ | .clients _ => none

def brings : ConsoleEvent → Option (Arrival Byte (Int × Nat × Nat))
  | .irq waiting => some (.input waiting)
  | .readline sender data0 data1 => some (.request (sender,data0,data1))
  | .write _ _ _ | .clients _ => none

/- The ring has room for what the interrupt finds, and a request comes after the reply
to the one before. -/
def timely (con : Console) : ConsoleEvent → Prop
  | .irq waiting => con.ring.used + waiting.length < 256
  | .readline _ _ _ => con.rdActive = false
  | .write _ _ _ | .clients _ => True

instance (con : Console) (event : ConsoleEvent) : Decidable (event.timely con) :=
  match event with
  | .irq waiting => inferInstanceAs (Decidable (con.ring.used + waiting.length < 256))
  | .readline _ _ _ => inferInstanceAs (Decidable (con.rdActive = false))
  | .write _ _ _ | .clients _ => inferInstanceAs (Decidable True)

end ConsoleEvent

/- The main loop. Nobody else writes to the line that is being edited; the rest of the
buffer is as the client likes. -/
def serialSystem : System Console ConsoleEvent where
  start con := ∃ memory waiting self, con = .boot memory waiting self
  enabled con
    | .clients memory => con.rdActive = true → ∀ i < con.rdN, memory (con.rdBuf + i) = con.memory (con.rdBuf + i)
    | .irq _ | .write _ _ _ | .readline _ _ _ => True
  next := Console.handle

instance (con : Console) (event : ConsoleEvent) : Decidable (serialSystem.enabled con event) :=
  match event with
  | .clients memory =>
    inferInstanceAs (Decidable (con.rdActive = true → ∀ i < con.rdN, memory (con.rdBuf + i) = con.memory (con.rdBuf + i)))
  | .irq _ | .write _ _ _ | .readline _ _ _ => inferInstanceAs (Decidable True)

namespace Console

def Mirrors (con : Console) (p : Console × List Byte) : Prop := Alike p.1 con ∧ con.ring.contents = p.2

theorem askAlike (alike : Alike con con') (sender : Int) (data0 data1 : Nat) :
    Alike (con.takeRequest sender data0 data1) (con'.takeRequest sender data0 data1) := by
  obtain ⟨⟨_,_,_,_,rfl⟩,_,_⟩ := alike
  exact ⟨⟨_,_,_,_,rfl⟩,Nat.le_refl 0,fun _ i low => absurd low (Nat.not_lt_zero i)⟩

theorem mirrorsRun : Runs serialSystem (fun con event => event.timely con) lineDiscipline (fun _ => ConsoleEvent.brings) Mirrors where
  step := by
    rintro con event ⟨model,queue⟩ ⟨alike,held⟩ enabled meets
    replace alike : Alike model con := alike
    replace held : con.ring.contents = queue := held
    cases event with
    | irq waiting =>
      have pushed : (con.drainRx waiting).ring.contents = queue ++ waiting := by
        rw [← held]
        exact Ring.pushAllContents meets
      exact editAlike (alike.moved _) pushed
    | write sender data0 data1 =>
      refine ⟨?_,held⟩
      obtain ⟨⟨_,_,_,_,rfl⟩,pos,line⟩ := alike
      exact ⟨⟨_,_,_,_,rfl⟩,pos,line⟩
    | readline sender data0 data1 => exact editAlike (askAlike alike sender data0 data1) held
    | clients memory =>
      have same := alike.active
      refine ⟨?_,held⟩
      obtain ⟨⟨_,_,_,_,rfl⟩,pos,line⟩ := alike
      exact ⟨⟨_,_,_,_,rfl⟩,pos,fun active i low => (enabled (same.trans active) i low).trans (line active i low)⟩
  free := by
    rintro con event ⟨model,queue⟩ a ⟨alike,_⟩ meets brought request
    cases event with
    | readline sender data0 data1 => exact (Alike.active alike).symm.trans meets
    | irq waiting =>
      cases brought
      cases request
    | write sender data0 data1 => cases brought
    | clients memory => cases brought

theorem bootMirrors {waiting : List Byte} (fits : waiting.length < 256) (memory : Buffer Byte) (self : Nat) :
    Mirrors (boot memory waiting self) (boot (fun _ => 0) [] 0,waiting) := by
  refine ⟨⟨⟨_,_,_,_,rfl⟩,Nat.le_refl 0,fun active => by cases active⟩,?_⟩
  have empty : Ring.used ⟨fun _ => (0 : Byte),0,0,(by decide : 0 < 256),by decide⟩ = 0 := rfl
  exact (Ring.pushAllContents (by rwa [empty,Nat.zero_add])).trans rfl

end Console

theorem typedBrought (S : System Console ConsoleEvent) (con : Console) (events : List ConsoleEvent) :
    (arrivals S (fun _ => ConsoleEvent.brings) con events).flatMap Arrival.bytes = events.flatMap ConsoleEvent.typed ∧
      (arrivals S (fun _ => ConsoleEvent.brings) con events).filterMap Arrival.request? = events.filterMap ConsoleEvent.request? := by
  induction events generalizing con with
  | nil => exact ⟨rfl,rfl⟩
  | cons event events ih =>
    obtain ⟨bytes,requests⟩ := ih (S.next con event)
    cases event with
    | irq waiting => exact ⟨congrArg (waiting ++ ·) bytes,requests⟩
    | readline sender data0 data1 => exact ⟨bytes,congrArg ((sender,data0,data1) :: ·) requests⟩
    | write sender data0 data1 => exact ⟨bytes,requests⟩
    | clients memory => exact ⟨bytes,requests⟩

/- Two runs on the same bytes and the same requests reply with the same lines and end
with the same history, wherever the interrupts fall. -/
theorem serialTiming {memory memory' : Buffer Byte} {waiting waiting' : List Byte} {self self' : Nat} {events events' : List ConsoleEvent}
    (fits : waiting.length < 256) (fits' : waiting'.length < 256)
    (admits : Admits serialSystem (fun con event => event.timely con) (.boot memory waiting self) events)
    (admits' : Admits serialSystem (fun con event => event.timely con) (.boot memory' waiting' self') events')
    (bytes : waiting ++ events.flatMap ConsoleEvent.typed = waiting' ++ events'.flatMap ConsoleEvent.typed)
    (requests : events.filterMap ConsoleEvent.request? = events'.filterMap ConsoleEvent.request?) :
    let con := run serialSystem (.boot memory waiting self) events
    let con' := run serialSystem (.boot memory' waiting' self') events'
    con.lines = con'.lines ∧ con.hist = con'.hist ∧ con.histLen = con'.histLen ∧ con.hCount = con'.hCount ∧ con.hNext = con'.hNext ∧
      con.ring.contents = con'.ring.contents := by
  obtain ⟨⟨alike,held⟩,timely⟩ := Console.mirrorsRun.run (Console.bootMirrors fits memory self) admits
  obtain ⟨⟨alike',held'⟩,timely'⟩ := Console.mirrorsRun.run (Console.bootMirrors fits' memory' self') admits'
  have idle : ∀ queue : List Byte, Console.lineDiscipline.Settled (Console.boot (fun _ => 0) [] 0,queue) := fun queue busy => by cases busy
  have same := Discipline.sameOutcome (idle waiting) (idle waiting') timely timely'
    (by rwa [(typedBrought _ _ events).1,(typedBrought _ _ events').1]) (by rwa [(typedBrought _ _ events).2,(typedBrought _ _ events').2])
  rw [same] at alike held
  obtain ⟨⟨_,_,_,_,left⟩,_,_⟩ := alike
  obtain ⟨⟨_,_,_,_,right⟩,_,_⟩ := alike'
  dsimp only
  rw [held,held',left,right]
  exact ⟨rfl,rfl,rfl,rfl,rfl,rfl⟩

/- The same two lines, typed ahead and with an escape sequence cut in two. -/
def twoLinesAhead : List ConsoleEvent :=
  [.irq (asciiText "b" ++ [0x1b]),.readline 5 1000 128,.irq (asciiText "[D"),.irq (asciiText "c" ++ [13,0x1b]),.write 7 3000 2,.irq (asciiText "["),
    .readline 6 2000 5,.irq (asciiText "A!" ++ [10])]

theorem serialTimingTwo : (run serialSystem (.boot (fun _ => 0) [] 1) twoLines).lines =
    (run serialSystem (.boot (fun _ => 7) (asciiText "a") 2) twoLinesAhead).lines :=
  (serialTiming (by decide) (by decide) (by decide +kernel) (by decide +kernel) (by decide +kernel) (by decide +kernel)).1

end Mukern
