import Mukern.PagerVerdict

/-! The pager's answer to a `MSG_FAULT`. `ipc_send_allowed` reads the permission for
it off the faulting thread's scheduling state, and the page-fault path opens no call
as `SYS_SEND` does: an answer given before the thread has come to its receive is
refused. -/
namespace Mukern
open Kernel

/- `SYS_SEND` of pager `p` to thread `f`, whose `MSG_FAULT` it has read and whose fault
is still open. -/
structure Replies (k : Kernel) (input : Input) (tf : Trapframe) (p f : Slot) : Prop where
  acting : Acting k p
  call : IsCall input .send tf
  named : cint tf.rdi = tid f
  pager : p ≠ 0
  client : f ≠ 0
  unheld : (k.threads p).ctable.hasEndpoint (tid f) = false
  read : ∃ addr, Open k.history f addr (tid p) ∧ .recvRet p (tid f) (faultMsg f addr) ∈ sinceFault k.history f

/- A thread in the page-fault path waits for a registered pager, never for any sender. -/
structure PathPeers (k : Kernel) : Prop where
  registered : k.pagerTid = -1 ∨ ∃ p, k.pagerTid = tid p
  peers : ∀ f saved peer, faultPoint (k.threads f) = some (saved,peer) → 0 ≤ k.pagerTid ∧ 0 ≤ peer

section
variable {k₀ k k' : Kernel} {input : Input} {tf : Trapframe} {i p f : Slot} {m : IpcMsg}

theorem sentPager (peers₀ : PathPeers k₀) (sent : FaultSent k₀ input i k) : 0 ≤ k.pagerTid := by
  cases sent with
  | @direct k addr r forwards result =>
    have acting : Acting (k₀.log (.fault i addr k₀.pagerTid)) i := forwards.acting
    have same : ((k₀.log (.fault i addr k₀.pagerTid)).ipcSendLocked i k₀.pagerTid (faultMsg i addr) .fault).1.pagerTid =
        k₀.pagerTid := sendPager
    rw [result] at same
    have pager : k.pagerTid = k₀.pagerTid := same
    exact pager ▸ forwards.pager
  | resumed resumes saved => exact (peers₀.peers i (.send .fault) (k₀.threads i).ipcPeer (by simp [faultPoint,saved])).1

/- Whoever starts to wait in the page-fault path waits for the pager of that moment. -/
theorem movePoint {saved : Context} {peer : Int} (coherent : Coherent k) (move : Move k₀ input k k')
    (point : faultPoint (k'.threads f) = some (saved,peer)) : faultPoint (k.threads f) = some (saved,peer) ∨
      peer = k.pagerTid ∧ ((∃ addr, Forwards k₀ input f addr ∧ k.pagerTid = k₀.pagerTid) ∨ FaultSent k₀ input f k) := by
  cases movePath coherent move with
  | same same => exact .inl ((same f).symm.trans point)
  | @asks i addr forwards before after other =>
    by_cases own : f = i
    · subst own
      subst before
      have left := (pointLeave (k := (k₀.log (.fault f addr k₀.pagerTid)).log (.sendCall f k₀.pagerTid (faultMsg f addr)))
        (g := ({ · with ipcBuf := faultMsg f addr, ipcState := .sending, ipcPeer := k₀.pagerTid, state := .blocked }))
        (.send .fault) forwards.acting (by simp)).1
      have mine : faultPoint (k'.threads f) = some (.send .fault,k₀.pagerTid) := by
        rw [after]
        exact left
      rw [mine] at point
      cases point
      exact .inr ⟨rfl,.inl ⟨addr,forwards,rfl⟩⟩
    · exact .inl ((other f own).symm.trans point)
  | @waits i acting sent after other =>
    by_cases own : f = i
    · subst own
      have left := (pointLeave (k := k.log (.recvCall f k.pagerTid))
        (g := ({ · with ipcState := .receiving, ipcPeer := k.pagerTid, state := .blocked })) (.recv .fault) acting (by simp)).1
      have mine : faultPoint (k'.threads f) = some (.recv .fault,k.pagerTid) := by
        rw [after]
        exact left
      rw [mine] at point
      cases point
      exact .inr ⟨rfl,.inr sent⟩
    · exact .inl ((other f own).symm.trans point)
  | @wakes i mode current other gone =>
    by_cases own : f = i
    · subst own
      rw [gone] at point
      cases point
    · exact .inl ((other f own).symm.trans point)

theorem movePeers (coherent : Coherent k) (peers₀ : PathPeers k₀) (peers : PathPeers k) (move : Move k₀ input k k') :
    PathPeers k' := by
  have pager := movePager move
  have registered : k'.pagerTid = -1 ∨ ∃ p, k'.pagerTid = tid p := by
    rcases pager with same | named
    · rw [same]
      exact peers.registered
    · exact .inr named
  have kept : 0 ≤ k.pagerTid → 0 ≤ k'.pagerTid := by
    intro there
    rcases pager with same | ⟨p,named⟩
    · rwa [same]
    · rw [named]
      exact tidNonneg p
  refine ⟨registered,fun f saved peer point => ?_⟩
  rcases movePoint coherent move point with before | ⟨rfl,⟨addr,forwards,same⟩ | sent⟩
  · obtain ⟨there,low⟩ := peers.peers f saved peer before
    exact ⟨kept there,low⟩
  · have there : 0 ≤ k.pagerTid := same ▸ forwards.pager
    exact ⟨kept there,there⟩
  · have there := sentPager peers₀ sent
    exact ⟨kept there,there⟩

theorem bootPoint (memory : Memory) (stackBase : Word) (f : Slot) : faultPoint ((boot memory stackBase).threads f) = none := by
  have start : ∀ g, faultPoint ((schedInit memory stackBase).threads g) = none := fun g => rfl
  have same : faultPoint ((boot memory stackBase).threads f) = faultPoint ((schedInit memory stackBase).threads f) :=
    pointCreate (schedInitCoherent memory stackBase)
  rw [same,start]

theorem bootPeers (memory : Memory) (stackBase : Word) : PathPeers (boot memory stackBase) := by
  refine ⟨.inl rfl,fun f saved peer point => ?_⟩
  rw [bootPoint] at point
  cases point

theorem reachPeers {ok : Kernel → Input → Prop} (h : Transition.Reach machine ok k) : PathPeers k :=
  reachUnder PathPeers bootPeers
    (fun _ _ _ _ _ _ peers₀ _ coherent peers move => movePeers coherent peers₀ peers move) h

def Script.answer : Trapframe := ⟨syscallVector,Input.userCs,2,2,Script.userPage,0⟩

end
end Mukern
