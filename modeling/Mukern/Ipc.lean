import Mukern.Scheduler

/-! `kernel/ipc.c`: synchronous rendezvous. A call that blocks ends in
`schedule()`; what follows it in the source is `ipcSendResume` or
`ipcRecvResume`, run when the thread is switched to again. -/
namespace Mukern
namespace Kernel

/- Is `t` blocked sending to `me`? -/
def waitingSender (k : Kernel) (me t : Slot) (want : Int) : Bool :=
  (k.threads t).state = .blocked && (k.threads t).ipcState = .sending &&
    (k.threads t).ipcPeer = tid me && (want = ipcAny || want = tid t)

def findWaitingSender (k : Kernel) (me : Slot) (want : Int) : Option Slot :=
  (List.finRange 16).find? fun t => k.waitingSender me t want

def receiverReady (k : Kernel) (dst : Slot) (sender : Int) : Bool :=
  (k.threads dst).state = .blocked && (k.threads dst).ipcState = .receiving &&
    ((k.threads dst).ipcPeer = ipcAny || (k.threads dst).ipcPeer = sender)

def Gone (k : Kernel) (i : Slot) : Prop := (k.threads i).state = .unused ∨ (k.threads i).state = .dead
instance (k : Kernel) (i : Slot) : Decidable (k.Gone i) := by unfold Gone; infer_instance

/- The rendezvous of a sender with a receiver that already waits. -/
def deliver (k : Kernel) (self dst : Slot) (m : IpcMsg) : Kernel :=
  (k.upd dst fun t => threadWake { t with ipcBuf := m, ipcFrom := tid self, ipcState := .none }).log
    (.handOver self dst)

/- Stage the message and block. -/
def stage (k : Kernel) (self : Slot) (dest : Int) (m : IpcMsg) : Kernel :=
  k.upd self ({ · with ipcBuf := m, ipcState := .sending, ipcPeer := dest, state := .blocked })

/- The second component is the result, or `none` when the caller was switched away. -/
def ipcSendLocked (k : Kernel) (self : Slot) (dest : Int) (m : IpcMsg) (caller : SendCaller) :
    Kernel × Option Int :=
  let k := k.log (.sendCall self dest m)
  match threadById dest with
  | none => (k.log (.sendRet self (-1)), some (-1))
  | some dst =>
    if k.Gone dst then
      (k.log (.sendRet self (-1)), some (-1))
    else if k.receiverReady dst (tid self) then
      ((k.deliver self dst m).log (.sendRet self 0), some 0)
    else ((k.stage self dest m).schedule (.send caller), none)

def ipcSendResume (k : Kernel) (self : Slot) : Kernel :=
  (k.upd self ({ · with ipcState := .none })).log (.sendRet self 0)

/- A message synthesised for an interrupt: only the label is written, the other
words are what the caller's stack held. -/
def irqMsg (junk : IpcMsg) : IpcMsg := { junk with label := msgIrq }

/- A sender already waits: take its message and wake it. -/
def pickUp (k : Kernel) (self snd : Slot) : Kernel :=
  (k.upd snd fun t => threadWake { t with ipcState := .none }).log (.handOver snd self)

/- Block until a sender delivers or an interrupt wakes us. -/
def await (k : Kernel) (self : Slot) (src : Int) : Kernel :=
  k.upd self ({ · with ipcState := .receiving, ipcPeer := src, state := .blocked })

def ipcRecvLocked (k : Kernel) (self : Slot) (src : Int) (junk : IpcMsg) (caller : RecvCaller) :
    Kernel × Option (Int × IpcMsg) :=
  let k := k.log (.recvCall self src)
  if (k.threads self).irqPending ≠ 0 then
    ((k.upd self fun t => { t with irqPending := t.irqPending - 1 }).log
        (.recvRet self ipcIrqSender (irqMsg junk)),
      some (ipcIrqSender, irqMsg junk))
  else
    match k.findWaitingSender self src with
    | some snd =>
      let m := (k.threads snd).ipcBuf
      ((k.pickUp self snd).log (.recvRet self (tid snd) m), some (tid snd, m))
    | none => ((k.await self src).schedule (.recv caller), none)

/- What a receive returns at once, if it does. -/
def received (k : Kernel) (self : Slot) (src : Int) (junk : IpcMsg) : Option IpcMsg :=
  if (k.threads self).irqPending ≠ 0 then some (irqMsg junk)
  else (k.findWaitingSender self src).map fun snd => (k.threads snd).ipcBuf

/- A sender clears `ipc_state` when it delivers; if it is still RECEIVING the
thread was woken by an interrupt. -/
def ipcRecvResume (k : Kernel) (self : Slot) (junk : IpcMsg) : Kernel × Int × IpcMsg :=
  let t := k.threads self
  if t.ipcState = .receiving then
    ((k.upd self fun t => { t with ipcState := .none, irqPending := t.irqPending - 1 }).log
        (.recvRet self ipcIrqSender (irqMsg junk)),
      ipcIrqSender, irqMsg junk)
  else
    ((k.upd self ({ · with ipcState := .none })).log (.recvRet self t.ipcFrom t.ipcBuf),
      t.ipcFrom, t.ipcBuf)

/- The three ways a call of `ipc_send_locked` goes. -/
inductive SendOutcome (k : Kernel) (self : Slot) (dest : Int) (m : IpcMsg) (caller : SendCaller) :
    Kernel × Option Int → Prop where
  | refused (nobody : ∀ d, dest = tid d → k.Gone d) :
      SendOutcome k self dest m caller
        ((k.log (.sendCall self dest m)).log (.sendRet self (-1)), some (-1))
  | met (d : Slot) (named : dest = tid d) (ready : k.receiverReady d (tid self)) :
      SendOutcome k self dest m caller
        (((k.log (.sendCall self dest m)).deliver self d m).log (.sendRet self 0), some 0)
  | staged (d : Slot) (named : dest = tid d) (present : ¬ k.Gone d)
      (busy : k.receiverReady d (tid self) = false) :
      SendOutcome k self dest m caller
        (((k.log (.sendCall self dest m)).stage self dest m).schedule (.send caller), none)

theorem ipcSendOutcome (k : Kernel) (self : Slot) (dest : Int) (m : IpcMsg) (caller : SendCaller) :
    SendOutcome k self dest m caller (k.ipcSendLocked self dest m caller) := by
  unfold ipcSendLocked
  cases found : threadById dest with
  | none =>
    refine .refused fun d named => ?_
    rw [named,threadByIdTid] at found
    contradiction
  | some d =>
    have named := threadByIdSome.mp found
    have sameReady : (k.log (.sendCall self dest m)).receiverReady d (tid self) =
        k.receiverReady d (tid self) := rfl
    dsimp only
    split
    · rename_i gone
      exact .refused fun e h => tidInj (named.symm.trans h) ▸ gone
    · rename_i present
      rw [sameReady]
      split
      · exact .met d named (by assumption)
      · rename_i busy
        exact .staged d named present (Bool.eq_false_iff.mpr busy)

inductive RecvOutcome (k : Kernel) (self : Slot) (src : Int) (junk : IpcMsg) (caller : RecvCaller) :
    Kernel × Option (Int × IpcMsg) → Prop where
  | irq (pending : (k.threads self).irqPending ≠ 0) :
      RecvOutcome k self src junk caller
        (((k.log (.recvCall self src)).upd self fun t => { t with irqPending := t.irqPending - 1 }).log
            (.recvRet self ipcIrqSender (irqMsg junk)),
          some (ipcIrqSender, irqMsg junk))
  | taken (snd : Slot) (quiet : (k.threads self).irqPending = 0) (waiting : k.waitingSender self snd src) :
      RecvOutcome k self src junk caller
        (((k.log (.recvCall self src)).pickUp self snd).log (.recvRet self (tid snd) (k.threads snd).ipcBuf),
          some (tid snd, (k.threads snd).ipcBuf))
  | awaits (quiet : (k.threads self).irqPending = 0)
      (nobody : ∀ snd, k.waitingSender self snd src = false) :
      RecvOutcome k self src junk caller
        (((k.log (.recvCall self src)).await self src).schedule (.recv caller), none)

section
variable {k : Kernel} {self snd : Slot} {src : Int} {junk : IpcMsg} {caller : RecvCaller}

theorem recvIrq (pending : (k.threads self).irqPending ≠ 0) :
    k.ipcRecvLocked self src junk caller =
      (((k.log (.recvCall self src)).upd self fun t => { t with irqPending := t.irqPending - 1 }).log
          (.recvRet self ipcIrqSender (irqMsg junk)),
        some (ipcIrqSender, irqMsg junk)) :=
  if_pos pending

theorem recvTaken (quiet : (k.threads self).irqPending = 0) (found : k.findWaitingSender self src = some snd) :
    k.ipcRecvLocked self src junk caller =
      (((k.log (.recvCall self src)).pickUp self snd).log (.recvRet self (tid snd) (k.threads snd).ipcBuf),
        some (tid snd, (k.threads snd).ipcBuf)) := by
  have same : (k.log (.recvCall self src)).findWaitingSender self src = some snd := found
  refine (if_neg (not_not.mpr quiet)).trans ?_
  rw [same]
  rfl

theorem recvAwaits (quiet : (k.threads self).irqPending = 0) (missing : k.findWaitingSender self src = none) :
    k.ipcRecvLocked self src junk caller =
      (((k.log (.recvCall self src)).await self src).schedule (.recv caller), none) := by
  have same : (k.log (.recvCall self src)).findWaitingSender self src = none := missing
  refine (if_neg (not_not.mpr quiet)).trans ?_
  rw [same]

variable (k self src junk caller) in
theorem recvReceived : (k.ipcRecvLocked self src junk caller).2.map Prod.snd = k.received self src junk := by
  unfold received
  by_cases quiet : (k.threads self).irqPending = 0
  · rw [if_neg (not_not.mpr quiet)]
    cases found : k.findWaitingSender self src with
    | some snd => rw [recvTaken quiet found]; rfl
    | none => rw [recvAwaits quiet found]; rfl
  · rw [recvIrq quiet,if_pos quiet]
    rfl

end

theorem ipcRecvOutcome (k : Kernel) (self : Slot) (src : Int) (junk : IpcMsg) (caller : RecvCaller) :
    RecvOutcome k self src junk caller (k.ipcRecvLocked self src junk caller) := by
  by_cases quiet : (k.threads self).irqPending = 0
  · cases found : k.findWaitingSender self src with
    | some snd =>
      rw [recvTaken quiet found]
      have waiting := List.find?_some (p := fun t => k.waitingSender self t src) found
      exact .taken snd quiet waiting
    | none =>
      rw [recvAwaits quiet found]
      refine .awaits quiet fun snd => ?_
      simpa using List.find?_eq_none.mp found snd (List.mem_finRange snd)
  · rw [recvIrq quiet]
    exact .irq quiet

end Kernel
end Mukern
