import Mukern.Lifetime

/-! Where the right to send comes from: the capability tables and the open calls.
Only six moves of the kernel write either of them. -/
namespace Mukern
open Kernel

def authority (t : Thread) : CTable × Int := (t.ctable,t.ipcCallTo)

/- The moves that write a capability table or an open call. -/
inductive Authorises (k₀ : Kernel) (input : Input) : Kernel → Kernel → Prop where
  | openCall {k i dest} (acting : Acting k i) (allowed : k.ipcSendAllowed i dest) :
      Authorises k₀ input k (k.openCall i dest)
  | closeCall {k : Kernel} {i} (source : Int) (acting : Acting k i) :
      Authorises k₀ input k (k.upd i (closeCall source))
  | create {k : Kernel} (parent prog) : Authorises k₀ input k (k.threadCreate parent prog).1
  | grantChild {k : Kernel} {i prog} (child) (acting : Acting k i)
      (created : .create child (some i) prog ∈ k.history) :
      Authorises k₀ input k (k.capGrantEndpoint (some i) (tid child)).1
  | grantCap {i tf} (acting : Acting k₀ i) (call : IsCall input .grantCap tf)
      (held : i = 0 ∨ (k₀.threads i).ctable.hasEndpoint (cint tf.rsi)) :
      Authorises k₀ input (k₀.log (.syscall i tf))
        ((k₀.log (.syscall i tf)).capGrantEndpoint (threadById (cint tf.rdi)) (cint tf.rsi)).1
  | grantIo {k : Kernel} (target base len) : Authorises k₀ input k (k.capGrantIo target base len).1

section
variable {k₀ k k' : Kernel} {input : Input} {i j : Slot}

theorem authorityUpd (f : Thread → Thread) (keep : ∀ t, authority (f t) = authority t) :
    authority ((k.upd i f).threads j) = authority (k.threads j) := by
  rw [updThreads]
  split
  · rename_i same
    rw [same,keep]
  · rfl

theorem authoritySchedule {point} : authority ((k.schedule point).threads j) = authority (k.threads j) :=
  scheduleKeeps authority (fun _ _ _ => rfl) k point j

theorem authorityDeliver {d m} : authority ((k.deliver i d m).threads j) = authority (k.threads j) := by
  unfold deliver
  rw [logThreads]
  exact authorityUpd _ fun t => by simp [authority]

theorem authorityPickUp {snd} : authority ((k.pickUp i snd).threads j) = authority (k.threads j) := by
  unfold pickUp
  rw [logThreads]
  exact authorityUpd _ fun t => by simp [authority]

theorem authoritySend {dest m caller} :
    authority ((k.ipcSendLocked i dest m caller).1.threads j) = authority (k.threads j) := by
  have outcome := ipcSendOutcome k i dest m caller
  generalize k.ipcSendLocked i dest m caller = result at outcome
  cases outcome with
  | refused nobody => rfl
  | met d named ready => exact authorityDeliver (k := k.log (.sendCall i dest m))
  | staged d named present busy =>
    refine authoritySchedule.trans ?_
    exact authorityUpd (k := k.log (.sendCall i dest m)) _ fun _ => rfl

theorem authorityRecv {src junk caller} :
    authority ((k.ipcRecvLocked i src junk caller).1.threads j) = authority (k.threads j) := by
  have outcome := ipcRecvOutcome k i src junk caller
  generalize k.ipcRecvLocked i src junk caller = result at outcome
  cases outcome with
  | irq pending =>
    rw [logThreads]
    exact authorityUpd _ fun _ => rfl
  | taken snd quiet waiting => exact authorityPickUp (k := k.log (.recvCall i src)) (i := i)
  | awaits quiet nobody =>
    refine authoritySchedule.trans ?_
    exact authorityUpd (k := k.log (.recvCall i src)) _ fun _ => rfl

theorem authorityDie {point} : authority ((k.die i point).threads j) = authority (k.threads j) := by
  refine authoritySchedule.trans ?_
  rw [logThreads]
  exact authorityUpd _ fun _ => rfl

theorem authorityIrq {line} : authority ((k.irqNotify line).threads j) = authority (k.threads j) := by
  unfold irqNotify
  split
  · rfl
  · split
    · rw [logThreads]
      refine authorityUpd _ fun t => ?_
      dsimp only
      split <;> simp [authority]
    · rfl

theorem authorityOnCpu : authority ((k.onCpu i).threads j) = authority (k.threads j) :=
  authorityUpd ({ · with saved := .running }) fun _ => rfl

theorem authorityResumeSend : authority (((k.onCpu i).ipcSendResume i).threads j) = authority (k.threads j) := by
  refine Eq.trans ?_ (authorityOnCpu (i := i))
  exact authorityUpd ({ · with ipcState := .none }) fun _ => rfl

theorem authorityResumeRecv {junk} :
    authority (((k.onCpu i).ipcRecvResume i junk).1.threads j) = authority (k.threads j) := by
  refine Eq.trans ?_ (authorityOnCpu (i := i))
  unfold ipcRecvResume
  dsimp only
  split
  · rw [logThreads]
    exact authorityUpd _ fun _ => rfl
  · rw [logThreads]
    exact authorityUpd _ fun _ => rfl

theorem moveAuthority (move : Move k₀ input k k') :
    (∀ j, authority (k'.threads j) = authority (k.threads j)) ∨ Authorises k₀ input k k' := by
  cases move with
  | openCall acting allowed => exact .inr (.openCall acting allowed)
  | closeCall source acting => exact .inr (.closeCall source acting)
  | create prog acting call named => exact .inr (.create _ prog)
  | grantChild child acting created => exact .inr (.grantChild child acting created)
  | grantCap acting call held => exact .inr (.grantCap acting call held)
  | grantIo acting call => exact .inr (.grantIo _ _ _)
  | send acting called => exact .inl fun j => authoritySend
  | recv src junk rsi acting => exact .inl fun j => authorityRecv
  | exit acting call => exact .inl fun j => authorityDie
  | faultSend forwards => exact .inl fun j => authoritySend
  | faultRecv junk acting sent => exact .inl fun j => authorityRecv
  | kill acting verdict nonzero => exact .inl fun j => authorityDie
  | tick user => exact .inl fun j => authoritySchedule
  | irq user call vec => exact .inl fun j => authorityIrq
  | resumePlain mode current saved => exact .inl fun j => authorityOnCpu
  | resumeSend mode current saved => exact .inl fun j => authorityResumeSend
  | resumeRecv junk mode current saved => exact .inl fun j => authorityResumeRecv
  | _ => exact .inl fun j => rfl

theorem grantTable {t s : Slot} {ep : Int} : ((k.capGrantEndpoint (some t) ep).1.threads s).ctable =
    if s = t then ((k.threads t).ctable.grantEndpoint ep).1 else (k.threads s).ctable := by
  simp only [capGrantEndpoint]
  split <;> simp only [logThreads,updThreads] <;> split <;> rfl

theorem grantIoTable {t s : Slot} {base len : BitVec 16} : ((k.capGrantIo (some t) base len).1.threads s).ctable =
    if s = t then ((k.threads t).ctable.grantIo base len).1 else (k.threads s).ctable := by
  simp only [capGrantIo]
  split <;> simp only [logThreads,updThreads] <;> split <;> rfl

theorem hasEndpointIff {t : CTable} {ep : Int} :
    t.hasEndpoint ep ↔ ∃ n, (t n).type = .endpoint ∧ (t n).target = ep := by
  simp [CTable.hasEndpoint]

/- A grant adds no endpoint but the one it names. -/
theorem grantEndpointOnly {t : CTable} {target ep : Int} (held : (t.grantEndpoint target).1.hasEndpoint ep) :
    t.hasEndpoint ep ∨ ep = target := by
  unfold CTable.grantEndpoint at held
  split at held
  · exact .inl held
  · split at held
    · rename_i n _
      obtain ⟨m,type,named⟩ := hasEndpointIff.mp held
      simp only [CTable.set] at type named
      split at named
      · exact .inr named.symm
      · rename_i other
        rw [if_neg other] at type
        exact .inl (hasEndpointIff.mpr ⟨m,type,named⟩)
    · exact .inl held

theorem grantIoEndpoint {t : CTable} {base len : BitVec 16} {ep : Int}
    (held : (t.grantIo base len).1.hasEndpoint ep) : t.hasEndpoint ep := by
  unfold CTable.grantIo at held
  split at held
  · rename_i n _
    obtain ⟨m,type,named⟩ := hasEndpointIff.mp held
    simp only [CTable.set] at type named
    split at type
    · cases type
    · rename_i other
      rw [if_neg other] at named
      exact hasEndpointIff.mpr ⟨m,type,named⟩
  · exact held

theorem clearEndpoint {ep : Int} : capClear.hasEndpoint ep = false := by
  simp [CTable.hasEndpoint,capClear,capNull]

/- The grounds on which a send is let through. -/
theorem sendAllowedIff {dest : Int} : k.ipcSendAllowed i dest ↔
    i = 0 ∨ dest = 0 ∨ (k.threads i).ctable.hasEndpoint dest ∨ ∃ d, dest = tid d ∧
      ((k.threads d).ipcCallTo = tid i ∨ (k.threads d).state = .blocked ∧
        (k.threads d).ipcState = .receiving ∧ (k.threads d).ipcPeer = tid i) := by
  unfold ipcSendAllowed
  split
  · rename_i root
    simp [tidZero] at root
    simp [or_assoc.symm,root]
  · rename_i ordinary
    simp [tidZero] at ordinary
    split
    · rename_i held
      simp [held]
    · rename_i missing
      split
      · rename_i unknown
        have nobody : ∀ d, dest ≠ tid d := by
          intro d named
          rw [named,threadByIdTid] at unknown
          cases unknown
        simp [ordinary,missing,nobody]
      · rename_i d found
        have named := threadByIdSome.mp found
        subst named
        split
        · rename_i called
          simp [called]
        · rename_i uncalled
          simp only [Bool.not_eq_true] at missing
          simp [ordinary,missing,uncalled,and_assoc]

end
end Mukern
