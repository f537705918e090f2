import Sdplane.Misc.Qsbr
import Sdplane.Rib.Check

/-!
# The RIB manager

`rib_manager_process_message` (`rib_manager.c:369-527`) as the list of actions it takes on
a message: what it allocates and frees, its calls into the drivers, the assignments of the
published pointer and the grace periods. Allocations succeed.
-/

namespace Sdplane

open Qsbr

/-! ## Messages (`internal_message.h`) -/

/-- A message to the RIB manager. `qconf` of `INTERNAL_MSG_TYPE_QCONF` is a copy of the
    whole thread table; the body of `INTERNAL_MSG_TYPE_ETH_LINK` is not looked at. -/
inductive RibMsg where
  | portStatus
  | ethLink
  | qconf (qconf : Nat → List PortQueueConf)
  | qconf2
  | txrxDesc (portid nbRxd nbTxd : Nat)
  | unknown

/-! ## The new `rib_info` -/

/-- `rib_info_create`. -/
def ribInfoCreate (old : Option RibInfo) : RibInfo :=
  let new := old.getD .zero
  { new with ver := new.ver + 1 }

/-- The `rib_info` `rib_create` copies. -/
def ribCreate (old : Option Rib) : RibInfo := ribInfoCreate (old.bind Rib.ribInfo)

/-- `update_port_status`. -/
def updatePortStatus (d : Dpdk) (new : RibInfo) : RibInfo :=
  { new with
    portSize := BitVec.ofNat 8 d.nbPorts
    port := fun i =>
      if i < d.nbPorts then { new.port i with devInfo := d.devInfo i, link := d.link i }
      else new.port i
    lcoreSize := BitVec.ofNat 8 d.lcoreCount }

/-- The merge of a QCONF message: an lcore for which the message has no queue keeps what
    it had. -/
def mergeQconf (d : Dpdk) (qconf : Nat → List PortQueueConf) (new : RibInfo) : RibInfo :=
  { new with
    lcoreSize := BitVec.ofNat 8 d.lcoreCount
    lcoreQconf := fun i =>
      if i < d.lcoreCount ∧ qconf i ≠ [] then qconf i else new.lcoreQconf i }

/-- The fixed assignment of a QCONF2 message. -/
def mergeQconf2 (d : Dpdk) (new : RibInfo) : RibInfo :=
  { new with
    lcoreSize := BitVec.ofNat 8 d.lcoreCount
    lcoreQconf := fun i =>
      if i = 0 ∨ i = 1 then []
      else if i = 2 then [⟨0, 0⟩, ⟨1, 0⟩]
      else new.lcoreQconf i }

/-- The update of a TXRX_DESC message. -/
def updateTxrxDesc (portid nbRxd nbTxd : Nat) (new : RibInfo) : RibInfo :=
  { new with
    port := fun i =>
      if i = portid then { new.port i with nbRxd := nbRxd, nbTxd := nbTxd } else new.port i }

/-- The `rib_info` built for a message. -/
def ribInfoFor (d : Dpdk) (msg : RibMsg) (old : Option Rib) : RibInfo :=
  let new := ribCreate old
  match msg with
  | .portStatus => updatePortStatus d new
  | .ethLink => new
  | .qconf qconf => mergeQconf d qconf new
  | .qconf2 => mergeQconf2 d new
  | .txrxDesc portid nbRxd nbTxd => updateTxrxDesc portid nbRxd nbTxd new
  | .unknown => new

/-- The messages that go through `rib_check`. -/
def RibMsg.isQconf : RibMsg → Bool
  | .qconf _ => true
  | .qconf2 => true
  | _ => false

/-! ## Actions -/

/-- What the manager does besides publishing and waiting. -/
inductive RibAct where
  | allocRib
  | allocRibInfo
  | freeRib
  | freeRibInfo
  | freeMsg
  | dev (op : DevOp)
  deriving DecidableEq

/-- An action of the manager; the published pointer may be NULL. -/
abbrev ManagerAct := Act (Option Rib) RibAct

/-- `rib_delete`. -/
def ribDelete (old : Rib) : List ManagerAct :=
  (if old.ribInfo.isSome then [.other .freeRibInfo] else []) ++ [.other .freeRib]

/-- `rib_replace`. -/
def ribReplace (old : Option Rib) (new : Rib) : List ManagerAct :=
  .assign (some new) ::
    match old with
    | none => []
    | some old => .synchronize :: ribDelete old

/-- The intermediate rib of a queue change. -/
def zeroRib : Rib := ⟨none⟩

/-- `rib_manager_process_message`. A queue change that `rib_check` rejects returns there,
    before the message is freed. -/
def ribManagerProcessMessage (d : Dpdk) (msg : RibMsg) (old : Option Rib) : List ManagerAct :=
  let new := ribInfoFor d msg old
  let create : List ManagerAct := [.other .allocRib, .other .allocRibInfo]
  if msg.isQconf then
    match ribCheck new with
    | none => create
    | some nrxq =>
        create ++ (ribCheckOps d new nrxq).map (fun op => .other (.dev op)) ++
          (.other .allocRib :: ribReplace old zeroRib) ++
          (.other .freeMsg :: ribReplace (some zeroRib) ⟨some new⟩)
  else create ++ (.other .freeMsg :: ribReplace old ⟨some new⟩)

/-! ## What is published -/

/-- The queues an lcore polls while it holds what the pointer said. -/
def ribQueues (rib : Option Rib) (lcore : Nat) : List PortQueueConf :=
  match rib.bind Rib.ribInfo with
  | none => []
  | some info => info.lcoreQconf lcore

@[simp] theorem ribQueues_none (lcore : Nat) : ribQueues none lcore = [] := rfl
@[simp] theorem ribQueues_zeroRib (lcore : Nat) : ribQueues (some zeroRib) lcore = [] := rfl
@[simp] theorem ribQueues_some (info : RibInfo) (lcore : Nat) :
    ribQueues (some ⟨some info⟩) lcore = info.lcoreQconf lcore := rfl

theorem ribCreate_lcoreQconf (old : Option Rib) (lcore : Nat) :
    (ribCreate old).lcoreQconf lcore = ribQueues old lcore := by
  cases old with
  | none => rfl
  | some rib =>
      cases h : rib.ribInfo with
      | none => simp [ribCreate, ribInfoCreate, ribQueues, h, RibInfo.zero]
      | some info => simp [ribCreate, ribInfoCreate, ribQueues, h]

/-- Only a queue change changes the queues. -/
theorem ribInfoFor_lcoreQconf (d : Dpdk) {msg : RibMsg} (old : Option Rib)
    (h : msg.isQconf = false) (lcore : Nat) :
    (ribInfoFor d msg old).lcoreQconf lcore = ribQueues old lcore := by
  rw [← ribCreate_lcoreQconf]
  cases msg with
  | portStatus => rfl
  | ethLink => rfl
  | qconf q => cases h
  | qconf2 => cases h
  | txrxDesc p r t => rfl
  | unknown => rfl

/-- A queue change checks the lcores below `rte_lcore_count ()`. -/
theorem ribInfoFor_lcoreSize (d : Dpdk) {msg : RibMsg} (old : Option Rib)
    (h : msg.isQconf = true) : (ribInfoFor d msg old).lcoreSize.toNat = d.lcoreCount := by
  cases msg with
  | qconf q => exact d.toNat_lcoreCount
  | qconf2 => exact d.toNat_lcoreCount
  | portStatus => cases h
  | ethLink => cases h
  | txrxDesc p r t => cases h
  | unknown => cases h

/-! ## A message from start to end -/

theorem ribDelete_own (old : Rib) : ∀ act ∈ ribDelete old, ∃ a, act = Act.other a := by
  intro act mem
  rw [ribDelete] at mem
  split at mem <;> simp at mem
  · rcases mem with rfl | rfl
    · exact ⟨_, rfl⟩
    · exact ⟨_, rfl⟩
  · exact ⟨_, mem⟩

theorem publishedAfter_ribReplace (old : Option Rib) (new : Rib) (p : Option Rib) :
    publishedAfter (ribReplace old new) p = some new := by
  cases old with
  | none => rfl
  | some old => exact publishedAfter_others (ribDelete_own old) _

/-- A rejected queue change leaves the published rib; every other message ends with the
    new one published. -/
theorem publishedAfter_ribManagerProcessMessage (d : Dpdk) (msg : RibMsg) (old : Option Rib) :
    publishedAfter (ribManagerProcessMessage d msg old) old =
      if msg.isQconf = true ∧ (ribCheck (ribInfoFor d msg old)).isSome = false then old
      else some ⟨some (ribInfoFor d msg old)⟩ := by
  rw [ribManagerProcessMessage]
  cases kind : msg.isQconf with
  | false =>
      simp only [Bool.false_eq_true, if_false, false_and, publishedAfter_append,
        publishedAfter_other, publishedAfter_ribReplace]
  | true =>
      cases checked : ribCheck (ribInfoFor d msg old) with
      | none => rfl
      | some nrxq =>
          simp only [if_true, Option.isSome_some, Bool.true_eq_false, and_false, if_false,
            publishedAfter_append, publishedAfter_other, publishedAfter_ribReplace]

/-- The rib published once a message is processed. -/
def ribAfter (d : Dpdk) (msg : RibMsg) (r : Option Rib) : Option Rib :=
  publishedAfter (ribManagerProcessMessage d msg r) r

theorem ribAfter_eq (d : Dpdk) (msg : RibMsg) (r : Option Rib) :
    ribAfter d msg r =
      if msg.isQconf = true ∧ (ribCheck (ribInfoFor d msg r)).isSome = false then r
      else some ⟨some (ribInfoFor d msg r)⟩ :=
  publishedAfter_ribManagerProcessMessage d msg r

end Sdplane
