import Mathlib.Data.List.Sort
import Sdplane.Rib.Types

/-!
# Validation of a queue configuration

`rib_check` (`rib_manager.c:124-316`): it collects the queue assignments of all lcores,
sorts them, counts through them, and reconfigures every port once the count went through.
The collecting array (256 assignments), the counters (32 ports) and the tables of rings (16 queues
for each) are taken to have room for what goes into them; `Rib.Bounds` says when they do.
-/

namespace Sdplane

/-- What DPDK answers: `rte_lcore_count ()`, `rte_eth_dev_count_avail ()` and the device
    information and link state of each port. -/
structure Dpdk where
  lcoreCount : Nat
  lcoreCount_le : lcoreCount ≤ rteMaxLcore
  nbPorts : Nat
  nbPorts_le : nbPorts ≤ rteMaxEthports
  devInfo : Nat → EthDevInfo
  link : Nat → EthLink

/-- The octet `lcore_size` has room for `rte_lcore_count ()`. -/
theorem Dpdk.toNat_lcoreCount (d : Dpdk) : (BitVec.ofNat 8 d.lcoreCount).toNat = d.lcoreCount := by
  have small := d.lcoreCount_le
  rw [rteMaxLcore] at small
  rw [BitVec.toNat_ofNat]
  omega

/-- A machine with three lcores and one port. -/
def onePort : Dpdk := ⟨3, by decide, 1, by decide, fun _ => ⟨4, 4, true⟩, fun _ => ⟨true⟩⟩

/-- `RX_DESC_DEFAULT` and `TX_DESC_DEFAULT`. -/
def rxDescDefault : Nat := 1024
def txDescDefault : Nat := 1024

/-! ## The check -/

/-- The order of `port_qconf_compare`: by port, then by queue. -/
def portQconfLe (a b : PortQueueConf) : Prop :=
  a.portId < b.portId ∨ a.portId = b.portId ∧ a.queueId ≤ b.queueId

instance : DecidableRel portQconfLe := fun a b => by
  unfold portQconfLe
  infer_instance

/-- `port_qconf` as collected from the lcores below `lcore_size`. -/
def portQconf (info : RibInfo) : List PortQueueConf :=
  (List.range info.lcoreSize.toNat).flatMap info.lcoreQconf

/-- One round of the counting loop: the next entry of a port must be its next queue id. -/
def portNrxqStep (nrxq : Nat → Nat) (rxq : PortQueueConf) : Option (Nat → Nat) :=
  if nrxq rxq.portId = rxq.queueId then
    some (Function.update nrxq rxq.portId (nrxq rxq.portId + 1))
  else none

/-- The counting loop; `none` is the return of -1. -/
def portNrxq (qconf : List PortQueueConf) : Option (Nat → Nat) :=
  qconf.foldlM portNrxqStep fun _ => 0

/-- The part of `rib_check` that may fail: the number of rx queues of each port, if the
    configuration is accepted. Entries that compare equal are equal, so every sort gives
    what `qsort` gives. -/
def ribCheck (info : RibInfo) : Option (Nat → Nat) :=
  portNrxq ((portQconf info).insertionSort portQconfLe)

/-! ## The reconfiguration -/

/-- A call into a driver, or the creation of a tx buffer or a ring where there is none. -/
inductive DevOp where
  | devStop (port : Nat)
  | devConfigure (port nrxq ntxq : Nat) (fastFree : Bool)
  | rxQueueSetup (port queue nbRxd : Nat)
  | txQueueSetup (port queue nbTxd : Nat)
  | txBufferCreate (port queue : Nat)
  | devStart (port : Nat)
  | ringUpCreate (port queue : Nat)
  | ringDnCreate (port queue : Nat)
  deriving DecidableEq

/-- The port an operation stops or sets up anew. -/
def DevOp.reconfigures : DevOp → Option Nat
  | .devStop port => some port
  | .devConfigure port _ _ _ => some port
  | .rxQueueSetup port _ _ => some port
  | .txQueueSetup port _ _ => some port
  | _ => none

/-- The largest lcore with a queue, or 0. -/
def maxLcore (info : RibInfo) : Nat :=
  (List.range info.lcoreSize.toNat).foldl
    (fun m lcore => if info.lcoreQconf lcore ≠ [] ∧ m < lcore then lcore else m) 0

/-- What `rib_check` does to port `i`. -/
def portOps (d : Dpdk) (info : RibInfo) (nrxq ntxq i : Nat) : List DevOp :=
  let nbRxd := if (info.port i).nbRxd ≠ 0 then (info.port i).nbRxd else rxDescDefault
  let nbTxd := if (info.port i).nbTxd ≠ 0 then (info.port i).nbTxd else txDescDefault
  [.devStop i, .devConfigure i nrxq ntxq (d.devInfo i).fastFree] ++
    (List.range nrxq).map (.rxQueueSetup i · nbRxd) ++
    (List.range ntxq).flatMap (fun j => [.txQueueSetup i j nbTxd, .txBufferCreate i j]) ++
    [.devStart i]

/-- The rings for every queue of every lcore. -/
def ringOps (info : RibInfo) : List DevOp :=
  ((List.range rteMaxLcore).flatMap info.lcoreQconf).flatMap fun rxq =>
    [.ringUpCreate rxq.portId rxq.queueId, .ringDnCreate rxq.portId rxq.queueId]

/-- What `rib_check` does once the count went through. -/
def ribCheckOps (d : Dpdk) (info : RibInfo) (nrxq : Nat → Nat) : List DevOp :=
  (List.range d.nbPorts).flatMap (fun i => portOps d info (nrxq i) (maxLcore info + 1) i) ++
    ringOps info

/-- Only available ports are touched. -/
theorem ribCheckOps_reconfigures (d : Dpdk) (info : RibInfo) (nrxq : Nat → Nat) {op : DevOp}
    (mem : op ∈ ribCheckOps d info nrxq) {port : Nat} (touched : op.reconfigures = some port) :
    port < d.nbPorts := by
  rw [ribCheckOps, List.mem_append, List.mem_flatMap] at mem
  rcases mem with ⟨i, hi, mem⟩ | mem
  · have same : port = i := by
      simp only [portOps, List.mem_append, List.mem_map, List.mem_flatMap, List.mem_cons,
        List.not_mem_nil, or_false] at mem
      rcases mem with (((rfl | rfl) | ⟨j, -, rfl⟩) | ⟨j, -, rfl | rfl⟩) | rfl <;>
        simp only [DevOp.reconfigures, Option.some.injEq, reduceCtorEq] at touched
      all_goals exact touched.symm
    rw [same]
    exact List.mem_range.mp hi
  · rw [ringOps, List.mem_flatMap] at mem
    obtain ⟨rxq, -, mem⟩ := mem
    simp only [List.mem_cons, List.not_mem_nil, or_false] at mem
    rcases mem with rfl | rfl <;> cases touched

/-! ## What is accepted -/

/-- The queue ids a list assigns for a port. -/
def queueIds (port : Nat) (qconf : List PortQueueConf) : List Nat :=
  (qconf.filter (·.portId = port)).map (·.queueId)

/-- For every port the queue ids, with multiplicity, are 0 to k - 1 for some k. -/
def WellAssigned (qconf : List PortQueueConf) : Prop :=
  ∀ port, ∃ k, (queueIds port qconf).Perm (List.range k)

theorem queueIds_cons (port : Nat) (rxq : PortQueueConf) (qconf : List PortQueueConf) :
    queueIds port (rxq :: qconf) =
      if rxq.portId = port then rxq.queueId :: queueIds port qconf else queueIds port qconf := by
  by_cases same : rxq.portId = port <;> simp [queueIds, same]

theorem queueIds_perm {port : Nat} {qconf qconf' : List PortQueueConf}
    (h : qconf.Perm qconf') : (queueIds port qconf).Perm (queueIds port qconf') :=
  (h.filter _).map _

theorem wellAssigned_perm {qconf qconf' : List PortQueueConf} (h : qconf.Perm qconf') :
    WellAssigned qconf ↔ WellAssigned qconf' := by
  constructor
  · intro ok port
    obtain ⟨k, perm⟩ := ok port
    exact ⟨k, (queueIds_perm h).symm.trans perm⟩
  · intro ok port
    obtain ⟨k, perm⟩ := ok port
    exact ⟨k, (queueIds_perm h).trans perm⟩

/-- The counting loop goes through exactly when the queue ids of every port come in order
    from its counter on. -/
theorem foldlM_portNrxqStep_isSome (qconf : List PortQueueConf) (nrxq : Nat → Nat) :
    (qconf.foldlM portNrxqStep nrxq).isSome ↔
      ∀ port, queueIds port qconf =
        List.range' (nrxq port) (queueIds port qconf).length := by
  induction qconf generalizing nrxq with
  | nil => simp [queueIds]
  | cons rxq qconf ih =>
      rw [List.foldlM_cons, portNrxqStep]
      split
      · rename_i next
        simp only [Option.bind_eq_bind, Option.bind_some, ih]
        apply forall_congr'
        intro port
        rw [queueIds_cons]
        by_cases same : rxq.portId = port
        · subst same
          rw [if_pos rfl, Function.update_self, List.length_cons, List.range'_succ, ← next]
          simp
        · rw [if_neg same, Function.update_of_ne (Ne.symm same)]
      · rename_i wrong
        simp only [Option.bind_eq_bind, Option.bind_none, Option.isSome_none, Bool.false_eq_true,
          false_iff, not_forall]
        refine ⟨rxq.portId, ?_⟩
        rw [queueIds_cons, if_pos rfl, List.length_cons, List.range'_succ]
        intro same
        exact wrong (List.cons.inj same).1.symm

/-- In a sorted list the queue ids of a port are sorted. -/
theorem queueIds_pairwise {qconf : List PortQueueConf} (sorted : qconf.Pairwise portQconfLe)
    (port : Nat) : (queueIds port qconf).Pairwise (· ≤ ·) := by
  rw [queueIds, List.pairwise_map]
  refine (sorted.filter _).imp_of_mem ?_
  intro a b ha hb le
  have pa := (List.mem_filter.mp ha).2
  have pb := (List.mem_filter.mp hb).2
  simp only [decide_eq_true_eq] at pa pb
  rcases le with lt | ⟨-, le⟩
  · omega
  · exact le

theorem portQconfLe_trans (a b c : PortQueueConf) (hab : portQconfLe a b)
    (hbc : portQconfLe b c) : portQconfLe a c := by
  unfold portQconfLe at *
  omega

theorem portQconfLe_total (a b : PortQueueConf) : portQconfLe a b ∨ portQconfLe b a := by
  unfold portQconfLe
  omega

instance : IsTrans PortQueueConf portQconfLe := ⟨portQconfLe_trans⟩
instance : Std.Total portQconfLe := ⟨portQconfLe_total⟩

/-- Through a sorted list the count goes just if the list is well assigned. -/
theorem portNrxq_isSome_iff {qconf : List PortQueueConf} (sorted : qconf.Pairwise portQconfLe) :
    (portNrxq qconf).isSome ↔ WellAssigned qconf := by
  rw [portNrxq, foldlM_portNrxqStep_isSome]
  apply forall_congr'
  intro port
  constructor
  · intro counted
    refine ⟨(queueIds port qconf).length, ?_⟩
    rw [List.range_eq_range']
    exact List.Perm.of_eq counted
  · rintro ⟨k, ids⟩
    have eq := ids.eq_of_pairwise (fun _ _ _ _ => Nat.le_antisymm) (queueIds_pairwise sorted port)
      List.pairwise_le_range
    rw [eq, List.length_range, List.range_eq_range']

/-- `rib_check` accepts exactly the well-formed assignments. -/
theorem ribCheck_isSome_iff (info : RibInfo) :
    (ribCheck info).isSome ↔ WellAssigned (portQconf info) := by
  have perm := List.perm_insertionSort portQconfLe (portQconf info)
  have sorted := List.pairwise_insertionSort portQconfLe (portQconf info)
  rw [ribCheck, portNrxq_isSome_iff sorted, wellAssigned_perm perm]

end Sdplane
