import Sdplane.Rib.ThreadTable

/-!
# The arrays of a queue change

`set thread` indexes `thread_qconf` with the lcore it is given; `rib_check` collects the
assignments into `port_qconf`, counts them in `port_nrxq` and looks into `ring_up` and `ring_dn`
for each. What it does is here the list of its indexes and of its calls into the drivers, in
order. An index outside its array ends what can be said, so only the first one counts.
-/

namespace Sdplane

/-- `MAX_PORT_QCONF`. -/
def maxPortQconf : Nat := 256

/-- An array and an index into it. -/
inductive ArrayIndex where
  | threadQconf (lcore : Nat)
  | portQconf (i : Nat)
  | portNrxq (port : Nat)
  | ringUp (port queue : Nat)
  | ringDn (port queue : Nat)
  deriving DecidableEq

/-- The array has that index. -/
def ArrayIndex.Inside : ArrayIndex → Prop
  | threadQconf lcore => lcore < rteMaxLcore
  | portQconf i => i < maxPortQconf
  | portNrxq port => port < rteMaxEthports
  | ringUp port queue => port < rteMaxEthports ∧ queue < maxRxQueuePerLcore
  | ringDn port queue => port < rteMaxEthports ∧ queue < maxRxQueuePerLcore

inductive CheckAct where
  | index (a : ArrayIndex)
  | dev (op : DevOp)
  deriving DecidableEq

/-- The counting loop from `port_qconf[i]` on, with the counters if it goes through. -/
def ribCheckCount (nrxq : Nat → Nat) (i : Nat) :
    List PortQueueConf → List CheckAct × Option (Nat → Nat)
  | [] => ([], some nrxq)
  | rxq :: qconf =>
      if nrxq rxq.portId = rxq.queueId then
        let (acts, result) := ribCheckCount
          (Function.update nrxq rxq.portId (nrxq rxq.portId + 1)) (i + 1) qconf
        (.index (.portQconf i) :: .index (.portNrxq rxq.portId) :: .index (.portNrxq rxq.portId) ::
          acts, result)
      else ([.index (.portQconf i), .index (.portNrxq rxq.portId)], none)

/-- The loop over the ports. -/
def ribCheckPorts (d : Dpdk) (info : RibInfo) (nrxq : Nat → Nat) : List CheckAct :=
  (List.range d.nbPorts).flatMap fun i =>
    .index (.portNrxq i) :: (portOps d info (nrxq i) (maxLcore info + 1) i).map .dev

/-- The loop over the rings. -/
def ribCheckRings (info : RibInfo) : List CheckAct :=
  ((List.range rteMaxLcore).flatMap info.lcoreQconf).flatMap fun rxq =>
    [.index (.ringUp rxq.portId rxq.queueId), .dev (.ringUpCreate rxq.portId rxq.queueId),
      .index (.ringDn rxq.portId rxq.queueId), .dev (.ringDnCreate rxq.portId rxq.queueId)]

/-- `rib_check`: what it does and what it returns. -/
def ribCheckRun (d : Dpdk) (info : RibInfo) : List CheckAct × Int :=
  let collect := (List.range (portQconf info).length).map fun i => .index (.portQconf i)
  let (count, result) :=
    ribCheckCount (fun _ => 0) 0 ((portQconf info).insertionSort portQconfLe)
  match result with
  | none => (collect ++ count, -1)
  | some nrxq => (collect ++ count ++ ribCheckPorts d info nrxq ++ ribCheckRings info, 0)

/-! ## The count -/

theorem ribCheckCount_result (nrxq : Nat → Nat) (i : Nat) (qconf : List PortQueueConf) :
    (ribCheckCount nrxq i qconf).2 = qconf.foldlM portNrxqStep nrxq := by
  induction qconf generalizing nrxq i with
  | nil => rfl
  | cons rxq qconf ih =>
      rw [ribCheckCount, List.foldlM_cons, portNrxqStep]
      split
      · exact ih _ _
      · rfl

/-- It calls no driver. -/
theorem ribCheckCount_index (nrxq : Nat → Nat) (i : Nat) (qconf : List PortQueueConf) :
    ∀ act ∈ (ribCheckCount nrxq i qconf).1, ∃ a, act = .index a := by
  induction qconf generalizing nrxq i with
  | nil => exact fun _ mem => absurd mem List.not_mem_nil
  | cons rxq qconf ih =>
      rw [ribCheckCount]
      split
      · simp only [List.forall_mem_cons]
        exact ⟨⟨_, rfl⟩, ⟨_, rfl⟩, ⟨_, rfl⟩, ih _ _⟩
      · simp only [List.forall_mem_cons]
        exact ⟨⟨_, rfl⟩, ⟨_, rfl⟩, fun _ mem => absurd mem List.not_mem_nil⟩

/-- The indexes of what is done. -/
def InsideAll (acts : List CheckAct) : Prop := ∀ a, .index a ∈ acts → a.Inside

theorem insideAll_append (acts acts' : List CheckAct) :
    InsideAll (acts ++ acts') ↔ InsideAll acts ∧ InsideAll acts' := by
  simp only [InsideAll, List.mem_append, or_imp, forall_and]

theorem insideAll_nil : InsideAll [] := fun _ mem => absurd mem List.not_mem_nil

theorem insideAll_index (a : ArrayIndex) (acts : List CheckAct) :
    InsideAll (.index a :: acts) ↔ a.Inside ∧ InsideAll acts := by
  simp [InsideAll, or_imp, forall_and]

/-- The count reaches a port past the counters unless it ends among the ports before. -/
theorem insideAll_ribCheckCount {qconf : List PortQueueConf} (sorted : qconf.Pairwise portQconfLe)
    (nrxq : Nat → Nat) {i : Nat} (room : i + qconf.length ≤ maxPortQconf) :
    InsideAll (ribCheckCount nrxq i qconf).1 ↔
      (∀ rxq ∈ qconf, rxq.portId < rteMaxEthports) ∨
        ((qconf.filter (·.portId < rteMaxEthports)).foldlM portNrxqStep nrxq).isSome = false := by
  induction qconf generalizing nrxq i with
  | nil =>
      refine iff_of_true insideAll_nil (.inl ?_)
      exact fun _ mem => absurd mem List.not_mem_nil
  | cons rxq qconf ih =>
      obtain ⟨least, sorted⟩ := List.pairwise_cons.mp sorted
      rw [List.length_cons] at room
      have here : ArrayIndex.Inside (.portQconf i) := by
        change i < maxPortQconf
        omega
      by_cases port : rxq.portId < rteMaxEthports
      · have counter : ArrayIndex.Inside (.portNrxq rxq.portId) := port
        have keep : (rxq :: qconf).filter (·.portId < rteMaxEthports) =
            rxq :: qconf.filter (·.portId < rteMaxEthports) :=
          List.filter_cons_of_pos (decide_eq_true port)
        rw [keep, List.foldlM_cons, portNrxqStep, ribCheckCount]
        split
        · rw [insideAll_index, insideAll_index, insideAll_index, and_iff_right here,
            and_iff_right counter, and_iff_right counter, ih sorted _ (by omega),
            List.forall_mem_cons, and_iff_right port]
          rfl
        · rw [insideAll_index, insideAll_index]
          exact iff_of_true ⟨here, counter, insideAll_nil⟩ (.inr rfl)
      · have none : (rxq :: qconf).filter (·.portId < rteMaxEthports) = [] := by
          rw [List.filter_eq_nil_iff]
          intro other mem
          have above : rxq.portId ≤ other.portId := by
            rcases List.mem_cons.mp mem with rfl | mem
            · exact Nat.le_refl _
            · rcases least other mem with lt | ⟨same, -⟩
              · exact Nat.le_of_lt lt
              · exact Nat.le_of_eq same
          simpa using Nat.not_lt.mp port |>.trans above
        rw [none]
        refine iff_of_false ?_ ?_
        · intro inside
          refine port (inside (.portNrxq rxq.portId) ?_)
          rw [ribCheckCount]
          split <;> simp
        · rintro (all | stuck)
          · exact port (all rxq List.mem_cons_self)
          · cases stuck

/-! ## `rib_check` -/

/-- What `rib_check` does before it accepts or rejects. -/
def ribCheckTally (info : RibInfo) : List CheckAct :=
  (List.range (portQconf info).length).map (fun i => .index (.portQconf i)) ++
    (ribCheckCount (fun _ => 0) 0 ((portQconf info).insertionSort portQconfLe)).1

theorem ribCheckCount_check (info : RibInfo) :
    (ribCheckCount (fun _ => 0) 0 ((portQconf info).insertionSort portQconfLe)).2 = ribCheck info :=
  ribCheckCount_result _ _ _

/-- It accepts what `ribCheck` accepts, and calls drivers only then. -/
theorem ribCheckRun_of_some (d : Dpdk) {info : RibInfo} {nrxq : Nat → Nat}
    (accepted : ribCheck info = some nrxq) :
    ribCheckRun d info =
      (ribCheckTally info ++ (ribCheckPorts d info nrxq ++ ribCheckRings info), 0) := by
  rw [ribCheckRun]
  simp only [ribCheckCount_check, accepted, List.append_assoc]
  rw [ribCheckTally, List.append_assoc]

theorem ribCheckRun_of_none (d : Dpdk) {info : RibInfo} (rejected : ribCheck info = none) :
    ribCheckRun d info = (ribCheckTally info, -1) := by
  rw [ribCheckRun]
  simp only [ribCheckCount_check, rejected]
  rw [ribCheckTally]

theorem ribCheckTally_index (info : RibInfo) : ∀ act ∈ ribCheckTally info, ∃ a, act = .index a := by
  intro act mem
  rcases List.mem_append.mp mem with collect | count
  · obtain ⟨i, -, rfl⟩ := List.mem_map.mp collect
    exact ⟨_, rfl⟩
  · exact ribCheckCount_index _ _ _ act count

/-- The arrays of the tally have room for it just if there are not too many entries and no port
    past the counters is reached. -/
theorem insideAll_ribCheckTally (info : RibInfo) :
    InsideAll (ribCheckTally info) ↔ (portQconf info).length ≤ maxPortQconf ∧
      ((∀ rxq ∈ portQconf info, rxq.portId < rteMaxEthports) ∨
        ¬ WellAssigned ((portQconf info).filter (·.portId < rteMaxEthports))) := by
  have perm := List.perm_insertionSort portQconfLe (portQconf info)
  have sorted := List.pairwise_insertionSort portQconfLe (portQconf info)
  have collect : InsideAll ((List.range (portQconf info).length).map
      fun i => .index (.portQconf i)) ↔ (portQconf info).length ≤ maxPortQconf := by
    constructor
    · intro inside
      cases len : (portQconf info).length with
      | zero => exact Nat.zero_le _
      | succ n =>
          have last : (.index (.portQconf n) : CheckAct) ∈ (List.range (portQconf info).length).map
              fun i => .index (.portQconf i) :=
            List.mem_map.mpr ⟨n, List.mem_range.mpr (len ▸ Nat.lt_succ_self n), rfl⟩
          exact inside _ last
    · rintro room a mem
      obtain ⟨i, hi, same⟩ := List.mem_map.mp mem
      rcases same with ⟨⟩
      exact (List.mem_range.mp hi).trans_le room
  rw [ribCheckTally, insideAll_append, collect]
  refine and_congr_right fun room => ?_
  rw [insideAll_ribCheckCount sorted _ (by rw [perm.length_eq, Nat.zero_add]; exact room)]
  refine or_congr ?_ ?_
  · exact forall_congr' fun rxq => by rw [perm.mem_iff]
  · rw [← wellAssigned_perm (perm.filter _), ← portNrxq_isSome_iff (sorted.filter _), portNrxq,
      Bool.not_eq_true]

/-- The counters of the ports there are. -/
theorem insideAll_ribCheckPorts (d : Dpdk) (info : RibInfo) (nrxq : Nat → Nat) :
    InsideAll (ribCheckPorts d info nrxq) := by
  intro a mem
  obtain ⟨i, hi, mem⟩ := List.mem_flatMap.mp mem
  rcases List.mem_cons.mp mem with here | dev
  · rcases here with ⟨⟩
    exact (List.mem_range.mp hi).trans_le d.nbPorts_le
  · obtain ⟨op, -, same⟩ := List.mem_map.mp dev
    cases same

theorem mem_ribCheckRings {info : RibInfo} {a : ArrayIndex} :
    .index a ∈ ribCheckRings info ↔
      ∃ rxq ∈ (List.range rteMaxLcore).flatMap info.lcoreQconf,
        a = .ringUp rxq.portId rxq.queueId ∨ a = .ringDn rxq.portId rxq.queueId := by
  rw [ribCheckRings, List.mem_flatMap]
  refine exists_congr fun rxq => and_congr_right fun _ => ?_
  simp

/-- The configuration the first command makes. -/
def firstInfo : RibInfo := ribInfoFor onePort (.qconf firstTable) none

theorem insideAll_ribCheckRings (info : RibInfo) :
    InsideAll (ribCheckRings info) ↔ ∀ rxq ∈ (List.range rteMaxLcore).flatMap info.lcoreQconf,
      rxq.portId < rteMaxEthports ∧ rxq.queueId < maxRxQueuePerLcore := by
  constructor
  · intro inside rxq mem
    exact inside _ (mem_ribCheckRings.mpr ⟨rxq, mem, .inl rfl⟩)
  · intro all a mem
    obtain ⟨rxq, held, rfl | rfl⟩ := mem_ribCheckRings.mp mem
    · exact all rxq held
    · exact all rxq held

/-! ## What is accepted -/

/-- `lcore_qconf` has the lcores up to `lcore_size`, and no `nrxq` is more than its
    `rx_queue_list` holds. -/
structure RibInfo.Inside (info : RibInfo) : Prop where
  lcores : info.lcoreSize.toNat ≤ rteMaxLcore
  queues : ∀ lcore < rteMaxLcore, (info.lcoreQconf lcore).length ≤ maxRxQueuePerLcore

/-- `rib_check` reads and writes inside every array and returns `r`. -/
structure RibCheckReturns (d : Dpdk) (info : RibInfo) (r : Int) : Prop where
  own : info.Inside
  inside : InsideAll (ribCheckRun d info).1
  result : (ribCheckRun d info).2 = r

/-- It returns 0 exactly for the well-formed assignments, -1 for the others, and then it has
    touched nothing. -/
structure RibCheckExact (d : Dpdk) (info : RibInfo) : Prop where
  accepts : RibCheckReturns d info 0 ↔ WellAssigned (portQconf info)
  rejects : ¬ WellAssigned (portQconf info) → RibCheckReturns d info (-1)
  untouched : RibCheckReturns d info (-1) → ∀ op, .dev op ∉ (ribCheckRun d info).1

/-- `ring_up` and `ring_dn` have room for the queues of every lcore, also of those from
    `lcore_size` on. -/
def RingsHold (info : RibInfo) : Prop :=
  ∀ rxq ∈ (List.range rteMaxLcore).flatMap info.lcoreQconf,
    rxq.portId < rteMaxEthports ∧ rxq.queueId < maxRxQueuePerLcore

section

variable {d : Dpdk} {info : RibInfo}

theorem ribCheck_of_wellAssigned (accepted : WellAssigned (portQconf info)) :
    ∃ nrxq, ribCheck info = some nrxq := by
  rw [← Option.isSome_iff_exists, ribCheck_isSome_iff]
  exact accepted

theorem ribCheck_of_not_wellAssigned (refused : ¬ WellAssigned (portQconf info)) :
    ribCheck info = none := by
  rw [← Option.not_isSome_iff_eq_none, ribCheck_isSome_iff]
  exact refused

/-- On a well-formed assignment it goes through, with the rings it looks for in their arrays or
    not. -/
theorem ribCheckReturns_of_wellAssigned (room : (portQconf info).length ≤ maxPortQconf)
    (ports : ∀ rxq ∈ portQconf info, rxq.portId < rteMaxEthports)
    (accepted : WellAssigned (portQconf info)) (r : Int) :
    RibCheckReturns d info r ↔ info.Inside ∧ RingsHold info ∧ r = 0 := by
  have tally : InsideAll (ribCheckTally info) :=
    (insideAll_ribCheckTally info).mpr ⟨room, .inl ports⟩
  obtain ⟨nrxq, checked⟩ := ribCheck_of_wellAssigned accepted
  have run := ribCheckRun_of_some d checked
  have rings : InsideAll (ribCheckRun d info).1 ↔ RingsHold info := by
    rw [run, insideAll_append, insideAll_append, insideAll_ribCheckRings, and_iff_right tally,
      and_iff_right (insideAll_ribCheckPorts d info nrxq)]
    rfl
  constructor
  · intro returns
    refine ⟨returns.own, rings.mp returns.inside, ?_⟩
    rw [← returns.result, run]
  · rintro ⟨own, held, rfl⟩
    refine ⟨own, rings.mpr held, ?_⟩
    rw [run]

/-- The others it rejects in the count. -/
theorem ribCheckReturns_of_not_wellAssigned (room : (portQconf info).length ≤ maxPortQconf)
    (ports : ∀ rxq ∈ portQconf info, rxq.portId < rteMaxEthports)
    (refused : ¬ WellAssigned (portQconf info)) (r : Int) :
    RibCheckReturns d info r ↔ info.Inside ∧ r = -1 := by
  have run := ribCheckRun_of_none d (ribCheck_of_not_wellAssigned refused)
  constructor
  · intro returns
    refine ⟨returns.own, ?_⟩
    rw [← returns.result, run]
  · rintro ⟨own, rfl⟩
    refine ⟨own, ?_, ?_⟩
    · rw [run]
      exact (insideAll_ribCheckTally info).mpr ⟨room, .inl ports⟩
    · rw [run]

/-- Drivers are called only for an assignment that is accepted. -/
theorem wellAssigned_of_dev {op : DevOp} (called : .dev op ∈ (ribCheckRun d info).1) :
    WellAssigned (portQconf info) := by
  by_contra refused
  rw [ribCheckRun_of_none d (ribCheck_of_not_wellAssigned refused)] at called
  obtain ⟨a, same⟩ := ribCheckTally_index info _ called
  cases same

end

/-- Where `port_qconf` and `port_nrxq` have room for what is collected, `rib_check` accepts
    exactly the well-formed assignments, and touches nothing otherwise, if and only if the
    `rib_info` keeps inside its own arrays and, for an assignment that is well formed, every queue
    has its place among the rings. -/
theorem ribCheckRun_accepts_iff (d : Dpdk) {info : RibInfo}
    (room : (portQconf info).length ≤ maxPortQconf)
    (ports : ∀ rxq ∈ portQconf info, rxq.portId < rteMaxEthports) :
    RibCheckExact d info ↔
      info.Inside ∧ (WellAssigned (portQconf info) → RingsHold info) := by
  by_cases accepted : WellAssigned (portQconf info)
  · have returns := ribCheckReturns_of_wellAssigned (d := d) room ports accepted
    constructor
    · intro exact'
      obtain ⟨own, held, -⟩ := (returns 0).mp (exact'.accepts.mpr accepted)
      exact ⟨own, fun _ => held⟩
    · rintro ⟨own, held⟩
      refine ⟨iff_of_true ((returns 0).mpr ⟨own, held accepted, rfl⟩) accepted,
        fun refused => absurd accepted refused, ?_⟩
      intro rejected
      have zero := ((returns (-1)).mp rejected).2.2
      exact absurd zero (by decide)
  · have returns := ribCheckReturns_of_not_wellAssigned (d := d) room ports accepted
    constructor
    · intro exact'
      exact ⟨(exact'.rejects accepted).own, fun formed => absurd formed accepted⟩
    · rintro ⟨own, -⟩
      refine ⟨iff_of_false ?_ accepted, fun _ => (returns (-1)).mpr ⟨own, rfl⟩, ?_⟩
      · intro zero
        exact absurd ((returns 0).mp zero).2 (by decide)
      · intro _ op called
        exact accepted (wellAssigned_of_dev called)

theorem ribCheckRun_accepts_first : RibCheckExact onePort firstInfo ↔
    firstInfo.Inside ∧ (WellAssigned (portQconf firstInfo) → RingsHold firstInfo) :=
  ribCheckRun_accepts_iff onePort (by decide) (by decide)

/-- Seventeen lcores, each with a queue of port 0. -/
def seventeenQueues : RibInfo :=
  { RibInfo.zero with
    lcoreSize := 17
    lcoreQconf := fun lcore => if lcore < 17 then [⟨0, lcore⟩] else [] }

theorem wellAssigned_seventeenQueues : WellAssigned (portQconf seventeenQueues) := by
  intro port
  by_cases zero : port = 0
  · refine ⟨17, ?_⟩
    rw [zero]
    decide
  · refine ⟨0, ?_⟩
    have none : queueIds port (portQconf seventeenQueues) = [] := by
      rw [queueIds, List.map_eq_nil_iff, List.filter_eq_nil_iff]
      intro rxq mem
      have own : rxq.portId = 0 := by
        revert rxq
        decide
      rw [own, decide_eq_true_iff]
      exact Ne.symm zero
    rw [none]
    exact List.Perm.nil

/-- Its queues are 0 to 16, of which `ring_up` and `ring_dn` have no place for the last. -/
theorem ribCheckRun_accepts_not :
    ¬ ∀ (d : Dpdk) (info : RibInfo), (portQconf info).length ≤ maxPortQconf →
      (∀ rxq ∈ portQconf info, rxq.portId < rteMaxEthports) → RibCheckExact d info := by
  intro exact'
  have formed := wellAssigned_seventeenQueues
  have room : (portQconf seventeenQueues).length ≤ maxPortQconf := by decide
  have ports : ∀ rxq ∈ portQconf seventeenQueues, rxq.portId < rteMaxEthports := by decide
  have returns := (exact' onePort seventeenQueues room ports).accepts.mpr formed
  obtain ⟨-, held, -⟩ := (ribCheckReturns_of_wellAssigned room ports formed 0).mp returns
  have last : (⟨0, 16⟩ : PortQueueConf) ∈
      (List.range rteMaxLcore).flatMap seventeenQueues.lcoreQconf :=
    List.mem_flatMap.mpr ⟨16, by decide, by decide⟩
  exact absurd (held _ last).2 (Nat.lt_irrefl 16)

/-! ## A command and its message -/

/-- What `set thread` indexes: the table in the search and when it is shown, and the lcore. -/
def setThreadIndexes (c : SetThread) : List ArrayIndex :=
  (List.range rteMaxLcore).map .threadQconf ++ .threadQconf c.lcoreId ::
    (List.range rteMaxLcore).map .threadQconf

/-- The command parser accepts `<0-128>` three times. -/
structure SetThreadAccepted (c : SetThread) : Prop where
  lcore : c.lcoreId ≤ 128
  port : c.portId ≤ 128
  queue : c.queueId ≤ 128

/-- `thread_qconf` and the published rib. -/
structure QconfState where
  table : ThreadQconf
  rib : Option Rib

namespace QconfState

variable (d : Dpdk)

def init : QconfState := ⟨fun _ => [], none⟩

/-- The configuration the message of a command makes. -/
def merged (s : QconfState) (c : SetThread) : RibInfo :=
  ribInfoFor d (.qconf (setThreadLcorePortQueue s.table c)) s.rib

/-- A command, and its message processed. -/
def step (s : QconfState) (c : SetThread) : QconfState where
  table := setThreadLcorePortQueue s.table c
  rib := ribAfter d (.qconf (setThreadLcorePortQueue s.table c)) s.rib

/-- The acts of a command and of its message. -/
def stepActs (s : QconfState) (c : SetThread) : List CheckAct :=
  (setThreadIndexes c).map .index ++ (ribCheckRun d (s.merged d c)).1

def runActs (s : QconfState) : List SetThread → List CheckAct
  | [] => []
  | c :: cs => s.stepActs d c ++ runActs (s.step d c) cs

/-- The lcore is in the table, there are no more entries than `port_qconf` holds, the count
    gets to no port past the counters, and no port gets more queues than it has rings. -/
structure StepFits (s : QconfState) (c : SetThread) : Prop where
  lcore : c.lcoreId < rteMaxLcore
  entries : (portQconf (s.merged d c)).length ≤ maxPortQconf
  ports : (∀ rxq ∈ portQconf (s.merged d c), rxq.portId < rteMaxEthports) ∨
    ¬ WellAssigned ((portQconf (s.merged d c)).filter (·.portId < rteMaxEthports))
  queues : WellAssigned (portQconf (s.merged d c)) →
    ∀ port, (queueIds port (portQconf (s.merged d c))).length ≤ maxRxQueuePerLcore

/-- Every command of the run fits. -/
def RunFits (s : QconfState) : List SetThread → Prop
  | [] => True
  | c :: cs => s.StepFits d c ∧ RunFits (s.step d c) cs

/-- Only lcores there are have queues. -/
def Tight (s : QconfState) : Prop := ∀ i, d.lcoreCount ≤ i → ribQueues s.rib i = []

variable {d : Dpdk} {s : QconfState}

theorem Tight.step (tight : s.Tight d) (c : SetThread) : (s.step d c).Tight d := by
  intro i above
  change ribQueues (ribAfter d (.qconf (setThreadLcorePortQueue s.table c)) s.rib) i = []
  rw [ribAfter_eq]
  split
  · exact tight i above
  · rw [ribQueues_some, mergeQconf_lcoreQconf, if_neg fun both => absurd both.1 (Nat.not_lt.mpr above)]
    exact tight i above

/-- The rings are looked at for the entries that were collected. -/
theorem Tight.entries (tight : s.Tight d) (c : SetThread) :
    (List.range rteMaxLcore).flatMap (s.merged d c).lcoreQconf = portQconf (s.merged d c) := by
  rw [portQconf, merged, ribInfoFor_lcoreSize d s.rib rfl]
  refine flatMap_range_of_empty d.lcoreCount_le ?_
  intro i above
  rw [mergeQconf_lcoreQconf, if_neg fun both => absurd both.1 (Nat.not_lt.mpr above)]
  exact tight i above

end QconfState

theorem WellAssigned.filter {qconf : List PortQueueConf} (ok : WellAssigned qconf) (n : Nat) :
    WellAssigned (qconf.filter (·.portId < n)) := by
  intro port
  by_cases below : port < n
  · obtain ⟨k, ids⟩ := ok port
    refine ⟨k, ?_⟩
    have same : queueIds port (qconf.filter (·.portId < n)) = queueIds port qconf := by
      rw [queueIds, queueIds, List.filter_filter]
      refine congrArg _ (List.filter_congr fun rxq _ => ?_)
      by_cases here : rxq.portId = port
      · simp [here, below]
      · simp [here]
    rw [same]
    exact ids
  · refine ⟨0, ?_⟩
    have none : queueIds port (qconf.filter (·.portId < n)) = [] := by
      rw [queueIds, List.filter_filter, List.map_eq_nil_iff, List.filter_eq_nil_iff]
      intro rxq _ both
      rw [Bool.and_eq_true, decide_eq_true_eq, decide_eq_true_eq] at both
      exact below (both.1 ▸ both.2)
    rw [none]
    exact List.Perm.nil

/-- The queue ids of a port are below a bound just if there are no more of them. -/
theorem WellAssigned.queueId_lt_iff {qconf : List PortQueueConf} (ok : WellAssigned qconf)
    (n : Nat) : (∀ rxq ∈ qconf, rxq.queueId < n) ↔ ∀ port, (queueIds port qconf).length ≤ n := by
  constructor
  · intro below port
    obtain ⟨k, ids⟩ := ok port
    rw [ids.length_eq, List.length_range]
    by_contra above
    have last : n ∈ queueIds port qconf :=
      ids.mem_iff.mpr (List.mem_range.mpr (Nat.lt_of_not_le above))
    obtain ⟨rxq, mem, same⟩ := List.mem_map.mp last
    exact absurd same (Nat.ne_of_lt (below rxq (List.mem_filter.mp mem).1))
  · intro few rxq mem
    obtain ⟨k, ids⟩ := ok rxq.portId
    have room := few rxq.portId
    rw [ids.length_eq, List.length_range] at room
    have here : rxq.queueId ∈ queueIds rxq.portId qconf :=
      List.mem_map.mpr ⟨rxq, List.mem_filter.mpr ⟨mem, decide_eq_true rfl⟩, rfl⟩
    exact (List.mem_range.mp (ids.mem_iff.mp here)).trans_le room

theorem insideAll_setThreadIndexes (c : SetThread) :
    InsideAll ((setThreadIndexes c).map .index) ↔ c.lcoreId < rteMaxLcore := by
  constructor
  · intro inside
    have own : .threadQconf c.lcoreId ∈ setThreadIndexes c :=
      List.mem_append_right _ List.mem_cons_self
    exact inside _ (List.mem_map_of_mem own)
  · intro lcore a mem
    obtain ⟨_, there, same⟩ := List.mem_map.mp mem
    rcases same with ⟨⟩
    have whole : a ∈ (List.range rteMaxLcore).map ArrayIndex.threadQconf → a.Inside := by
      intro search
      obtain ⟨i, hi, rfl⟩ := List.mem_map.mp search
      exact List.mem_range.mp hi
    rcases List.mem_append.mp there with search | there
    · exact whole search
    · rcases List.mem_cons.mp there with rfl | shown
      · exact lcore
      · exact whole shown

namespace QconfState

variable {d : Dpdk} {s : QconfState}

/-- A command and its message stay inside the arrays just if the command fits. -/
theorem insideAll_stepActs (tight : s.Tight d) (c : SetThread) :
    InsideAll (s.stepActs d c) ↔ s.StepFits d c := by
  rw [stepActs, insideAll_append, insideAll_setThreadIndexes]
  cases checked : ribCheck (s.merged d c) with
  | none =>
      have refused : ¬ WellAssigned (portQconf (s.merged d c)) := by
        rw [← ribCheck_isSome_iff, checked]
        exact Bool.false_ne_true
      rw [ribCheckRun_of_none d checked, insideAll_ribCheckTally]
      constructor
      · rintro ⟨lcore, entries, ports⟩
        exact ⟨lcore, entries, ports, fun accepted => absurd accepted refused⟩
      · intro fits
        exact ⟨fits.lcore, fits.entries, fits.ports⟩
  | some nrxq =>
      have accepted : WellAssigned (portQconf (s.merged d c)) := by
        rw [← ribCheck_isSome_iff, checked]
        rfl
      rw [ribCheckRun_of_some d checked, insideAll_append, insideAll_ribCheckTally, insideAll_append,
        insideAll_ribCheckRings, tight.entries c]
      constructor
      · rintro ⟨lcore, ⟨entries, ports⟩, -, rings⟩
        refine ⟨lcore, entries, ports, fun _ => ?_⟩
        exact (accepted.queueId_lt_iff _).mp fun rxq mem => (rings rxq mem).2
      · intro fits
        have ports := fits.ports.resolve_right (not_not.mpr (accepted.filter rteMaxEthports))
        have queues := (accepted.queueId_lt_iff _).mpr (fits.queues accepted)
        exact ⟨fits.lcore, ⟨fits.entries, fits.ports⟩, insideAll_ribCheckPorts d _ nrxq,
          fun rxq mem => ⟨ports rxq mem, queues rxq mem⟩⟩

theorem insideAll_runActs_of_tight (tight : s.Tight d) (cs : List SetThread) :
    InsideAll (s.runActs d cs) ↔ s.RunFits d cs := by
  induction cs generalizing s with
  | nil => exact iff_of_true insideAll_nil trivial
  | cons c cs ih =>
      rw [runActs, insideAll_append, insideAll_stepActs tight, ih (tight.step c)]
      rfl

/-- A run of commands, each with its message processed, stays inside the arrays exactly if every
    command of it fits. -/
theorem insideAll_runActs (d : Dpdk) (cs : List SetThread) :
    InsideAll (init.runActs d cs) ↔ init.RunFits d cs :=
  insideAll_runActs_of_tight (fun _ _ => rfl) cs

/-- `set thread 128 port 0 queue 0` is accepted. -/
theorem insideAll_runActs_not :
    SetThreadAccepted ⟨128, 0, 0⟩ ∧ .index (.threadQconf 128) ∈ init.runActs onePort [⟨128, 0, 0⟩] ∧
      ¬ ArrayIndex.Inside (.threadQconf 128) := by
  refine ⟨⟨by decide, by decide, by decide⟩, ?_, Nat.lt_irrefl 128⟩
  have own : .threadQconf 128 ∈ setThreadIndexes ⟨128, 0, 0⟩ :=
    List.mem_append_right _ List.mem_cons_self
  exact List.mem_append_left _ (List.mem_append_left _ (List.mem_map_of_mem own))

end QconfState

end Sdplane
