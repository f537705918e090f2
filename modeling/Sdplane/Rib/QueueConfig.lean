import Sdplane.Rib.Manager

/-!
# The thread table and the RIB

The command `set thread <lcore> port <port> queue <queue>` (`queue_config.c:89-183`) edits
`thread_qconf` and sends the whole table to the RIB manager, which merges it into the
published configuration lcore by lcore.
-/

namespace Sdplane

open Qsbr

/-! ## The command -/

/-- `thread_qconf`. -/
abbrev ThreadQconf := Nat → List PortQueueConf

/-- The arguments of the command. -/
structure SetThread where
  lcoreId : Nat
  portId : Nat
  queueId : Nat

def SetThread.rxq (c : SetThread) : PortQueueConf := ⟨c.portId, c.queueId⟩

/-- The search through the list of another lcore. A match is moved over by the rest of the
    list, and the index goes on, past the entry that took its place. -/
def removeMatches (rxq : PortQueueConf) : List PortQueueConf → List PortQueueConf
  | [] => []
  | [x] => if x = rxq then [] else [x]
  | x :: y :: xs => if x = rxq then y :: removeMatches rxq xs else x :: removeMatches rxq (y :: xs)

/-- The table after the search. -/
def removeExisting (t : ThreadQconf) (c : SetThread) : ThreadQconf := fun i =>
  if i < rteMaxLcore ∧ i ≠ c.lcoreId then removeMatches c.rxq (t i) else t i

/-- The table after the command: an lcore whose list is full does not get the queue. -/
def setThreadLcorePortQueue (t : ThreadQconf) (c : SetThread) : ThreadQconf :=
  let t := removeExisting t c
  if c.rxq ∈ t c.lcoreId then t
  else if (t c.lcoreId).length < maxRxQueuePerLcore then
    Function.update t c.lcoreId (t c.lcoreId ++ [c.rxq])
  else t

/-- The lcore and the port of a command exist. -/
structure SetThreadValid (d : Dpdk) (c : SetThread) : Prop where
  lcore : c.lcoreId < d.lcoreCount
  port : c.portId < d.nbPorts

/-- Runs of the command, each message being processed before the next command; messages
    that are no queue change may come in between. -/
inductive QconfRun (d : Dpdk) : ThreadQconf → Option Rib → Prop where
  | init : QconfRun d (fun _ => []) none
  | setThread {t : ThreadQconf} {r : Option Rib} (c : SetThread) : QconfRun d t r →
      SetThreadValid d c →
      QconfRun d (setThreadLcorePortQueue t c)
        (ribAfter d (.qconf (setThreadLcorePortQueue t c)) r)
  | message {t : ThreadQconf} {r : Option Rib} (msg : RibMsg) : QconfRun d t r →
      msg.isQconf = false → QconfRun d t (ribAfter d msg r)

/-! ## Agreement -/

/-- Every port's queue ids in the table are 0 to k - 1, each on one lcore. -/
def TableWellAssigned (t : ThreadQconf) : Prop :=
  WellAssigned ((List.range rteMaxLcore).flatMap t)

/-- The published configuration is the table, for every lcore it knows. -/
def RibAgrees (t : ThreadQconf) (r : Option Rib) : Prop :=
  ∃ info, r = some ⟨some info⟩ ∧ ∀ i < info.lcoreSize.toNat, info.lcoreQconf i = t i

/-- No lcore without a queue in the table still has one in the rib published before. -/
def NothingStale (d : Dpdk) (t : ThreadQconf) (r : Option Rib) : Prop :=
  ∀ i < d.lcoreCount, t i = [] → ribQueues r i = []

/-! ## Runs -/

theorem removeMatches_nil_of_nil {rxq : PortQueueConf} {xs : List PortQueueConf} (h : xs = []) :
    removeMatches rxq xs = [] := by
  rw [h]
  rfl

/-- What holds in every run: only lcores that exist have queues in the table, and a rib with
    queues was published by a queue change. -/
structure QconfInv (d : Dpdk) (t : ThreadQconf) (r : Option Rib) : Prop where
  table : ∀ i, d.lcoreCount ≤ i → t i = []
  rib : ∀ i, ribQueues r i ≠ [] →
    ∃ info, r = some ⟨some info⟩ ∧ info.lcoreSize.toNat = d.lcoreCount

theorem setThread_table {d : Dpdk} {t : ThreadQconf} {c : SetThread}
    (table : ∀ i, d.lcoreCount ≤ i → t i = []) (lcore : c.lcoreId < d.lcoreCount) {i : Nat}
    (above : d.lcoreCount ≤ i) : setThreadLcorePortQueue t c i = [] := by
  have removed : removeExisting t c i = [] := by
    rw [removeExisting]
    split
    · exact removeMatches_nil_of_nil (table i above)
    · exact table i above
  simp only [setThreadLcorePortQueue]
  split
  · exact removed
  · split
    · rw [Function.update_of_ne (by omega)]
      exact removed
    · exact removed

/-- A message that is no queue change sets the number of lcores to `rte_lcore_count ()` or
    leaves it. -/
theorem ribInfoFor_lcoreSize_of_not_qconf (d : Dpdk) {msg : RibMsg} (old : Option Rib)
    (kind : msg.isQconf = false) :
    (ribInfoFor d msg old).lcoreSize = BitVec.ofNat 8 d.lcoreCount ∨
      (ribInfoFor d msg old).lcoreSize = (ribCreate old).lcoreSize := by
  cases msg with
  | portStatus => exact Or.inl rfl
  | ethLink => exact Or.inr rfl
  | qconf q => cases kind
  | qconf2 => cases kind
  | txrxDesc p rxd txd => exact Or.inr rfl
  | unknown => exact Or.inr rfl

theorem QconfRun.inv {d : Dpdk} {t : ThreadQconf} {r : Option Rib} (run : QconfRun d t r) :
    QconfInv d t r := by
  induction run with
  | init => exact ⟨fun _ _ => rfl, fun _ some' => absurd rfl some'⟩
  | @setThread t r c _ valid ih =>
      refine ⟨fun i above => setThread_table ih.table valid.lcore above, ?_⟩
      intro i queues
      rw [ribAfter_eq] at queues ⊢
      split at queues
      · rename_i rejected
        rw [if_pos rejected]
        exact ih.rib i queues
      · rename_i accepted
        rw [if_neg accepted]
        exact ⟨_, rfl, ribInfoFor_lcoreSize d r rfl⟩
  | @message t r msg _ kind ih =>
      refine ⟨ih.table, ?_⟩
      have published : ribAfter d msg r = some ⟨some (ribInfoFor d msg r)⟩ := by
        rw [ribAfter_eq, kind]
        simp
      intro i queues
      rw [published, ribQueues_some, ribInfoFor_lcoreQconf d r kind] at queues
      obtain ⟨info, rfl, size⟩ := ih.rib i queues
      refine ⟨_, published, ?_⟩
      rcases ribInfoFor_lcoreSize_of_not_qconf d (some ⟨some info⟩) kind with reset | kept
      · rw [reset, d.toNat_lcoreCount]
      · rw [kept]
        exact size

/-! ## One command -/

theorem mergeQconf_lcoreQconf (d : Dpdk) (t : ThreadQconf) (r : Option Rib) (i : Nat) :
    (ribInfoFor d (.qconf t) r).lcoreQconf i =
      if i < d.lcoreCount ∧ t i ≠ [] then t i else ribQueues r i := by
  rw [← ribCreate_lcoreQconf]
  rfl

/-- Entries above the lcores that exist do not count. -/
theorem flatMap_range_of_empty {t : ThreadQconf} {n m : Nat} (le : n ≤ m)
    (empty : ∀ i, n ≤ i → t i = []) : (List.range m).flatMap t = (List.range n).flatMap t := by
  obtain ⟨k, rfl⟩ := Nat.exists_eq_add_of_le le
  have above : ((List.range k).map (n + ·)).flatMap t = [] := by
    rw [List.flatMap_eq_nil_iff]
    intro i mem
    obtain ⟨j, -, rfl⟩ := List.mem_map.mp mem
    exact empty _ (Nat.le_add_right n j)
  rw [List.range_add, List.flatMap_append, above, List.append_nil]

/-- Where nothing is stale, the merged configuration is the table. -/
theorem portQconf_of_nothingStale {d : Dpdk} {t : ThreadQconf} {r : Option Rib}
    (table : ∀ i, d.lcoreCount ≤ i → t i = []) (fresh : NothingStale d t r) :
    (∀ i < d.lcoreCount, (ribInfoFor d (.qconf t) r).lcoreQconf i = t i) ∧
      portQconf (ribInfoFor d (.qconf t) r) = (List.range rteMaxLcore).flatMap t := by
  have merged : ∀ i < d.lcoreCount, (ribInfoFor d (.qconf t) r).lcoreQconf i = t i := by
    intro i hi
    rw [mergeQconf_lcoreQconf]
    split
    · rfl
    · rename_i kept
      have empty : t i = [] := by
        by_contra queues
        exact kept ⟨hi, queues⟩
      rw [fresh i hi empty, empty]
  refine ⟨merged, ?_⟩
  rw [portQconf, ribInfoFor_lcoreSize d r rfl, flatMap_range_of_empty d.lcoreCount_le table]
  apply List.flatMap_congr
  intro i mem
  exact merged i (List.mem_range.mp mem)

/-- After any run and a further command that leaves a well-formed table, the rib then
    published agrees with the table exactly when no lcore that has no queue in the table
    has one in the rib published before. -/
theorem setThread_agrees_iff {d : Dpdk} {t : ThreadQconf} {r : Option Rib} (run : QconfRun d t r)
    {c : SetThread} (valid : SetThreadValid d c)
    (wellAssigned : TableWellAssigned (setThreadLcorePortQueue t c)) :
    RibAgrees (setThreadLcorePortQueue t c)
        (ribAfter d (.qconf (setThreadLcorePortQueue t c)) r) ↔
      NothingStale d (setThreadLcorePortQueue t c) r := by
  have table : ∀ i, d.lcoreCount ≤ i → setThreadLcorePortQueue t c i = [] :=
    fun i above => setThread_table run.inv.table valid.lcore above
  have queues := run.inv.rib
  generalize setThreadLcorePortQueue t c = t' at *
  rw [ribAfter_eq]
  constructor
  · rintro ⟨info, published, same⟩ i hi empty
    by_contra stale
    split at published
    · obtain ⟨info', rfl, size⟩ := queues i stale
      cases published
      have gone := same i (by rw [size]; exact hi)
      rw [empty] at gone
      exact stale gone
    · cases published
      have gone := same i (by rw [ribInfoFor_lcoreSize d r rfl]; exact hi)
      rw [mergeQconf_lcoreQconf, empty, if_neg (fun both => both.2 rfl)] at gone
      exact stale gone
  · intro fresh
    obtain ⟨merged, collected⟩ := portQconf_of_nothingStale table fresh
    have accepted : (ribCheck (ribInfoFor d (.qconf t') r)).isSome := by
      rw [ribCheck_isSome_iff, collected]
      exact wellAssigned
    rw [accepted, if_neg (fun both => Bool.noConfusion both.2)]
    refine ⟨_, rfl, ?_⟩
    intro i hi
    rw [ribInfoFor_lcoreSize d r rfl] at hi
    exact merged i hi

/-! ## Moving the last queue of an lcore -/

/-- One queue, first on lcore 1, then moved to lcore 2. -/
def firstCommand : SetThread := ⟨1, 0, 0⟩
def moveCommand : SetThread := ⟨2, 0, 0⟩

/-- The table and the rib after the first command. -/
def firstTable : ThreadQconf := setThreadLcorePortQueue (fun _ => []) firstCommand
def firstRib : Option Rib := ribAfter onePort (.qconf firstTable) none

theorem firstCommand_valid : SetThreadValid onePort firstCommand where
  lcore := by decide
  port := by decide

theorem moveCommand_valid : SetThreadValid onePort moveCommand where
  lcore := by decide
  port := by decide

theorem wellAssigned_single (port : Nat) : WellAssigned [⟨port, 0⟩] := by
  intro other
  by_cases same : port = other
  · exact ⟨1, by simp [queueIds, same]⟩
  · exact ⟨0, by simp [queueIds, same]⟩

theorem firstTable_wellAssigned : TableWellAssigned firstTable := by
  have entries : (List.range rteMaxLcore).flatMap firstTable = [⟨0, 0⟩] := by decide
  rw [TableWellAssigned, entries]
  exact wellAssigned_single 0

theorem moveTable_wellAssigned :
    TableWellAssigned (setThreadLcorePortQueue firstTable moveCommand) := by
  have entries : (List.range rteMaxLcore).flatMap (setThreadLcorePortQueue firstTable moveCommand) =
      [⟨0, 0⟩] := by decide
  rw [TableWellAssigned, entries]
  exact wellAssigned_single 0

theorem setThread_agrees_first :
    RibAgrees firstTable firstRib ↔ NothingStale onePort firstTable none :=
  setThread_agrees_iff .init firstCommand_valid firstTable_wellAssigned

/-- The move leaves the queue with lcore 1 in the merged configuration too, so it is
    rejected as a duplicate. -/
theorem setThread_disagrees :
    ¬ ∀ (d : Dpdk) (t : ThreadQconf) (r : Option Rib) (c : SetThread), QconfRun d t r →
      SetThreadValid d c → TableWellAssigned (setThreadLcorePortQueue t c) →
        RibAgrees (setThreadLcorePortQueue t c)
          (ribAfter d (.qconf (setThreadLcorePortQueue t c)) r) := by
  intro agrees
  obtain ⟨info, published, same⟩ := agrees onePort firstTable firstRib moveCommand
    (.setThread firstCommand .init firstCommand_valid) moveCommand_valid moveTable_wellAssigned
  have rejected : (ribCheck (ribInfoFor onePort
      (.qconf (setThreadLcorePortQueue firstTable moveCommand)) firstRib)).isSome = false := by
    decide
  rw [ribAfter_eq, if_pos ⟨rfl, rejected⟩, firstRib, ribAfter_eq, if_neg (by decide)] at published
  cases published
  have lost := same 1 (by decide)
  revert lost
  decide

end Sdplane
