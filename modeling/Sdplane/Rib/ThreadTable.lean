import Sdplane.Rib.QueueConfig

/-!
# The thread table under `set thread`

Which queues the command leaves on which lcore. A queue is on one lcore at most, so the search
of another lcore's list finds it once and the shift of the list behind it loses nothing. The
queue is taken off its lcore before there is known to be room for it on the new one.
-/

namespace Sdplane

/-- The tables commands leave that address an lcore of the table. -/
inductive TableReachable : ThreadQconf → Prop
  | init : TableReachable fun _ => []
  | setThread {t : ThreadQconf} (c : SetThread) : TableReachable t → c.lcoreId < rteMaxLcore →
      TableReachable (setThreadLcorePortQueue t c)

/-- A queue is on one lcore at most and there once, and no list is longer than it may be. -/
structure TableOk (t : ThreadQconf) : Prop where
  once : ∀ i < rteMaxLcore, (t i).Nodup
  apart : ∀ i < rteMaxLcore, ∀ j < rteMaxLcore, ∀ rxq, rxq ∈ t i → rxq ∈ t j → i = j
  room : ∀ i < rteMaxLcore, (t i).length ≤ maxRxQueuePerLcore

/-- Where an entry occurs once, nothing is skipped. -/
theorem removeMatches_eq_filter {rxq : PortQueueConf} {xs : List PortQueueConf} (once : xs.Nodup) :
    removeMatches rxq xs = xs.filter (· ≠ rxq) := by
  induction xs using removeMatches.induct rxq with
  | case1 => rfl
  | case2 => simp [removeMatches]
  | case3 x same =>
      simp [removeMatches, same]
  | case4 y xs ih =>
      obtain ⟨first, rest⟩ := List.nodup_cons.mp once
      obtain ⟨second, rest'⟩ := List.nodup_cons.mp rest
      have other : y ≠ rxq := fun same => first (same ▸ List.mem_cons_self)
      rw [removeMatches, if_pos rfl, ih rest']
      simp [other]
  | case5 x y xs other ih =>
      rw [removeMatches, if_neg other, ih (List.nodup_cons.mp once).2]
      simp [other]

/-- What the command does to the list of each lcore. -/
theorem setThread_eq {t : ThreadQconf} (ok : TableOk t) (c : SetThread) {i : Nat}
    (inside : i < rteMaxLcore) :
    setThreadLcorePortQueue t c i =
      if i = c.lcoreId then
        if c.rxq ∉ t i ∧ (t i).length < maxRxQueuePerLcore then t i ++ [c.rxq] else t i
      else (t i).filter (· ≠ c.rxq) := by
  have own : removeExisting t c c.lcoreId = t c.lcoreId := if_neg fun other => other.2 rfl
  have others : i ≠ c.lcoreId → removeExisting t c i = (t i).filter (· ≠ c.rxq) := by
    intro other
    rw [removeExisting, if_pos ⟨inside, other⟩, removeMatches_eq_filter (ok.once i inside)]
  simp only [setThreadLcorePortQueue, own]
  by_cases here : i = c.lcoreId
  · subst here
    rw [if_pos rfl]
    by_cases held : c.rxq ∈ t c.lcoreId
    · rw [if_pos held, if_neg fun both => both.1 held, own]
    · rw [if_neg held]
      by_cases free : (t c.lcoreId).length < maxRxQueuePerLcore
      · rw [if_pos free, if_pos ⟨held, free⟩, Function.update_self]
      · rw [if_neg free, if_neg fun both => free both.2, own]
  · rw [if_neg here]
    split
    · exact others here
    · split
      · rw [Function.update_of_ne here]
        exact others here
      · exact others here

/-- A queue that an lcore has after the command it had before, or it is the queue of the
    command. -/
theorem mem_setThread {t : ThreadQconf} (ok : TableOk t) {c : SetThread} {i : Nat}
    (inside : i < rteMaxLcore) {rxq : PortQueueConf} (mem : rxq ∈ setThreadLcorePortQueue t c i) :
    rxq ∈ t i ∧ (rxq = c.rxq → i = c.lcoreId) ∨ rxq = c.rxq ∧ i = c.lcoreId := by
  rw [setThread_eq ok c inside] at mem
  split at mem
  · rename_i here
    split at mem
    · rcases List.mem_append.mp mem with old | new
      · exact .inl ⟨old, fun _ => here⟩
      · exact .inr ⟨List.mem_singleton.mp new, here⟩
    · exact .inl ⟨mem, fun _ => here⟩
  · obtain ⟨old, other⟩ := List.mem_filter.mp mem
    exact .inl ⟨old, fun same => absurd same (of_decide_eq_true other)⟩

theorem TableOk.setThread {t : ThreadQconf} (ok : TableOk t) (c : SetThread) :
    TableOk (setThreadLcorePortQueue t c) where
  once := by
    intro i hi
    rw [setThread_eq ok c hi]
    split
    · split
      · rename_i both
        refine List.nodup_append.mpr ⟨ok.once i hi, List.nodup_singleton _, ?_⟩
        intro rxq held other new same
        rw [List.mem_singleton.mp new] at same
        exact both.1 (same ▸ held)
      · exact ok.once i hi
    · exact (ok.once i hi).filter _
  apart := by
    intro i hi j hj rxq memI memJ
    rcases mem_setThread ok hi memI with ⟨heldI, ownI⟩ | ⟨rfl, atI⟩
    · rcases mem_setThread ok hj memJ with ⟨heldJ, -⟩ | ⟨rfl, atJ⟩
      · exact ok.apart i hi j hj rxq heldI heldJ
      · rw [ownI rfl, atJ]
    · rcases mem_setThread ok hj memJ with ⟨-, ownJ⟩ | ⟨-, atJ⟩
      · rw [atI, ownJ rfl]
      · rw [atI, atJ]
  room := by
    intro i hi
    rw [setThread_eq ok c hi]
    split
    · split
      · rename_i both
        rw [List.length_append, List.length_singleton]
        exact both.2
      · exact ok.room i hi
    · exact (List.length_filter_le _ _).trans (ok.room i hi)

theorem TableReachable.ok {t : ThreadQconf} (reachable : TableReachable t) : TableOk t := by
  induction reachable with
  | init =>
      refine ⟨fun _ _ => List.nodup_nil, ?_, fun _ _ => Nat.zero_le _⟩
      intro i _ j _ rxq mem
      exact absurd mem List.not_mem_nil
  | setThread c _ _ ih => exact ih.setThread c

/-- Every queue is in the table once at most, and every list has its size. -/
theorem threadQconf_once {t : ThreadQconf} (reachable : TableReachable t) :
    (∀ rxq, ((List.range rteMaxLcore).flatMap t).count rxq ≤ 1) ∧
      ∀ i < rteMaxLcore, (t i).length ≤ maxRxQueuePerLcore := by
  have ok := reachable.ok
  refine ⟨?_, ok.room⟩
  rw [← List.nodup_iff_count_le_one, List.nodup_flatMap]
  refine ⟨fun i mem => ok.once i (List.mem_range.mp mem), ?_⟩
  refine List.Pairwise.imp_of_mem ?_ (List.nodup_range (n := rteMaxLcore))
  intro i j hi hj other rxq memI memJ
  exact other (ok.apart i (List.mem_range.mp hi) j (List.mem_range.mp hj) rxq memI memJ)

theorem threadQconf_once_first :
    (∀ rxq, ((List.range rteMaxLcore).flatMap firstTable).count rxq ≤ 1) ∧
      ∀ i < rteMaxLcore, (firstTable i).length ≤ maxRxQueuePerLcore :=
  threadQconf_once (.setThread firstCommand .init (by decide))

/-! ## What a command may lose -/

/-- The queue is on the lcore it was assigned to and every other one where it was, or the
    lcore is full and the table as it was. -/
def NothingDropped (t : ThreadQconf) (c : SetThread) : Prop :=
  (c.rxq ∈ setThreadLcorePortQueue t c c.lcoreId ∧
      ∀ i < rteMaxLcore, (setThreadLcorePortQueue t c i).filter (· ≠ c.rxq) =
        (t i).filter (· ≠ c.rxq)) ∨
    ((t c.lcoreId).length = maxRxQueuePerLcore ∧
      ∀ i < rteMaxLcore, setThreadLcorePortQueue t c i = t i)

/-- The other queues stay where they are in any case. -/
theorem setThread_others {t : ThreadQconf} (ok : TableOk t) (c : SetThread) {i : Nat}
    (inside : i < rteMaxLcore) :
    (setThreadLcorePortQueue t c i).filter (· ≠ c.rxq) = (t i).filter (· ≠ c.rxq) := by
  rw [setThread_eq ok c inside]
  split
  · split
    · simp
    · rfl
  · rw [List.filter_filter]
    simp

/-- A command drops nothing just when the lcore has the queue already, or has room, or no
    lcore has the queue. -/
theorem nothingDropped_iff {t : ThreadQconf} (reachable : TableReachable t) {c : SetThread}
    (lcore : c.lcoreId < rteMaxLcore) :
    NothingDropped t c ↔ c.rxq ∈ t c.lcoreId ∨ (t c.lcoreId).length < maxRxQueuePerLcore ∨
      ∀ i < rteMaxLcore, c.rxq ∉ t i := by
  have ok := reachable.ok
  have own := setThread_eq ok c lcore
  rw [if_pos rfl] at own
  constructor
  · intro kept
    by_contra lost
    rw [not_or, not_or, not_lt] at lost
    obtain ⟨away, full, somewhere⟩ := lost
    push Not at somewhere
    obtain ⟨i, inside, held⟩ := somewhere
    rw [if_neg fun both => absurd both.2 (Nat.not_lt.mpr full)] at own
    rcases kept with ⟨assigned, -⟩ | ⟨-, same⟩
    · exact away (own ▸ assigned)
    · have elsewhere : i ≠ c.lcoreId := fun here => away (here ▸ held)
      have gone := same i inside
      rw [setThread_eq ok c inside, if_neg elsewhere] at gone
      rw [← gone] at held
      exact of_decide_eq_true (List.mem_filter.mp held).2 rfl
  · intro fits
    have others := fun i inside => setThread_others ok c (i := i) inside
    by_cases held : c.rxq ∈ t c.lcoreId
    · rw [if_neg fun both => both.1 held] at own
      exact .inl ⟨own ▸ held, others⟩
    · by_cases free : (t c.lcoreId).length < maxRxQueuePerLcore
      · rw [if_pos ⟨held, free⟩] at own
        exact .inl ⟨own ▸ List.mem_append_right _ List.mem_cons_self, others⟩
      · have nowhere := (fits.resolve_left held).resolve_left free
        refine .inr ⟨Nat.le_antisymm (ok.room _ lcore) (Nat.not_lt.mp free), ?_⟩
        intro i inside
        rw [setThread_eq ok c inside]
        split
        · rename_i here
          rw [if_neg fun both => free (here ▸ both.2)]
        · rw [List.filter_eq_self]
          exact fun rxq mem => decide_eq_true fun same => nowhere i inside (same ▸ mem)

/-- The table after some commands. -/
def tableAfter (commands : List SetThread) : ThreadQconf :=
  commands.foldl setThreadLcorePortQueue fun _ => []

theorem tableAfter_reachable {commands : List SetThread}
    (lcores : ∀ c ∈ commands, c.lcoreId < rteMaxLcore) : TableReachable (tableAfter commands) := by
  induction commands using List.reverseRecOn with
  | nil => exact .init
  | append_singleton commands c ih =>
      rw [tableAfter, List.foldl_append]
      exact .setThread c (ih fun other there => lcores other (List.mem_append_left _ there))
        (lcores c (List.mem_append_right _ List.mem_cons_self))

/-- Sixteen queues of port 0 on lcore 1, and one more on lcore 2. -/
def fullCommands : List SetThread :=
  (List.range maxRxQueuePerLcore).map (⟨1, 0, ·⟩) ++ [⟨2, 0, maxRxQueuePerLcore⟩]

theorem fullTable_reachable : TableReachable (tableAfter fullCommands) :=
  tableAfter_reachable (by decide)

/-- `set thread 1 port 0 queue 16` takes the queue off lcore 2 and puts it nowhere. -/
theorem nothingDropped_not :
    TableReachable (tableAfter fullCommands) ∧
      ¬ NothingDropped (tableAfter fullCommands) ⟨1, 0, maxRxQueuePerLcore⟩ := by
  refine ⟨fullTable_reachable, ?_⟩
  rintro (⟨assigned, -⟩ | ⟨-, same⟩)
  · revert assigned
    decide
  · have gone := same 2 (by decide)
    revert gone
    decide

theorem nothingDropped_full :
    NothingDropped (tableAfter fullCommands) ⟨1, 0, maxRxQueuePerLcore⟩ ↔
      (⟨0, maxRxQueuePerLcore⟩ : PortQueueConf) ∈ tableAfter fullCommands 1 ∨
        (tableAfter fullCommands 1).length < maxRxQueuePerLcore ∨
        ∀ i < rteMaxLcore, (⟨0, maxRxQueuePerLcore⟩ : PortQueueConf) ∉ tableAfter fullCommands i :=
  nothingDropped_iff fullTable_reachable (by decide)

end Sdplane
