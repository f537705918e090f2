import Sdplane.Rib.Manager

/-!
# Workers and the RIB manager

The worker threads (`l2_repeater.c:251-276`, `nettlp.c:789-808`) take the published rib,
poll the queues it gives their lcore, and become quiescent. Interleaved with them the RIB
manager processes any sequence of messages.
-/

namespace Sdplane

open Qsbr

/-! ## Assignments -/

/-- `r` assigns no lcore a queue that `p` does not. -/
def RibWithin (p r : Option Rib) : Prop :=
  ∀ lcore, ∀ rxq ∈ ribQueues r lcore, rxq ∈ ribQueues p lcore

theorem RibWithin.refl (p : Option Rib) : RibWithin p p := fun _ _ h => h

theorem RibWithin.of_empty {r : Option Rib} (p : Option Rib)
    (empty : ∀ lcore, ribQueues r lcore = []) : RibWithin p r := by
  intro lcore rxq mem
  rw [empty lcore] at mem
  cases mem

theorem RibWithin.trans {p r r' : Option Rib} (h : RibWithin p r) (h' : RibWithin r r') :
    RibWithin p r' :=
  fun lcore rxq mem => h lcore rxq (h' lcore rxq mem)

/-- No two lcores that run workers get the same queue. -/
def RibExclusive (d : Dpdk) (p : Option Rib) : Prop :=
  ∀ i < d.lcoreCount, ∀ j < d.lcoreCount, i ≠ j →
    ∀ rxq ∈ ribQueues p i, rxq ∉ ribQueues p j

theorem wellAssigned_nodup {qconf : List PortQueueConf} (h : WellAssigned qconf) :
    qconf.Nodup := by
  rw [List.nodup_iff_count_le_one]
  intro rxq
  obtain ⟨k, perm⟩ := h rxq.portId
  have ids : (queueIds rxq.portId qconf).Nodup := perm.nodup_iff.mpr List.nodup_range
  have entries := List.Nodup.of_map _ ids
  rw [← List.count_filter (p := fun x => decide (x.portId = rxq.portId)) (by simp)]
  exact List.nodup_iff_count_le_one.mp entries rxq

/-- What `rib_check` accepts gives every queue to one lcore. -/
theorem ribExclusive_of_ribCheck (d : Dpdk) {info : RibInfo}
    (size : info.lcoreSize.toNat = d.lcoreCount) (accepted : (ribCheck info).isSome) :
    RibExclusive d (some ⟨some info⟩) := by
  have nodup := wellAssigned_nodup ((ribCheck_isSome_iff info).mp accepted)
  rw [portQconf, size, List.nodup_flatMap] at nodup
  have disjoint : ∀ i j, i < j → j < d.lcoreCount →
      List.Disjoint (info.lcoreQconf i) (info.lcoreQconf j) := by
    intro i j lt hj
    have := List.pairwise_iff_getElem.mp nodup.2 i j (by simp; omega) (by simpa using hj) lt
    simpa using this
  intro i hi j hj ne rxq mem mem'
  rcases Nat.lt_or_gt_of_ne ne with lt | gt
  · exact disjoint i j lt hj mem mem'
  · exact disjoint j i gt hi mem' mem

theorem RibExclusive.of_within {d : Dpdk} {p r : Option Rib} (h : RibExclusive d p)
    (within : RibWithin p r) : RibExclusive d r :=
  fun i hi j hj ne rxq mem mem' => h i hi j hj ne rxq (within i rxq mem) (within j rxq mem')

/-! ## Epochs of the manager -/

section
variable (d : Dpdk) (quiet : Option Rib → Prop)

/-- Between messages, whatever may be held is within the published rib. -/
def RibIdle (E : Set (Option Rib)) (p : Option Rib) : Prop :=
  (∀ r ∈ E, RibWithin p r) ∧ RibExclusive d p

/-- All that may be held is within one exclusive assignment. -/
def RibCompatible (E : Set (Option Rib)) : Prop :=
  ∃ p, (∀ r ∈ E, RibWithin p r) ∧ RibExclusive d p

/-- What may be held is compatible at every action. Device operations touch available
    ports only, and find whatever may be held within the published rib, which is `quiet`. -/
def RibSafe (E : Set (Option Rib)) (p : Option Rib) (act : ManagerAct) : Prop :=
  RibCompatible d E ∧ ∀ op, act = .other (.dev op) →
    (∀ r ∈ E, RibWithin p r) ∧ quiet p ∧
      ∀ port, op.reconfigures = some port → port < d.nbPorts

variable {d quiet}

theorem RibIdle.compatible {E : Set (Option Rib)} {p : Option Rib} (h : RibIdle d E p) :
    RibCompatible d E := ⟨p, h⟩

theorem RibCompatible.safe {E : Set (Option Rib)} (h : RibCompatible d E) (p : Option Rib)
    {act : ManagerAct} (notDev : ∀ op, act ≠ .other (.dev op)) : RibSafe d quiet E p act :=
  ⟨h, fun op same => absurd same (notDev op)⟩

theorem ribDelete_not_dev (old : Rib) : ∀ act ∈ ribDelete old, ∀ op, act ≠ .other (.dev op) := by
  intro act mem op same
  subst same
  rw [ribDelete] at mem
  split at mem <;> simp at mem

/-- Whatever is pending, what may be held is compatible. -/
theorem compatible_of_safe {E : Set (Option Rib)} {p : Option Rib} {k : List ManagerAct}
    (safe : Safe (RibIdle d) (RibSafe d quiet) E p k) : RibCompatible d E := by
  match k with
  | [] => exact RibIdle.compatible safe
  | .assign _ :: _ => exact safe.1.1
  | .synchronize :: _ => exact safe.1.1
  | .other _ :: _ => exact safe.1.1

/-- One publication. With no rib to reclaim there is no grace period, and then what was
    held before must be within the new rib already. -/
theorem safe_ribReplace {E : Set (Option Rib)} {old p : Option Rib} {new : Rib}
    {k : List ManagerAct} (first : old = none → ∀ r ∈ E, RibWithin (some new) r)
    (cover : RibCompatible d (insert (some new) E))
    (rest : ∀ E', (∀ r ∈ E', RibWithin (some new) r) →
      Safe (RibIdle d) (RibSafe d quiet) E' (some new) k) :
    Safe (RibIdle d) (RibSafe d quiet) E p (ribReplace old new ++ k) := by
  obtain ⟨q, within, exclusive⟩ := cover
  have before : RibCompatible d E :=
    ⟨q, fun r mem => within r (Set.mem_insert_of_mem _ mem), exclusive⟩
  have newWithin := within _ (Set.mem_insert _ _)
  cases old with
  | none =>
      refine ⟨before.safe p fun _ => by simp, rest _ ?_⟩
      intro r mem
      rcases Set.mem_insert_iff.mp mem with rfl | mem
      · exact RibWithin.refl _
      · exact first rfl r mem
  | some old =>
      have alone : RibCompatible d {some new} :=
        ⟨q, fun r mem => Set.mem_singleton_iff.mp mem ▸ newWithin, exclusive⟩
      have after := rest {some new} fun r mem => Set.mem_singleton_iff.mp mem ▸ RibWithin.refl _
      refine ⟨before.safe p fun _ => by simp,
        RibCompatible.safe ⟨q, within, exclusive⟩ _ fun _ => by simp, ?_⟩
      refine safe_others_append (fun act mem => ⟨ribDelete_own old act mem, ?_⟩) after
      exact alone.safe _ (ribDelete_not_dev old act mem)

/-- With nothing published there is nothing to reclaim, and nobody has a queue. -/
theorem RibIdle.within_of_none {E : Set (Option Rib)} {p : Option Rib} (idle : RibIdle d E p)
    (new : Rib) : p = none → ∀ r ∈ E, RibWithin (some new) r := by
  rintro rfl r mem
  exact (RibWithin.of_empty (some new) fun _ => rfl).trans (idle.1 r mem)

/-- A rib within the published one is compatible with whatever may be held. -/
theorem RibIdle.compatible_insert {E : Set (Option Rib)} {p : Option Rib} (idle : RibIdle d E p)
    {new : Rib} (newWithin : RibWithin p (some new)) : RibCompatible d (insert (some new) E) := by
  refine ⟨p, ?_, idle.2⟩
  intro r mem
  rcases Set.mem_insert_iff.mp mem with rfl | mem
  · exact newWithin
  · exact idle.1 r mem

/-- An update that assigns no new queue needs one publication only. -/
theorem safe_update {E : Set (Option Rib)} {p : Option Rib} (idle : RibIdle d E p) {new : Rib}
    (newWithin : RibWithin p (some new)) :
    Safe (RibIdle d) (RibSafe d quiet) E p (.other .freeMsg :: ribReplace p new) := by
  refine ⟨idle.compatible.safe p fun _ => by simp, ?_⟩
  rw [← List.append_nil (ribReplace p new)]
  exact safe_ribReplace (idle.within_of_none new) (idle.compatible_insert newWithin)
    fun E' inside => ⟨inside, idle.2.of_within newWithin⟩

/-- The reconfiguration of a queue change runs before anything is published. -/
theorem safe_devOps {E : Set (Option Rib)} {p : Option Rib} (idle : RibIdle d E p)
    (calm : quiet p) {ops : List DevOp}
    (available : ∀ op ∈ ops, ∀ port, op.reconfigures = some port → port < d.nbPorts) :
    ∀ act ∈ (ops.map fun op => .other (.dev op) : List ManagerAct),
      (∃ a, act = .other a) ∧ RibSafe d quiet E p act := by
  intro act mem
  obtain ⟨op, opMem, rfl⟩ := List.mem_map.mp mem
  refine ⟨⟨_, rfl⟩, idle.compatible, ?_⟩
  rintro op' same
  cases same
  exact ⟨idle.1, calm, available op opMem⟩

/-- A queue change publishes a rib without queues first. After the grace period for it nobody
    holds a queue, so that the new rib need not go together with the old one. -/
theorem safe_queueChange {E : Set (Option Rib)} {p : Option Rib} (idle : RibIdle d E p)
    {new : Rib} (newExclusive : RibExclusive d (some new)) :
    Safe (RibIdle d) (RibSafe d quiet) E p
      (ribReplace p zeroRib ++ (.other .freeMsg :: ribReplace (some zeroRib) new)) := by
  have zeroWithin : ∀ q, RibWithin q (some zeroRib) := fun q =>
    RibWithin.of_empty q fun _ => rfl
  refine safe_ribReplace (idle.within_of_none zeroRib) (idle.compatible_insert (zeroWithin p))
    fun E₁ inZero => ?_
  have inNew : ∀ r ∈ E₁, RibWithin (some new) r :=
    fun r mem => (zeroWithin _).trans (inZero r mem)
  refine ⟨RibCompatible.safe ⟨_, inNew, newExclusive⟩ _ fun _ => by simp, ?_⟩
  rw [← List.append_nil (ribReplace (some zeroRib) _)]
  refine safe_ribReplace (fun never => absurd never (Option.some_ne_none _))
    ⟨_, ?_, newExclusive⟩ fun E' inside => ⟨inside, newExclusive⟩
  intro r mem
  rcases Set.mem_insert_iff.mp mem with rfl | mem
  · exact RibWithin.refl _
  · exact inNew r mem

/-- The actions for a message are safe from every idle epoch on. -/
theorem ribManagerProcessMessage_safe {E : Set (Option Rib)} {p : Option Rib} (msg : RibMsg)
    (idle : RibIdle d E p)
    (calm : msg.isQconf = true → (ribCheck (ribInfoFor d msg p)).isSome → quiet p) :
    Safe (RibIdle d) (RibSafe d quiet) E p (ribManagerProcessMessage d msg p) := by
  have own : ∀ a, (∀ op, a ≠ .dev op) → RibSafe d quiet E p (.other a) := by
    intro a notDev
    exact idle.compatible.safe p fun op same => notDev op (Act.other.inj same)
  have allocRib := own .allocRib (by simp)
  have allocRibInfo := own .allocRibInfo (by simp)
  rw [ribManagerProcessMessage]
  cases kind : msg.isQconf with
  | false =>
      simp only [Bool.false_eq_true, if_false, List.cons_append, List.nil_append]
      have sameQueues : RibWithin p (some ⟨some (ribInfoFor d msg p)⟩) := by
        intro lcore rxq mem
        rw [ribQueues_some, ribInfoFor_lcoreQconf d p kind] at mem
        exact mem
      exact ⟨allocRib, allocRibInfo, safe_update idle sameQueues⟩
  | true =>
      cases checked : ribCheck (ribInfoFor d msg p) with
      | none => exact ⟨allocRib, allocRibInfo, idle⟩
      | some nrxq =>
          have accepted : (ribCheck (ribInfoFor d msg p)).isSome := by rw [checked]; rfl
          have exclusive := ribExclusive_of_ribCheck d (ribInfoFor_lcoreSize d p kind) accepted
          have ops := safe_devOps idle (calm kind accepted) fun op mem port touched =>
            ribCheckOps_reconfigures d (ribInfoFor d msg p) nrxq mem touched
          simp only [if_true, List.append_assoc, List.cons_append, List.nil_append]
          exact ⟨allocRib, allocRibInfo,
            safe_others_append ops ⟨allocRib, safe_queueChange idle exclusive⟩⟩

end

/-! ## All interleavings -/

/-- The RIB manager among the workers `W`. -/
abbrev RibSystem (W : Type) := System W (Option Rib) RibAct

section
variable {W : Type} [DecidableEq W] {d : Dpdk} {lcore : W → Nat}

theorem ribIdle_none (d : Dpdk) : RibIdle d {none} none :=
  ⟨fun _ mem => Set.mem_singleton_iff.mp mem ▸ RibWithin.refl _,
    fun _ _ _ _ _ _ mem => absurd mem List.not_mem_nil⟩

/-- The first message, processed before any worker registers. -/
theorem reachable_first (allowed : RibMsg → Option Rib → Prop) {msg : RibMsg}
    (ok : allowed msg none) (accepted : (ribCheck (ribInfoFor d msg none)).isSome) :
    ∃ s : State W (Option Rib), Reachable (ribManagerProcessMessage d) allowed none ⟨s, []⟩ ∧
      s.published = some ⟨some (ribInfoFor d msg none)⟩ ∧ ∀ w, s.reader w = .offline := by
  have start : Reachable (ribManagerProcessMessage d) allowed none
    (System.init none : RibSystem W) := .init
  have received := start.step (.receive _ msg ok)
  obtain ⟨s, reachable, published, offline⟩ := received.drain (fun _ => rfl) (fun _ => id)
  refine ⟨s, reachable, ?_, offline⟩
  rw [published]
  change publishedAfter (ribManagerProcessMessage d msg none) none = _
  rw [publishedAfter_ribManagerProcessMessage, accepted]
  simp

/-- Two workers on different lcores never hold snapshots that assign them the same queue. -/
theorem rxQueue_exclusive (below : ∀ w, lcore w < d.lcoreCount) {x : RibSystem W}
    (reachable : Reachable (ribManagerProcessMessage d) (fun _ _ => True) none x)
    {w w' : W} (apart : lcore w ≠ lcore w') {r r' : Option Rib}
    (holds : x.state.reader w = .reading r) (holds' : x.state.reader w' = .reading r')
    {rxq : PortQueueConf} (mem : rxq ∈ ribQueues r (lcore w)) :
    rxq ∉ ribQueues r' (lcore w') := by
  obtain ⟨E, covered, rest⟩ := reachable.epoch (ribIdle_none d)
    fun E p msg _ idle _ => ribManagerProcessMessage_safe msg idle fun _ _ => True.intro
  obtain ⟨p, within, exclusive⟩ := compatible_of_safe rest
  intro mem'
  exact exclusive _ (below w) _ (below w') apart rxq
    (within r (covered.held w r holds) _ rxq mem)
    (within r' (covered.held w' r' holds') _ rxq mem')

/-- A queue change that will be accepted is taken up only while no worker polls an
    available port. -/
def QconfUnpolled (d : Dpdk) (lcore : W → Nat) (msg : RibMsg) (p : Option Rib) : Prop :=
  msg.isQconf = true → (ribCheck (ribInfoFor d msg p)).isSome →
    ∀ w, ∀ rxq ∈ ribQueues p (lcore w), ¬ rxq.portId < d.nbPorts

/-- In every run in which queue changes are accepted only while no worker polls an
    available port, no worker holds a queue of a port that is stopped or reconfigured. -/
theorem devOp_unheld {x : RibSystem W}
    (reachable : Reachable (ribManagerProcessMessage d) (QconfUnpolled d lcore) none x)
    {op : DevOp} {k : List ManagerAct} (next : x.pending = .other (.dev op) :: k)
    {port : Nat} (touched : op.reconfigures = some port) {w : W} {r : Option Rib}
    (holds : x.state.reader w = .reading r) :
    ∀ rxq ∈ ribQueues r (lcore w), rxq.portId ≠ port := by
  obtain ⟨E, covered, rest⟩ := reachable.epoch (ribIdle_none d)
    fun E p msg _ idle unpolled => ribManagerProcessMessage_safe msg idle unpolled
  rw [next] at rest
  obtain ⟨within, unpolled, available⟩ := rest.1.2 op rfl
  rintro rxq mem rfl
  exact unpolled w rxq (within r (covered.held w r holds) _ rxq mem) (available _ touched)

/-- An accepted queue change stops every available port, with all readers where they were
    when it was taken up. -/
theorem devStop_reached {allowed : RibMsg → Option Rib → Prop} {s : State W (Option Rib)}
    (reachable : Reachable (ribManagerProcessMessage d) allowed none ⟨s, []⟩) {msg : RibMsg}
    (ok : allowed msg s.published) (kind : msg.isQconf = true)
    (accepted : (ribCheck (ribInfoFor d msg s.published)).isSome) {port : Nat}
    (available : port < d.nbPorts) :
    ∃ k, Reachable (ribManagerProcessMessage d) allowed none
      ⟨s, .other (.dev (.devStop port)) :: k⟩ := by
  have received := reachable.step (.receive s msg ok)
  rw [ribManagerProcessMessage, if_pos kind] at received
  obtain ⟨nrxq, checked⟩ := Option.isSome_iff_exists.mp accepted
  have stops : DevOp.devStop port ∈ ribCheckOps d (ribInfoFor d msg s.published) nrxq := by
    rw [ribCheckOps, List.mem_append, List.mem_flatMap]
    exact Or.inl ⟨port, List.mem_range.mpr available, by simp [portOps]⟩
  obtain ⟨before, after, split⟩ := List.append_of_mem stops
  simp only [checked, split, List.map_append, List.map_cons, List.append_assoc,
    List.cons_append, List.nil_append] at received
  have created := (received.step (.other s _ _)).step (.other s _ _)
  refine ⟨_, created.others ?_⟩
  intro act actMem
  obtain ⟨op, -, rfl⟩ := List.mem_map.mp actMem
  exact ⟨_, rfl⟩

/-- Wherever a queue change is accepted while a worker polls an available port, some
    interleaving stops that port while the worker holds a queue of it. -/
theorem devStop_held {allowed : RibMsg → Option Rib → Prop} {s : State W (Option Rib)}
    (reachable : Reachable (ribManagerProcessMessage d) allowed none ⟨s, []⟩) {msg : RibMsg}
    (ok : allowed msg s.published) (kind : msg.isQconf = true)
    (accepted : (ribCheck (ribInfoFor d msg s.published)).isSome) {w : W} {rxq : PortQueueConf}
    (mem : rxq ∈ ribQueues s.published (lcore w)) (available : rxq.portId < d.nbPorts) :
    ∃ (x : RibSystem W) (k : List ManagerAct) (r : Option Rib),
      Reachable (ribManagerProcessMessage d) allowed none x ∧
      x.pending = .other (.dev (.devStop rxq.portId)) :: k ∧
      x.state.reader w = .reading r ∧ rxq ∈ ribQueues r (lcore w) := by
  obtain ⟨s', taken, published, holds, -⟩ := reachable.takes w
  rw [← published] at ok accepted
  obtain ⟨k, stopped⟩ := devStop_reached taken ok kind accepted available
  exact ⟨⟨s', _⟩, k, s.published, stopped, rfl, holds, mem⟩

end

/-! ## Concrete interleavings -/

/-- One queue for each of lcores 1 and 2. -/
def splitQconf (port : Nat) : Nat → List PortQueueConf
  | 1 => [⟨port, 0⟩]
  | 2 => [⟨port, 1⟩]
  | _ => []

/-- Two workers, on lcores 1 and 2. -/
def workerLcore (w : Fin 2) : Nat := w.val + 1

theorem splitQconf_accepted :
    (ribCheck (ribInfoFor onePort (.qconf (splitQconf 0)) none)).isSome := by decide

theorem rxQueue_exclusive_split :
    ∃ (x : RibSystem (Fin 2)) (r r' : Option Rib),
      x.state.reader 0 = .reading r ∧ x.state.reader 1 = .reading r' ∧
        ⟨0, 0⟩ ∈ ribQueues r 1 ∧ ⟨0, 0⟩ ∉ ribQueues r' 2 := by
  obtain ⟨s, reachable, published, -⟩ :=
    reachable_first (W := Fin 2) (fun _ _ => True) True.intro splitQconf_accepted
  obtain ⟨s₁, reachable₁, published₁, holds₁, -⟩ := reachable.takes 0
  obtain ⟨s₂, reachable₂, -, holds₂, others⟩ := reachable₁.takes 1
  rw [← others 0 (by decide)] at holds₁
  have polled : (⟨0, 0⟩ : PortQueueConf) ∈ ribQueues s.published (workerLcore 0) := by
    rw [published]
    decide
  have below : ∀ w, workerLcore w < onePort.lcoreCount := by decide
  have apart : workerLcore 0 ≠ workerLcore 1 := by decide
  exact ⟨⟨s₂, []⟩, _, _, holds₁, holds₂, polled,
    rxQueue_exclusive below reachable₂ apart holds₁ holds₂ polled⟩

/-- The worker polls a port that is not available while port 0 is stopped. -/
theorem devOp_unheld_otherPort :
    ∃ (x : RibSystem (Fin 2)) (k : List ManagerAct) (r : Option Rib),
      x.pending = .other (.dev (.devStop 0)) :: k ∧ x.state.reader 0 = .reading r ∧
        ribQueues r 1 ≠ [] ∧ ∀ rxq ∈ ribQueues r 1, rxq.portId ≠ 0 := by
  have first : QconfUnpolled onePort workerLcore (.qconf (splitQconf 5)) none :=
    fun _ _ _ _ mem => absurd mem List.not_mem_nil
  have accepted : (ribCheck (ribInfoFor onePort (.qconf (splitQconf 5)) none)).isSome := by decide
  obtain ⟨s, reachable, published, -⟩ := reachable_first (W := Fin 2) _ first accepted
  obtain ⟨s₁, taken, published₁, holds, -⟩ := reachable.takes 0
  rw [published] at published₁ holds
  have again : QconfUnpolled onePort workerLcore (.qconf (splitQconf 5)) s₁.published := by
    rw [published₁]
    intro _ _
    decide
  have againAccepted :
      (ribCheck (ribInfoFor onePort (.qconf (splitQconf 5)) s₁.published)).isSome := by
    rw [published₁]
    decide
  have available : 0 < onePort.nbPorts := by decide
  obtain ⟨k, stopped⟩ := devStop_reached taken again rfl againAccepted available
  have polls :
      ribQueues (some ⟨some (ribInfoFor onePort (.qconf (splitQconf 5)) none)⟩) 1 ≠ [] := by
    decide
  exact ⟨⟨s₁, _⟩, k, _, rfl, holds, polls, devOp_unheld stopped rfl rfl holds⟩

/-- With one worker that polls port 0, a second queue change stops the port under it. -/
theorem devOp_held :
    ¬ ∀ (d : Dpdk) (lcore : Fin 2 → Nat) (x : RibSystem (Fin 2)),
      Reachable (ribManagerProcessMessage d) (fun _ _ => True) none x →
      ∀ op k port w r, x.pending = .other (.dev op) :: k → op.reconfigures = some port →
        x.state.reader w = .reading r → ∀ rxq ∈ ribQueues r (lcore w), rxq.portId ≠ port := by
  intro unheld
  obtain ⟨s, reachable, published, -⟩ :=
    reachable_first (W := Fin 2) (fun _ _ => True) True.intro splitQconf_accepted
  have again : (ribCheck (ribInfoFor onePort (.qconf (splitQconf 0)) s.published)).isSome := by
    rw [published]
    decide
  have polled : (⟨0, 0⟩ : PortQueueConf) ∈ ribQueues s.published (workerLcore 0) := by
    rw [published]
    decide
  obtain ⟨x, k, r, held, next, holds, mem⟩ :=
    devStop_held reachable True.intro rfl again polled (by decide)
  exact unheld onePort workerLcore x held _ k 0 0 r next rfl holds ⟨0, 0⟩ mem rfl

end Sdplane
