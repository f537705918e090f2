import Sdplane.Rib.SharedRibs
import Sdplane.Rib.Workers

/-!
# What a worker finds behind the rib it holds

Through every interleaving of the RIB manager with the workers (`l2_repeater.c:251-276` for one of
them), a rib a worker holds is allocated with its `rib_info`, stays as it was read, and has its
rings and tx buffers.
-/

namespace Sdplane

open Qsbr

/-! ## Usable ribs -/

/-- The rings of all queues are there, and the tx buffers of the lcores that have queues. -/
structure Prepared (d : Dpdk) (o : RibMemory) (info : RibInfo) : Prop where
  rings : ∀ lcore < rteMaxLcore, ∀ rxq ∈ info.lcoreQconf lcore,
    o.ringUp rxq.portId rxq.queueId = true ∧ o.ringDn rxq.portId rxq.queueId = true
  buffers : ∀ lcore < d.lcoreCount, info.lcoreQconf lcore ≠ [] → ∀ port < d.nbPorts,
    o.txBuffer port lcore = true

/-- The rib at an address is allocated; if it has a `rib_info`, then so is that, with its rings
    and tx buffers. -/
def UsableAt (d : Dpdk) (o : RibMemory) (a : Nat) : Prop :=
  ∃ info, o.ribs a = some info ∧
    ∀ q, info = some q → ∃ content, o.infos q = some content ∧ Prepared d o content

/-- A pointer a worker may hold. -/
def Usable (d : Dpdk) (o : RibMemory) (r : Option Nat) : Prop := ∀ a, r = some a → UsableAt d o a

/-- No two ribs share a `rib_info`, and none has one that is freed. -/
structure RibMemory.Separate (o : RibMemory) : Prop where
  apart : ∀ a b q, o.ribs a = some (some q) → o.ribs b = some (some q) → a = b
  whole : ∀ a q, o.ribs a = some (some q) → (o.infos q).isSome = true

/-- The memory is separate and the pointers are usable. -/
structure Intact (d : Dpdk) (F : Set (Option Nat)) (o : RibMemory) : Prop where
  separate : o.Separate
  usable : ∀ r ∈ F, Usable d o r

/-- What is behind the pointers stays. -/
def SameBehind (F : Set (Option Nat)) (o o' : RibMemory) : Prop := ∀ r ∈ F, o'.deref r = o.deref r

/-- An action may be next while workers hold pointers of `E`. -/
def SharedSafe (d : Dpdk) (E : Set (Option Nat)) (_ : Option Nat) (o : RibMemory)
    (act : SharedAct) : Prop :=
  Intact d E o ∧ ∀ a, act = .other a → SameBehind E o (RibMemory.exec a o)

/-- Between messages. -/
def SharedIdle (d : Dpdk) (E : Set (Option Nat)) (_ : Option Nat) (o : RibMemory) : Prop :=
  Intact d E o

section
variable {d : Dpdk} {E F : Set (Option Nat)} {o : RibMemory}

theorem Intact.mono (intact : Intact d F o) (sub : E ⊆ F) : Intact d E o :=
  ⟨intact.separate, fun r mem => intact.usable r (sub mem)⟩

theorem SameBehind.mono {o' : RibMemory} (same : SameBehind F o o') (sub : E ⊆ F) :
    SameBehind E o o' := fun r mem => same r (sub mem)

theorem Intact.insert (intact : Intact d F o) {a : Nat} (usable : UsableAt d o a) :
    Intact d (insert (some a) F) o := by
  refine ⟨intact.separate, ?_⟩
  rintro r (rfl | mem)
  · intro b same
    cases same
    exact usable
  · exact intact.usable r mem

/-- Only the queues matter. -/
theorem Prepared.congr {info info' : RibInfo} (prepared : Prepared d o info)
    (same : ∀ lcore, info'.lcoreQconf lcore = info.lcoreQconf lcore) : Prepared d o info' where
  rings := fun lcore lt rxq mem => prepared.rings lcore lt rxq (same lcore ▸ mem)
  buffers := fun lcore lt some => prepared.buffers lcore lt (same lcore ▸ some)

/-- A pointer to what is not allocated is held by nobody. -/
theorem Intact.ne_of_fresh (intact : Intact d F o) {a : Nat} (fresh : o.ribs a = none) {b : Nat}
    (mem : some b ∈ F) : b ≠ a := by
  rintro rfl
  obtain ⟨info, alloc, -⟩ := intact.usable _ mem b rfl
  rw [fresh] at alloc
  cases alloc

/-! ## What each action keeps -/

/-- A pointer keeps its use and what is behind it, when neither its rib nor the `rib_info` of that
    is touched. -/
theorem usableAt_frame {o' : RibMemory} {a : Nat} (usable : UsableAt d o a)
    (rib : o'.ribs a = o.ribs a) (info : ∀ q, o.ribs a = some (some q) → o'.infos q = o.infos q)
    (prepared : ∀ content, Prepared d o content → Prepared d o' content) :
    UsableAt d o' a ∧ o'.deref (some a) = o.deref (some a) := by
  obtain ⟨i, alloc, content⟩ := usable
  constructor
  · refine ⟨i, rib.trans alloc, ?_⟩
    rintro q rfl
    obtain ⟨c, found, ready⟩ := content q rfl
    exact ⟨c, (info q alloc).trans found, prepared c ready⟩
  · simp only [RibMemory.deref, Option.bind_some, rib, alloc, Option.map_some]
    cases i with
    | none => rfl
    | some q => simp only [Option.bind_some, info q alloc]

/-- The same for all pointers held. -/
theorem intact_frame {o' : RibMemory} (intact : Intact d F o) (separate : o'.Separate)
    (rib : ∀ a, some a ∈ F → o'.ribs a = o.ribs a)
    (info : ∀ a q, some a ∈ F → o.ribs a = some (some q) → o'.infos q = o.infos q)
    (prepared : ∀ content, Prepared d o content → Prepared d o' content) :
    Intact d F o' ∧ SameBehind F o o' := by
  constructor
  · refine ⟨separate, ?_⟩
    rintro r mem a rfl
    exact (usableAt_frame (intact.usable _ mem a rfl) (rib a mem) (info a · mem) prepared).1
  · intro r mem
    cases r with
    | none => rfl
    | some a =>
        exact (usableAt_frame (intact.usable _ mem a rfl) (rib a mem) (info a · mem) prepared).2

/-- `malloc (sizeof (struct rib))`. -/
theorem Intact.allocRib (intact : Intact d F o) {a : Nat} (fresh : o.ribs a = none) :
    Intact d F (RibMemory.exec (.allocRib a) o) ∧
      SameBehind F o (RibMemory.exec (.allocRib a) o) := by
  have elsewhere : ∀ b, b ≠ a → (RibMemory.exec (.allocRib a) o).ribs b = o.ribs b :=
    fun b ne => Function.update_of_ne ne _ _
  have here : (RibMemory.exec (.allocRib a) o).ribs a = some none := Function.update_self _ _ _
  have before : ∀ b q, (RibMemory.exec (.allocRib a) o).ribs b = some (some q) →
      o.ribs b = some (some q) := by
    intro b q alloc
    by_cases same : b = a
    · rw [same, here] at alloc
      cases alloc
    · rwa [elsewhere b same] at alloc
  refine intact_frame intact ⟨?_, ?_⟩ (fun b mem => elsewhere b (intact.ne_of_fresh fresh mem))
    (fun _ _ _ _ => rfl) (fun _ ready => ⟨ready.rings, ready.buffers⟩)
  · intro b b' q alloc alloc'
    exact intact.separate.apart b b' q (before b q alloc) (before b' q alloc')
  · exact fun b q alloc => intact.separate.whole b q (before b q alloc)

/-- A `rib_info` is stored into a rib nobody holds. -/
theorem Intact.allocRibInfo (intact : Intact d F o) {a q : Nat} (unheld : some a ∉ F)
    (fresh : o.infos q = none) (info : RibInfo) :
    Intact d F (RibMemory.exec (.allocRibInfo a q info) o) ∧
      SameBehind F o (RibMemory.exec (.allocRibInfo a q info) o) := by
  have elsewhere : ∀ b, b ≠ a → (RibMemory.exec (.allocRibInfo a q info) o).ribs b = o.ribs b :=
    fun b ne => Function.update_of_ne ne _ _
  have here : (RibMemory.exec (.allocRibInfo a q info) o).ribs a = some (some q) :=
    Function.update_self _ _ _
  have others : ∀ p, p ≠ q → (RibMemory.exec (.allocRibInfo a q info) o).infos p = o.infos p :=
    fun p ne => Function.update_of_ne ne _ _
  have stored : (RibMemory.exec (.allocRibInfo a q info) o).infos q = some info :=
    Function.update_self _ _ _
  have old : ∀ b p, o.ribs b = some (some p) → p ≠ q := by
    intro b p alloc same
    have whole := intact.separate.whole b p alloc
    rw [same, fresh] at whole
    cases whole
  refine intact_frame intact ⟨?_, ?_⟩ ?_ ?_ (fun _ ready => ⟨ready.rings, ready.buffers⟩)
  · intro b b' p alloc alloc'
    by_cases new : b = a <;> by_cases new' : b' = a
    · exact new.trans new'.symm
    · rw [new, here] at alloc
      rw [elsewhere b' new'] at alloc'
      exact absurd (Option.some.inj (Option.some.inj alloc)).symm (old b' p alloc')
    · rw [new', here] at alloc'
      rw [elsewhere b new] at alloc
      exact absurd (Option.some.inj (Option.some.inj alloc')).symm (old b p alloc)
    · rw [elsewhere b new] at alloc
      rw [elsewhere b' new'] at alloc'
      exact intact.separate.apart b b' p alloc alloc'
  · intro b p alloc
    by_cases new : b = a
    · rw [new, here] at alloc
      cases alloc
      rw [stored]
      rfl
    · rw [elsewhere b new] at alloc
      rw [others p (old b p alloc)]
      exact intact.separate.whole b p alloc
  · rintro b mem
    refine elsewhere b ?_
    rintro rfl
    exact unheld mem
  · exact fun b p _ alloc => others p (old b p alloc)

/-- Pointers in the tables are added only. -/
theorem created_of {table : Nat → Nat → Bool} {i j : Nat} (there : table i j = true) (i' j' : Nat) :
    created table i' j' i j = true := by
  rw [created, there, Bool.or_true]

theorem created_self (table : Nat → Nat → Bool) (i j : Nat) : created table i j i j = true := by
  rw [created, beq_self_eq_true, beq_self_eq_true, Bool.and_self, Bool.true_or]

theorem Prepared.devOp {info : RibInfo} (ready : Prepared d o info) (op : DevOp) :
    Prepared d (o.devOp op) info := by
  cases op with
  | ringUpCreate p q =>
      refine ⟨fun lcore lt rxq mem => ?_, ready.buffers⟩
      exact ⟨created_of (ready.rings lcore lt rxq mem).1 p q, (ready.rings lcore lt rxq mem).2⟩
  | ringDnCreate p q =>
      refine ⟨fun lcore lt rxq mem => ?_, ready.buffers⟩
      exact ⟨(ready.rings lcore lt rxq mem).1, created_of (ready.rings lcore lt rxq mem).2 p q⟩
  | txBufferCreate p q =>
      exact ⟨ready.rings, fun lcore lt some port avail =>
        created_of (ready.buffers lcore lt some port avail) p q⟩
  | devStop p => exact ready
  | devConfigure p nrxq ntxq fastFree => exact ready
  | rxQueueSetup p q nbRxd => exact ready
  | txQueueSetup p q nbTxd => exact ready
  | devStart p => exact ready

theorem devOp_ribs (op : DevOp) : (o.devOp op).ribs = o.ribs := by cases op <;> rfl

theorem devOp_infos (op : DevOp) : (o.devOp op).infos = o.infos := by cases op <;> rfl

/-- An operation of `rib_check` that gets what it asks for. -/
theorem Intact.dev (intact : Intact d F o) (op : DevOp) :
    Intact d F (RibMemory.exec (.dev op true) o) ∧
      SameBehind F o (RibMemory.exec (.dev op true) o) := by
  rw [RibMemory.exec, if_pos rfl]
  refine intact_frame intact ⟨?_, ?_⟩ ?_ ?_ (fun _ ready => ready.devOp op)
  · intro a b q
    rw [devOp_ribs]
    exact intact.separate.apart a b q
  · intro a q
    rw [devOp_ribs, devOp_infos]
    exact intact.separate.whole a q
  · exact fun a _ => congrFun (devOp_ribs op) a
  · exact fun _ q _ _ => congrFun (devOp_infos op) q

/-- A rib nobody holds loses its `rib_info`. -/
theorem Intact.freeRibInfo (intact : Intact d F o) {a : Nat} (unheld : some a ∉ F) :
    Intact d F (RibMemory.exec (.freeRibInfo a) o) ∧
      SameBehind F o (RibMemory.exec (.freeRibInfo a) o) := by
  rw [RibMemory.exec]
  split
  · rename_i q alloc
    have other : ∀ b p, b ≠ a → o.ribs b = some (some p) → p ≠ q := by
      rintro b p ne alloc' rfl
      exact ne (intact.separate.apart b a p alloc' alloc)
    have before : ∀ b p, Function.update o.ribs a (some none) b = some (some p) →
        b ≠ a ∧ o.ribs b = some (some p) := by
      intro b p alloc'
      by_cases same : b = a
      · rw [same, Function.update_self] at alloc'
        cases alloc'
      · rw [Function.update_of_ne same] at alloc'
        exact ⟨same, alloc'⟩
    have held : ∀ b, some b ∈ F → b ≠ a := by
      rintro b mem rfl
      exact unheld mem
    refine intact_frame intact ⟨?_, ?_⟩ ?_ ?_ (fun _ ready => ⟨ready.rings, ready.buffers⟩)
    · exact fun b b' p h h' =>
        intact.separate.apart b b' p (before b p h).2 (before b' p h').2
    · intro b p h
      obtain ⟨ne, h⟩ := before b p h
      change (Function.update o.infos q none p).isSome = true
      rw [Function.update_of_ne (other b p ne h)]
      exact intact.separate.whole b p h
    · exact fun b mem => Function.update_of_ne (held b mem) _ _
    · exact fun b p mem h => Function.update_of_ne (other b p (held b mem) h) _ _
  · exact ⟨intact, fun _ _ => rfl⟩

/-- A rib nobody holds is freed. -/
theorem Intact.freeRib (intact : Intact d F o) {a : Nat} (unheld : some a ∉ F) :
    Intact d F (RibMemory.exec (.freeRib a) o) ∧
      SameBehind F o (RibMemory.exec (.freeRib a) o) := by
  have before : ∀ b p, Function.update o.ribs a none b = some (some p) →
      o.ribs b = some (some p) := by
    intro b p alloc
    by_cases same : b = a
    · rw [same, Function.update_self] at alloc
      cases alloc
    · rwa [Function.update_of_ne same] at alloc
  refine intact_frame intact ⟨?_, ?_⟩ ?_ (fun _ _ _ _ => rfl)
    (fun _ ready => ⟨ready.rings, ready.buffers⟩)
  · exact fun b b' p h h' => intact.separate.apart b b' p (before b p h) (before b' p h')
  · exact fun b p h => intact.separate.whole b p (before b p h)
  · rintro b mem
    refine Function.update_of_ne ?_ _ _
    rintro rfl
    exact unheld mem

/-- The actions of `rib_delete` on a rib nobody holds. -/
theorem intact_sharedDelete {a : Nat} (unheld : some a ∉ F) (hasInfo : Bool) :
    ∀ act ∈ sharedDelete a hasInfo, ∀ o, Intact d F o →
      Intact d F (RibMemory.exec act o) ∧ SameBehind F o (RibMemory.exec act o) := by
  intro act mem o intact
  rw [sharedDelete, List.mem_append, List.mem_singleton] at mem
  rcases mem with mem | rfl
  · cases hasInfo with
    | false => cases mem
    | true =>
        rw [if_pos rfl, List.mem_singleton] at mem
        rw [mem]
        exact intact.freeRibInfo unheld
  · exact intact.freeRib unheld

/-! ## What `rib_check` creates -/

/-- What the operation creates is there. -/
def DevOp.Created (o : RibMemory) : DevOp → Prop
  | .ringUpCreate port queue => o.ringUp port queue = true
  | .ringDnCreate port queue => o.ringDn port queue = true
  | .txBufferCreate port queue => o.txBuffer port queue = true
  | _ => True

theorem created_devOp (op : DevOp) : op.Created (o.devOp op) := by
  cases op <;> first | exact created_self _ _ _ | exact True.intro

theorem DevOp.Created.devOp {op : DevOp} (there : op.Created o) (op' : DevOp) :
    op.Created (o.devOp op') := by
  cases op <;> cases op' <;> first | exact created_of there _ _ | exact there

theorem created_foldl (ops : List DevOp) (o : RibMemory) :
    ∀ op, op ∈ ops ∨ op.Created o → op.Created (ops.foldl RibMemory.devOp o) := by
  induction ops generalizing o with
  | nil =>
      rintro op (mem | there)
      · cases mem
      · exact there
  | cons op' ops ih =>
      rintro op (mem | there)
      · rcases List.mem_cons.mp mem with rfl | later
        · exact ih _ op (Or.inr (created_devOp op))
        · exact ih _ op (Or.inl later)
      · exact ih _ op (Or.inr (there.devOp op'))

/-- `max_lcore` is at least every lcore with a queue. -/
theorem le_maxLcore {info : RibInfo} {lcore : Nat} (lt : lcore < info.lcoreSize.toNat)
    (queues : info.lcoreQconf lcore ≠ []) : lcore ≤ maxLcore info := by
  have grows : ∀ (lcores : List Nat) (m : Nat), (m ≤ lcores.foldl
      (fun m lcore => if info.lcoreQconf lcore ≠ [] ∧ m < lcore then lcore else m) m) ∧
      (lcore ∈ lcores → lcore ≤ lcores.foldl
        (fun m lcore => if info.lcoreQconf lcore ≠ [] ∧ m < lcore then lcore else m) m) := by
    intro lcores
    induction lcores with
    | nil => exact fun m => ⟨Nat.le_refl m, fun mem => absurd mem List.not_mem_nil⟩
    | cons l lcores ih =>
        intro m
        rw [List.foldl_cons]
        obtain ⟨above, rest⟩ := ih (if info.lcoreQconf l ≠ [] ∧ m < l then l else m)
        constructor
        · refine Nat.le_trans ?_ above
          split
          · rename_i larger
            exact Nat.le_of_lt larger.2
          · exact Nat.le_refl m
        · intro mem
          rcases List.mem_cons.mp mem with rfl | later
          · refine Nat.le_trans ?_ above
            split
            · exact Nat.le_refl _
            · rename_i stays
              exact Nat.le_of_not_lt fun more => stays ⟨queues, more⟩
          · exact rest later
  exact (grows _ 0).2 (List.mem_range.mpr lt)

/-- After a `rib_check` that accepts everything the new `rib_info` needs is there. -/
theorem prepared_ribCheckOps (info : RibInfo) (nrxq : Nat → Nat)
    (size : info.lcoreSize.toNat = d.lcoreCount) (o : RibMemory) :
    Prepared d ((ribCheckOps d info nrxq).foldl RibMemory.devOp o) info := by
  have there := fun op (mem : op ∈ ribCheckOps d info nrxq) =>
    created_foldl (ribCheckOps d info nrxq) o op (Or.inl mem)
  refine ⟨?_, ?_⟩
  · intro lcore lt rxq mem
    have rings : ∀ op ∈ [DevOp.ringUpCreate rxq.portId rxq.queueId,
        .ringDnCreate rxq.portId rxq.queueId], op ∈ ribCheckOps d info nrxq := by
      intro op here
      have listed := List.mem_flatMap_of_mem (List.mem_range.mpr lt) mem
      rw [ribCheckOps, List.mem_append, ringOps]
      exact Or.inr (List.mem_flatMap_of_mem listed here)
    have up := there _ (rings (.ringUpCreate rxq.portId rxq.queueId) List.mem_cons_self)
    have dn := there _ (rings (.ringDnCreate rxq.portId rxq.queueId) (by simp))
    exact ⟨up, dn⟩
  · intro lcore lt queues port avail
    have below : lcore < maxLcore info + 1 :=
      Nat.lt_succ_of_le (le_maxLcore (size ▸ lt) queues)
    have buffer : DevOp.txBufferCreate port lcore ∈ ribCheckOps d info nrxq := by
      rw [ribCheckOps, List.mem_append, List.mem_flatMap]
      refine Or.inl ⟨port, List.mem_range.mpr avail, ?_⟩
      simp only [portOps, List.mem_append, List.mem_flatMap]
      exact Or.inl (Or.inr ⟨lcore, List.mem_range.mpr below, by simp⟩)
    exact there _ buffer

/-! ## The manager's lists -/

/-- The pointers kept when the old rib goes. -/
def keptFrom (old : Option Nat) (F : Set (Option Nat)) : Set (Option Nat) :=
  { r | r ∈ F ∧ ∀ a, old = some a → r ≠ some a }

theorem keptFrom_subset (old : Option Nat) (F : Set (Option Nat)) : keptFrom old F ⊆ F :=
  fun _ mem => mem.1

theorem Intact.safe (intact : Intact d F o) (sub : E ⊆ F) (p : Option Nat) {act : SharedAct}
    (same : ∀ a, act = .other a → SameBehind F o (RibMemory.exec a o)) :
    SharedSafe d E p o act :=
  ⟨intact.mono sub, fun a eq => (same a eq).mono sub⟩

/-- An action of the manager's own that keeps what is held is safe, and the rest is looked at
    after it. -/
theorem Intact.other (intact : Intact d F o) (sub : E ⊆ F) {p : Option Nat} {a : RibMemAct}
    {k : List SharedAct} (same : SameBehind F o (RibMemory.exec a o))
    (rest : SafeOwned RibMemory.exec (SharedIdle d) (SharedSafe d) E p (RibMemory.exec a o) k) :
    SafeOwned RibMemory.exec (SharedIdle d) (SharedSafe d) E p o (.other a :: k) := by
  refine ⟨intact.safe sub p ?_, rest⟩
  rintro b same'
  cases same'
  exact same

/-- Publishing a rib that is usable, waiting, and freeing the old one. -/
theorem safe_sharedReplace {old p : Option Nat} {new : Nat} (hasInfo : Bool) {k : List SharedAct}
    (intact : Intact d F o) (sub : E ⊆ F) (mem : some new ∈ F) (apart : old ≠ some new)
    (rest : ∀ E' o', E' ⊆ keptFrom old F → Intact d (keptFrom old F) o' →
      SafeOwned RibMemory.exec (SharedIdle d) (SharedSafe d) E' (some new) o' k) :
    SafeOwned RibMemory.exec (SharedIdle d) (SharedSafe d) E p o
      (sharedReplace old hasInfo new ++ k) := by
  have assign : SharedSafe d E p o (.assign (some new)) := intact.safe sub p nofun
  have sub' : insert (some new) E ⊆ F := Set.insert_subset mem sub
  cases old with
  | none =>
      have all : F ⊆ keptFrom none F := fun r here => ⟨here, nofun⟩
      exact ⟨assign, rest _ o (sub'.trans all) (intact.mono (keptFrom_subset none F))⟩
  | some a =>
      have unheld : some a ∉ keptFrom (some a) F := fun here => here.2 a rfl rfl
      have kept : some new ∈ keptFrom (some a) F := by
        refine ⟨mem, ?_⟩
        rintro b same same'
        exact apart (same.trans same'.symm)
      have sub'' : {some new} ⊆ keptFrom (some a) F := Set.singleton_subset_iff.mpr kept
      refine ⟨assign, intact.safe sub' _ nofun, ?_⟩
      refine safeOwned_others_append (P := Intact d (keptFrom (some a) F)) ?_
        (intact.mono (keptFrom_subset (some a) F)) (fun o' intact' _ => rest _ o' sub'' intact')
      intro act listed o' intact'
      obtain ⟨stays, same⟩ := intact_sharedDelete unheld hasInfo act listed o' intact'
      refine ⟨intact'.safe sub'' _ ?_, stays⟩
      rintro b same'
      cases same'
      exact same

/-- The queues of an old rib that is usable have their rings and tx buffers. -/
theorem Usable.queues {old : Option Nat} (usable : Usable d o old) :
    ∀ info : RibInfo, (∀ lcore, info.lcoreQconf lcore = ribQueues (o.deref old) lcore) →
      Prepared d o info := by
  have none_there : ∀ info : RibInfo, (∀ lcore, info.lcoreQconf lcore = []) →
      Prepared d o info := by
    intro info none
    constructor
    · intro lcore _ rxq mem
      rw [none] at mem
      cases mem
    · exact fun lcore _ some => absurd (none lcore) some
  intro info same
  cases old with
  | none => exact none_there info same
  | some a =>
      obtain ⟨i, alloc, content⟩ := usable a rfl
      cases i with
      | none =>
          refine none_there info fun lcore => ?_
          rw [same lcore, RibMemory.deref, Option.bind_some, alloc]
          rfl
      | some q =>
          obtain ⟨c, found, ready⟩ := content q rfl
          refine ready.congr fun lcore => ?_
          rw [same lcore, RibMemory.deref, Option.bind_some, alloc, Option.map_some,
            Option.bind_some, found]
          rfl

/-- The new rib as the manager has built it, and the address for the intermediate one. -/
structure NewRib (c : RibOrder) (new : RibInfo) (o : RibMemory) : Prop where
  rib : o.ribs c.rib = some (some c.info)
  info : o.infos c.info = some new
  zero : o.ribs c.zero = none

theorem NewRib.usableAt {c : RibOrder} {new : RibInfo} (built : NewRib c new o)
    (ready : Prepared d o new) : UsableAt d o c.rib := by
  refine ⟨some c.info, built.rib, ?_⟩
  rintro q same
  cases same
  exact ⟨new, built.info, ready⟩

/-- `rib_create`. -/
theorem Intact.create {c : RibOrder} {p : Option Nat} {k : List SharedAct} (new : RibInfo)
    (intact : Intact d E o) (fresh : c.Fresh o)
    (rest : ∀ o', Intact d E o' → NewRib c new o' →
      (∀ info, Prepared d o info → Prepared d o' info) →
      SafeOwned RibMemory.exec (SharedIdle d) (SharedSafe d) E p o' k) :
    SafeOwned RibMemory.exec (SharedIdle d) (SharedSafe d) E p o
      (.other (.allocRib c.rib) :: .other (.allocRibInfo c.rib c.info new) :: k) := by
  obtain ⟨ribFresh, zeroFresh, apart, infoFresh⟩ := fresh
  have unheld : some c.rib ∉ E := fun mem => intact.ne_of_fresh ribFresh mem rfl
  obtain ⟨first, same⟩ := intact.allocRib ribFresh
  obtain ⟨second, same'⟩ := first.allocRibInfo unheld (q := c.info) infoFresh new
  refine intact.other subset_rfl same (first.other subset_rfl same' (rest _ second ?_ ?_))
  · refine ⟨Function.update_self _ _ _, Function.update_self _ _ _, ?_⟩
    simp only [RibMemory.exec]
    rw [Function.update_of_ne apart.symm, Function.update_of_ne apart.symm]
    exact zeroFresh
  · exact fun info ready => ⟨ready.rings, ready.buffers⟩

/-- The operations of an accepted `rib_check`. -/
theorem Intact.devOps {c : RibOrder} {new : RibInfo} {p : Option Nat} {k : List SharedAct}
    {nrxq : Nat → Nat} (intact : Intact d E o) (built : NewRib c new o) (granted : c.Granted)
    (size : new.lcoreSize.toNat = d.lcoreCount)
    (rest : ∀ o', Intact d E o' → NewRib c new o' → Prepared d o' new →
      SafeOwned RibMemory.exec (SharedIdle d) (SharedSafe d) E p o' k) :
    SafeOwned RibMemory.exec (SharedIdle d) (SharedSafe d) E p o
      (((ribCheckOps d new nrxq).map fun op => .other (.dev op (c.gives op))) ++ k) := by
  have listed : ((ribCheckOps d new nrxq).map fun op => (.other (.dev op (c.gives op)) : SharedAct)) =
      ((ribCheckOps d new nrxq).map fun op => RibMemAct.dev op true).map .other := by
    rw [List.map_map]
    refine List.map_congr_left fun op _ => ?_
    rw [granted op]
    rfl
  rw [listed]
  refine safeOwned_others_append (P := fun o' => Intact d E o' ∧ NewRib c new o') ?_
    ⟨intact, built⟩ ?_
  · rintro a mem o' ⟨intact', built'⟩
    obtain ⟨op, -, rfl⟩ := List.mem_map.mp mem
    obtain ⟨stays, same⟩ := intact'.dev op
    refine ⟨intact'.safe subset_rfl p ?_, stays, ?_⟩
    · rintro b same'
      cases same'
      exact same
    · rw [RibMemory.exec, if_pos rfl]
      refine ⟨?_, ?_, ?_⟩
      · exact (congrFun (devOp_ribs op) _).trans built'.rib
      · exact (congrFun (devOp_infos op) _).trans built'.info
      · exact (congrFun (devOp_ribs op) _).trans built'.zero
  · rintro o' ⟨intact', built'⟩ reached
    refine rest o' intact' built' ?_
    rw [reached, List.foldl_map]
    exact prepared_ribCheckOps new nrxq size o

/-- The list of every message is safe. -/
theorem sharedProcessMessage_safe (c : RibOrder) {p : Option Nat} (mem : p ∈ E)
    (intact : Intact d E o) (fresh : c.Fresh o) (granted : c.Granted) :
    SafeOwned RibMemory.exec (SharedIdle d) (SharedSafe d) E p o
      (sharedProcessMessage d c p o) := by
  have usable := intact.usable p mem
  have ribFresh : ∀ {a}, o.ribs a = none → p ≠ some a := by
    rintro a free rfl
    exact intact.ne_of_fresh free mem rfl
  have apartRib := ribFresh fresh.1
  have apartZero := ribFresh fresh.2.1
  have finish : ∀ {F E' : Set (Option Nat)} {o' : RibMemory} {q : Option Nat}, E' ⊆ F →
      Intact d F o' → SafeOwned RibMemory.exec (SharedIdle d) (SharedSafe d) E' q o' [] :=
    fun sub intact' => intact'.mono sub
  rw [sharedProcessMessage]
  cases kind : c.msg.isQconf with
  | false =>
      simp only [Bool.false_eq_true, if_false, List.cons_append, List.nil_append]
      refine intact.create _ fresh fun o' intact' built ready => ?_
      have ready' := ready _ (usable.queues _ (ribInfoFor_lcoreQconf d (o.deref p) kind))
      have both := intact'.insert (built.usableAt ready')
      refine intact'.other subset_rfl (fun _ _ => rfl) ?_
      rw [← List.append_nil (sharedReplace p _ c.rib)]
      exact safe_sharedReplace _ both (Set.subset_insert _ _) (Set.mem_insert _ _) apartRib
        fun E' o'' sub intact'' => finish sub intact''
  | true =>
      cases checked : ribCheck (ribInfoFor d c.msg (o.deref p)) with
      | none =>
          exact intact.create _ fresh fun o' intact' _ _ => finish subset_rfl intact'
      | some nrxq =>
          simp only [if_true, List.append_assoc, List.cons_append, List.nil_append]
          refine intact.create _ fresh fun o' intact' built _ => ?_
          refine intact'.devOps built granted (ribInfoFor_lcoreSize d (o.deref p) kind)
            fun o'' intact'' built' ready => ?_
          -- Both new ribs are kept from here on, the old one only until it is waited for.
          have withRib := intact''.insert (built'.usableAt ready)
          obtain ⟨withRib', same⟩ := withRib.allocRib built'.zero
          have zeroUsable : UsableAt d (RibMemory.exec (.allocRib c.zero) o'') c.zero :=
            ⟨none, Function.update_self _ _ _, by simp⟩
          have both := withRib'.insert zeroUsable
          have ribIn : some c.rib ∈ insert (some c.zero) (insert (some c.rib) E) :=
            Set.mem_insert_of_mem _ (Set.mem_insert _ _)
          refine intact''.other subset_rfl (same.mono (Set.subset_insert _ _)) ?_
          refine safe_sharedReplace _ both
            ((Set.subset_insert _ _).trans (Set.subset_insert _ _)) (Set.mem_insert _ _) apartZero
            fun E' o₃ sub intact₃ => ?_
          refine intact₃.other sub (fun _ _ => rfl) ?_
          rw [← List.append_nil (sharedReplace (some c.zero) _ c.rib)]
          have kept : some c.rib ∈ keptFrom p (insert (some c.zero) (insert (some c.rib) E)) := by
            refine ⟨ribIn, ?_⟩
            rintro a rfl same'
            exact apartRib same'.symm
          have differ : some c.zero ≠ some c.rib := fun same' =>
            fresh.2.2.1 (Option.some.inj same').symm
          exact safe_sharedReplace _ intact₃ sub kept differ
            fun E'' o₄ sub' intact₄ => finish sub' intact₄

end

/-! ## Every interleaving -/

section
variable {W : Type} [DecidableEq W] {d : Dpdk}

theorem sharedIdle_empty (d : Dpdk) : SharedIdle d {none} none .empty := by
  refine ⟨⟨fun a b q alloc => ?_, fun a q alloc => ?_⟩, ?_⟩
  · cases alloc
  · cases alloc
  · rintro r mem a rfl
    cases mem

/-- While the manager is given what it asks for: where a worker holds a rib, it and its `rib_info`,
    if it has one, are allocated, the rings of its queues and the tx buffers of its lcores are
    there, and no step of anybody changes what is behind it. -/
theorem ribHeld_usable {x : Owned W (Option Nat) RibMemAct RibMemory}
    (reachable : OwnedReachable (ribUpdater d) none .empty x) {w : W} {a : Nat}
    (held : x.system.state.reader w = .reading (some a)) :
    UsableAt d x.own a ∧
      ∀ y, OwnedStep (ribUpdater d) x y → y.own.deref (some a) = x.own.deref (some a) := by
  have safe : ∀ (E : Set (Option Nat)) (p : Option Nat) (o : RibMemory) (c : RibOrder), p ∈ E →
      SharedIdle d E p o → (ribUpdater d).allowed c p o →
        SafeOwned RibMemory.exec (SharedIdle d) (SharedSafe d) E p o
          (sharedProcessMessage d c p o) := by
    rintro E p o c mem idle ⟨fresh, granted⟩
    exact sharedProcessMessage_safe c mem idle fresh granted
  obtain ⟨E, covered, rest⟩ := reachable.epoch (sharedIdle_empty d) safe
  have mem : some a ∈ E := covered.held w _ held
  have intact : Intact d E x.own :=
    rest.now (P := fun E o => Intact d E o) (fun _ _ _ idle => idle) (fun _ _ _ _ safe => safe.1)
  refine ⟨intact.usable _ mem a rfl, ?_⟩
  intro y step
  cases step with
  | reader k o moved => rfl
  | receive s c o fresh => rfl
  | assign s r k o => rfl
  | synchronize s k o quiet => rfl
  | other s act k o => exact rest.1.2 act rfl _ mem

/-- A first queue change. -/
def splitOrder : RibOrder := ⟨.qconf (splitQconf 0), 0, 0, 1, fun _ => true⟩

/-- A worker holds the rib of the first queue change. -/
theorem ribHeld_usable_split :
    ∃ x : Owned (Fin 2) (Option Nat) RibMemAct RibMemory,
      x.system.state.reader 0 = .reading (some 0) ∧ UsableAt onePort x.own 0 ∧
        ∀ y, OwnedStep (ribUpdater onePort) x y → y.own.deref (some 0) = x.own.deref (some 0) := by
  have start : OwnedReachable (ribUpdater onePort) none .empty
    (⟨System.init none, .empty⟩ : Owned (Fin 2) (Option Nat) RibMemAct RibMemory) := .init
  have fresh : splitOrder.Fresh .empty := ⟨rfl, rfl, by decide, rfl⟩
  have received := start.step (.receive _ splitOrder RibMemory.empty ⟨fresh, fun _ => rfl⟩)
  obtain ⟨s, o, reachable, published, offline⟩ := received.drain (fun _ => rfl) (fun _ => id)
  obtain ⟨nrxq, checked⟩ := Option.isSome_iff_exists.mp splitQconf_accepted
  have first : s.published = some 0 := by
    have checked' : ribCheck (ribInfoFor onePort (.qconf (splitQconf 0))
      (RibMemory.empty.deref none)) = some nrxq := checked
    rw [published]
    change publishedAfter (sharedProcessMessage onePort splitOrder none .empty) none = some 0
    rw [sharedProcessMessage, splitOrder]
    simp only [RibMsg.isQconf, if_true, checked', publishedAfter_append]
    rfl
  obtain ⟨s', taken, holds⟩ := reachable.takes (offline 0)
  rw [first] at holds
  exact ⟨_, holds, ribHeld_usable taken holds⟩

end

end Sdplane
