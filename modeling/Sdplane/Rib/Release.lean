import Sdplane.Rib.NextRib

/-!
# What a message leaves allocated

When `rib_manager_process_message` returns, the message should be freed, and of the ribs only the
published one should be left, with its `rib_info`; and once a rib has been published, there should
be one.
-/

namespace Sdplane

namespace RibHeap

/-- What is allocated is the published rib and its `rib_info`, and there is one exactly if one has
    ever been published. -/
structure Balanced (h : RibHeap) : Prop where
  ribs : ∀ a, (h.ribs a).isSome ↔ h.published = some a
  infos : ∀ q, (h.infos q).isSome ↔ h.ribInfo h.published = some q
  whole : h.published.isSome → (h.ribInfo h.published).isSome
  since : h.published.isSome ↔ ∃ q, .publish q ∈ h.log

/-- A call for each message, until one runs into undefined behaviour. -/
def messageStep (s : Option RibHeap) (c : RibCall) : Option (Option RibHeap) :=
  some (s.bind (·.processMessage (ribCheckAnswer c.dpdk) c))

/-- The call returned, the message is freed, and the ledger of the allocations balances. -/
def Released (s : Option RibHeap) : Prop := ∃ h, s = some h ∧ h.msg = false ∧ h.Balanced

/-- The new rib was allocated, with its `rib_info`, or it is neither looked at nor missed, since
    nothing is published; the message stays inside the arrays; and a queue change is one that
    `rib_check` accepts, without leaving its own. -/
structure Clean (h : RibHeap) (c : RibCall) : Prop where
  rib : c.ribOk = true ∨ (c.msg.patch c.dpdk).isSome = false ∧ h.published = none
  info : c.ribOk = true → c.infoOk = true
  fits : c.msg.Fits c.dpdk
  accepted : c.msg.isQconf = true →
    InsideAll (ribCheckRun c.dpdk (h.built c.dpdk c.msg).info).1 ∧
      WellAssigned (portQconf (h.built c.dpdk c.msg).info)

section

variable {h h' : RibHeap} {c : RibCall}

theorem empty_balanced : empty.Balanced where
  ribs a := iff_of_false Bool.false_ne_true (Option.some_ne_none a).symm
  infos q := iff_of_false Bool.false_ne_true (Option.some_ne_none q).symm
  whole none := none
  since := by
    refine iff_of_false Bool.false_ne_true ?_
    rintro ⟨q, mem⟩
    cases mem

theorem Balanced.alive (balanced : h.Balanced) : h.Alive := by
  intro p published
  obtain ⟨info, rib⟩ := Option.isSome_iff_exists.mp ((balanced.ribs p).mpr published)
  refine ⟨info, rib, ?_⟩
  rintro q rfl
  apply (balanced.infos q).mpr
  rw [ribInfo, published, Option.bind_some, rib]
  rfl

/-- What is freed is all there was. -/
theorem not_isSome_freed {α : Type} {f : Nat → Option α} {old : Option Nat}
    (all : ∀ a, (f a).isSome ↔ old = some a) (a : Nat) :
    ¬ (if some a = old then none else f a).isSome := by
  split
  · exact Bool.false_ne_true
  · rename_i other
    rw [all]
    exact Ne.symm other

theorem Next.balanced (balanced : h.Balanced) {o : RibInfoObject} {log : List InfoEvent}
    (next : h.Next o log h') : h'.Balanced where
  ribs := by
    intro a
    rw [next.ribs, next.published, Option.some_inj]
    split
    · rename_i new
      exact iff_of_true rfl new.symm
    · rename_i other
      exact iff_of_false (not_isSome_freed balanced.ribs a) (Ne.symm other)
  infos := by
    intro q
    rw [next.infos, next.ribInfo, Option.some_inj]
    split
    · rename_i new
      exact iff_of_true rfl new.symm
    · rename_i other
      exact iff_of_false (not_isSome_freed balanced.infos q) (Ne.symm other)
  whole := by
    intro _
    rw [next.ribInfo]
    rfl
  since := by
    rw [next.published, next.log]
    exact iff_of_true rfl ⟨h.fresh + 1, List.mem_cons_self⟩

/-- `rib_check` stays inside its arrays and accepts. -/
theorem ribCheckAnswer_eq_true_iff (d : Dpdk) (info : RibInfo) :
    ribCheckAnswer d info = some true ↔
      InsideAll (ribCheckRun d info).1 ∧ WellAssigned (portQconf info) := by
  rw [ribCheckAnswer]
  split
  · rename_i inside
    rw [Option.some_inj, decide_eq_true_iff, ribCheckRun_result, ribCheck_isSome_iff]
    exact (and_iff_right inside).symm
  · rename_i outside
    exact iff_of_false (Option.some_ne_none true).symm fun both => outside both.1

/-! ## The `malloc`s -/

/-- Both succeed. -/
theorem released_iff_clean (balanced : h.Balanced) (bounded : h.Bounded) (ribOk : c.ribOk = true)
    (infoOk : c.infoOk = true) :
    Released (h.processMessage (ribCheckAnswer c.dpdk) c) ↔ h.Clean c := by
  have alive := balanced.alive
  by_cases fits : c.msg.Fits c.dpdk
  · by_cases accepted : c.msg.isQconf = true →
        ribCheckAnswer c.dpdk (h.built c.dpdk c.msg).info = some true
    · obtain ⟨n, h', run, next⟩ := processMessage_next alive bounded ribOk infoOk fits accepted
      refine iff_of_true ⟨h', run, next.msg, next.balanced balanced⟩ ?_
      refine ⟨.inl ribOk, fun _ => infoOk, fits, ?_⟩
      intro kind
      exact (ribCheckAnswer_eq_true_iff _ _).mp (accepted kind)
    · obtain ⟨kind, refused⟩ := Classical.not_imp.mp accepted
      refine iff_of_false ?_ fun clean =>
        refused ((ribCheckAnswer_eq_true_iff _ _).mpr (clean.accepted kind))
      rintro ⟨h', run, freed, -⟩
      cases answer : ribCheckAnswer c.dpdk (h.built c.dpdk c.msg).info with
      | none =>
          rw [processMessage_stray alive ribOk infoOk fits kind answer] at run
          cases run
      | some verdict =>
          cases verdict with
          | true => exact refused answer
          | false =>
              -- the message is still allocated
              obtain ⟨n, left⟩ := processMessage_rejected alive ribOk infoOk fits kind answer
              rw [left] at run
              cases run
              cases freed
  · refine iff_of_false ?_ fun clean => fits clean.fits
    rintro ⟨h', run, -⟩
    rw [processMessage_unfit alive ribOk infoOk fits] at run
    cases run

/-- The new rib without a `rib_info`. -/
def bare (h : RibHeap) : RibHeap where
  ribs := Function.update h.ribs h.fresh (some none)
  infos := h.infos
  fresh := h.fresh + 1
  published := h.published
  msg := true
  log := h.log

theorem ribCreate_bare (alive : h.Alive) :
    ({ h with msg := true }).ribCreate true false h.published = some (some h.fresh, h.bare) := by
  have copied : ({ h with msg := true }).oldRib h.published = some (h.ribInfo h.published) :=
    oldRib_eq alive
  simp only [ribCreate, ribInfoCreate, if_true, copied, Option.bind_eq_bind, Option.bind_some,
    Bool.false_eq_true, if_false]
  simp only [allocRib, bare, Function.update_idem]

@[simp] theorem ribInfo_bare : h.bare.ribInfo (some h.fresh) = none := by
  simp [ribInfo, bare]

theorem Alive.bare (alive : h.Alive) (bounded : h.Bounded) : h.bare.Alive :=
  alive.allocRib bounded none

/-- Without its `rib_info`, the new rib cannot be patched, and must not be published. -/
theorem not_released_of_infoOk (balanced : h.Balanced) (bounded : h.Bounded)
    (ribOk : c.ribOk = true) (infoOk : c.infoOk = false) :
    ¬ Released (h.processMessage (ribCheckAnswer c.dpdk) c) := by
  have alive := balanced.alive
  rintro ⟨h', run, -, after⟩
  simp only [processMessage, ribOk, infoOk, ribCreate_bare alive, Option.bind_eq_bind,
    Option.bind_some, update] at run
  cases patch : c.msg.patch c.dpdk with
  | some f =>
      simp only [patch, store, ribInfo_bare, Option.bind_eq_bind, Option.bind_none, ite_self] at run
      cases run
  | none =>
      simp only [patch, (RibMsg.quiet patch).2, Bool.false_eq_true, if_false, Option.bind_some,
        freeMsg_ribReplace_eq (alive.bare bounded) rfl] at run
      cases run
      have without : (h.bare.freed.replaced (some h.fresh)).ribInfo (some h.fresh) = none := by
        change (if some h.fresh = h.published then none else
          Function.update h.ribs h.fresh (some none) h.fresh).join = none
        rw [Function.update_self]
        split <;> rfl
      have missing := after.whole rfl
      change ((h.bare.freed.replaced (some h.fresh)).ribInfo (some h.fresh)).isSome at missing
      rw [without] at missing
      cases missing

/-- When NULL is published, nothing is left, which is right only if nothing was published
    before. -/
theorem Balanced.replaced_none_iff (balanced : h.Balanced) :
    (h.freed.replaced none).Balanced ↔ h.published = none := by
  have log : (h.freed.replaced none).log = h.log := rfl
  constructor
  · intro after
    by_contra some'
    have logged := balanced.since.mp (Option.isSome_iff_ne_none.mpr some')
    rw [← log] at logged
    exact absurd (after.since.mpr logged) Bool.false_ne_true
  · intro published
    refine ⟨fun a => ?_, fun q => ?_, fun none => none, ?_⟩
    · exact iff_of_false (not_isSome_freed balanced.ribs a) (Option.some_ne_none a).symm
    · exact iff_of_false (not_isSome_freed balanced.infos q) (Option.some_ne_none q).symm
    · rw [log, ← balanced.since, published]
      rfl

/-- Without a new rib only the messages that do not look at it are processed; they publish
    NULL. -/
theorem released_iff_of_ribOk (balanced : h.Balanced) (ribOk : c.ribOk = false) :
    Released (h.processMessage (ribCheckAnswer c.dpdk) c) ↔ h.Clean c := by
  have alive : ({ h with msg := true }).Alive := balanced.alive
  have create : ({ h with msg := true }).ribCreate c.ribOk c.infoOk h.published =
      some (none, { h with msg := true }) := by
    rw [ribOk]
    rfl
  have missing : c.ribOk ≠ true := by
    rw [ribOk]
    exact Bool.false_ne_true
  simp only [processMessage, create, Option.bind_eq_bind, Option.bind_some, update]
  cases patch : c.msg.patch c.dpdk with
  | some f =>
      refine iff_of_false ?_ fun clean => ?_
      · rintro ⟨h', run, -⟩
        simp only [store, ribInfo, Option.bind_none, Option.bind_eq_bind, ite_self] at run
        cases run
      · have unread := (clean.rib.resolve_left missing).1
        rw [patch] at unread
        cases unread
  | none =>
      obtain ⟨fits, kind⟩ := RibMsg.quiet patch
      simp only [kind, Bool.false_eq_true, if_false, Option.bind_some,
        freeMsg_ribReplace_eq alive rfl]
      constructor
      · rintro ⟨h', same, -, after⟩
        cases same
        refine ⟨.inr ⟨?_, balanced.replaced_none_iff.mp after⟩, ?_, fits, ?_⟩
        · rw [patch]
          rfl
        · exact fun allocated => absurd allocated missing
        · rw [kind]
          exact fun queue => absurd queue Bool.false_ne_true
      · intro clean
        have published := (clean.rib.resolve_left missing).2
        exact ⟨_, rfl, rfl, balanced.replaced_none_iff.mpr published⟩

/-! ## Runs -/

/-- A call that is made is clean. -/
def CleanStep (s : Option RibHeap) (c : RibCall) : Prop := ∀ h, s = some h → h.Clean c

theorem released_step (c : RibCall) (balanced : h.Balanced) (bounded : h.Bounded) :
    Released (h.processMessage (ribCheckAnswer c.dpdk) c) ↔ h.Clean c := by
  cases ribOk : c.ribOk with
  | false => exact released_iff_of_ribOk balanced ribOk
  | true =>
      cases infoOk : c.infoOk with
      | true => exact released_iff_clean balanced bounded ribOk infoOk
      | false =>
          refine iff_of_false (not_released_of_infoOk balanced bounded ribOk infoOk) ?_
          intro clean
          have allocated := clean.info ribOk
          rw [infoOk] at allocated
          cases allocated

/-- In a run of messages, after each of them the message is freed and what is allocated is what is
    published, exactly if every call is clean. -/
theorem released_throughout_iff (calls : List RibCall) :
    Throughout messageStep Released (some .empty) calls ↔
      EachStep messageStep CleanStep (some .empty) calls := by
  have base : ∀ s c s', (∀ h, s = some h → h.Bounded) → messageStep s c = some s' →
      ∀ h, s' = some h → h.Bounded := by
    intro s c s' bounded taken h' same
    cases taken
    obtain ⟨h, start, run⟩ := Option.bind_eq_some_iff.mp same
    exact (bounded h start).processMessage run
  have keeps : ∀ s c s', (∀ h, s = some h → h.Bounded) → Released s → messageStep s c = some s' →
      (Released s' ↔ CleanStep s c) := by
    intro s c s' bounded released taken
    obtain ⟨h, rfl, -, balanced⟩ := released
    cases taken
    refine (released_step c balanced (bounded h rfl)).trans ?_
    constructor
    · rintro clean _ ⟨⟩
      exact clean
    · intro clean
      exact clean h rfl
  refine throughout_iff_eachStep base keeps calls (some .empty) ?_
    ⟨.empty, rfl, rfl, empty_balanced⟩
  rintro _ ⟨⟩
  exact empty_bounded

/-- `set thread 0 port 0 queue 5`: queue 5 without the ones below it. -/
def skippedQueues : RibCall :=
  ⟨onePort, .qconf fun i => if i = 0 then [⟨0, 5⟩] else [], true, true, true⟩

/-- Its message is still allocated, and so is the rib that was made for it. -/
theorem released_throughout_not :
    ¬ Throughout messageStep Released (some .empty) [skippedQueues] := by
  intro throughout
  have after : Released (empty.processMessage (ribCheckAnswer onePort) skippedQueues) :=
    throughout.2 _ rfl
  have clean := (released_step skippedQueues empty_balanced empty_bounded).mp after
  have accepted := (ribCheckAnswer_eq_true_iff _ _).mpr (clean.accepted rfl)
  have refused :
      ribCheckAnswer onePort (empty.built onePort skippedQueues.msg).info ≠ some true := by
    decide
  exact refused accepted

end

end RibHeap

end Sdplane
