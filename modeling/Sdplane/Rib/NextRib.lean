import Sdplane.Rib.Heap

/-!
# The next rib

What a message leaves on the heap when the allocations succeed: the new rib with its `rib_info`
in the place of the one that was published, or, after the return in between, beside it.
-/

namespace Sdplane

/-- The stores of a message into the new `rib_info`. -/
def RibMsg.apply (d : Dpdk) (msg : RibMsg) (o : RibInfoObject) : RibInfoObject :=
  match msg.patch d with
  | none => o
  | some f => o.store f

/-- A message that does not look at the new `rib_info`. -/
theorem RibMsg.quiet {d : Dpdk} {msg : RibMsg} (quiet : msg.patch d = none) :
    msg.Fits d ∧ msg.isQconf = false := by
  cases msg with
  | portStatus => cases quiet
  | ethLink => exact ⟨trivial, rfl⟩
  | qconf q => cases quiet
  | qconf2 => cases quiet
  | txrxDesc portid nbRxd nbTxd => cases quiet
  | unknown => exact ⟨trivial, rfl⟩

namespace RibHeap

/-- The `rib_info` the next one is a copy of. -/
def base (h : RibHeap) : RibInfoObject := (h.read h.published).getD .zero

/-- The `rib_info` made for a message. -/
def built (d : Dpdk) (msg : RibMsg) (h : RibHeap) : RibInfoObject := msg.apply d h.base.next

/-- A new rib and its new `rib_info` beside what there is. -/
def withNew (o : RibInfoObject) (log : List InfoEvent) (h : RibHeap) : RibHeap where
  ribs := Function.update h.ribs h.fresh (some (some (h.fresh + 1)))
  infos := Function.update h.infos (h.fresh + 1) (some o)
  fresh := h.fresh + 2
  published := h.published
  msg := true
  log := log

/-- The published rib replaced, and freed with its `rib_info`. -/
def replaced (new : Option Nat) (h : RibHeap) : RibHeap :=
  { h.assign new with
    ribs := fun a => if some a = h.published then none else h.ribs a
    infos := fun q => if some q = h.ribInfo h.published then none else h.infos q }

/-- The message freed. -/
def freed (h : RibHeap) : RibHeap := { h with msg := false }

section

variable {h : RibHeap}

/-- Old and new never share an address: the new ones were not given out before. -/
theorem Alive.published_lt (alive : h.Alive) (bounded : h.Bounded) {p : Nat}
    (published : h.published = some p) : p < h.fresh := by
  obtain ⟨info, rib, -⟩ := alive p published
  exact bounded.rib_lt rib

theorem Alive.ribInfo_lt (alive : h.Alive) (bounded : h.Bounded) {q : Nat}
    (same : h.ribInfo h.published = some q) : q < h.fresh := by
  obtain ⟨p, published, joined⟩ := Option.bind_eq_some_iff.mp same
  obtain ⟨info, rib, stored⟩ := alive p published
  rw [rib] at joined
  obtain ⟨o, allocated⟩ := Option.isSome_iff_exists.mp (stored q joined)
  exact bounded.info_lt allocated

theorem Alive.allocRib (alive : h.Alive) (bounded : h.Bounded) (info : Option Nat) :
    (h.allocRib info).Alive := by
  intro p published
  obtain ⟨held, rib, stored⟩ := alive p published
  have other : p ≠ h.fresh := Nat.ne_of_lt (bounded.rib_lt rib)
  exact ⟨held, (Function.update_of_ne other _ _).trans rib, stored⟩

/-! ## Creation -/

theorem oldRib_eq (alive : h.Alive) : h.oldRib h.published = some (h.ribInfo h.published) := by
  cases published : h.published with
  | none => rfl
  | some p =>
      obtain ⟨info, rib, -⟩ := alive p published
      simp [oldRib, ribInfo, rib]

theorem oldInfo_eq (alive : h.Alive) : h.oldInfo (h.ribInfo h.published) = some h.base := by
  rw [base, read]
  cases same : h.ribInfo h.published with
  | none => rfl
  | some q =>
      obtain ⟨p, published, joined⟩ := Option.bind_eq_some_iff.mp same
      obtain ⟨info, rib, stored⟩ := alive p published
      rw [rib] at joined
      obtain ⟨o, allocated⟩ := Option.isSome_iff_exists.mp (stored q joined)
      simp [oldInfo, allocated]

theorem ribCreate_eq (alive : h.Alive) :
    ({ h with msg := true }).ribCreate true true h.published =
      some (some h.fresh, h.withNew h.base.next (.store (h.fresh + 1) :: h.log)) := by
  have rib : ({ h with msg := true }).oldRib h.published = some (h.ribInfo h.published) :=
    oldRib_eq alive
  have info : (({ h with msg := true }).allocRib (h.ribInfo h.published)).oldInfo
      (h.ribInfo h.published) = some h.base := oldInfo_eq alive
  simp only [ribCreate, ribInfoCreate, if_true, rib, info, Option.bind_eq_bind, Option.bind_some]
  simp only [allocInfo, allocRib, withNew, Function.update_idem]

@[simp] theorem ribInfo_withNew (o : RibInfoObject) (log : List InfoEvent) :
    (h.withNew o log).ribInfo (some h.fresh) = some (h.fresh + 1) := by
  simp [ribInfo, withNew]

@[simp] theorem read_withNew (o : RibInfoObject) (log : List InfoEvent) :
    (h.withNew o log).read (some h.fresh) = some o := by
  simp [read, withNew, ribInfo]

theorem store_withNew (o : RibInfoObject) (log : List InfoEvent) (f : RibInfo → RibInfo) :
    (h.withNew o log).store (some h.fresh) f =
      some (h.withNew (o.store f) (.store (h.fresh + 1) :: log)) := by
  simp [store, withNew, ribInfo]

/-- What a message stores, it stores into the new `rib_info`. -/
theorem update_withNew (o : RibInfoObject) (log : List InfoEvent) {d : Dpdk} {msg : RibMsg}
    (fits : msg.Fits d) :
    ∃ n, (h.withNew o log).update d msg (some h.fresh) =
      some (h.withNew (msg.apply d o) (List.replicate n (.store (h.fresh + 1)) ++ log)) := by
  rw [update, RibMsg.apply]
  cases msg.patch d with
  | none => exact ⟨0, rfl⟩
  | some f =>
      refine ⟨1, ?_⟩
      simp only [if_pos fits, store_withNew]
      rfl

/-! ## Replacement -/

theorem ribReplace_eq (alive : h.Alive) (new : Option Nat) :
    h.ribReplace new = some (h.replaced new) := by
  cases published : h.published with
  | none => simp [ribReplace, replaced, published, assign, ribInfo]
  | some p =>
      obtain ⟨info, rib, stored⟩ := alive p published
      have ribs : Function.update h.ribs p none =
          fun a => if some a = some p then none else h.ribs a := by
        funext a
        simp [Function.update_apply]
      cases info with
      | none =>
          simp [ribReplace, replaced, published, assign, ribInfo, ribDelete, rib, ribInfoDelete,
            ribs]
      | some q =>
          obtain ⟨o, allocated⟩ := Option.isSome_iff_exists.mp (stored q rfl)
          have infos : Function.update h.infos q none =
              fun a => if some a = some q then none else h.infos a := by
            funext a
            simp [Function.update_apply]
          simp [ribReplace, replaced, published, assign, ribInfo, ribDelete, rib, ribInfoDelete,
            ribs, infos, allocated]

/-- The end of a message. -/
theorem freeMsg_ribReplace_eq (alive : h.Alive) (msg : h.msg = true) (new : Option Nat) :
    h.freeMsg.bind (·.ribReplace new) = some (h.freed.replaced new) := by
  have freed : h.freed.Alive := alive
  rw [freeMsg, if_pos msg, Option.bind_some]
  exact ribReplace_eq freed new

/-! ## The heap at the return -/

/-- The heap after a message that was processed to its end: the new rib is published, the old one
    freed, everything else as it was. -/
structure Next (h : RibHeap) (o : RibInfoObject) (log : List InfoEvent) (h' : RibHeap) : Prop where
  published : h'.published = some h.fresh
  msg : h'.msg = false
  fresh : h.fresh + 2 ≤ h'.fresh
  ribs : ∀ a, h'.ribs a =
    if a = h.fresh then some (some (h.fresh + 1))
    else if some a = h.published then none else h.ribs a
  infos : ∀ q, h'.infos q =
    if q = h.fresh + 1 then some o
    else if some q = h.ribInfo h.published then none else h.infos q
  log : h'.log = .publish (h.fresh + 1) :: log

theorem ribInfo_published_withNew (alive : h.Alive) (bounded : h.Bounded) (o : RibInfoObject)
    (log : List InfoEvent) : (h.withNew o log).ribInfo h.published = h.ribInfo h.published := by
  cases published : h.published with
  | none => rfl
  | some p =>
      have old := alive.published_lt bounded published
      have other : p ≠ h.fresh := Nat.ne_of_lt old
      simp [ribInfo, withNew, Function.update_of_ne other]

theorem Alive.withNew (alive : h.Alive) (bounded : h.Bounded) (o : RibInfoObject)
    (log : List InfoEvent) : (h.withNew o log).Alive := by
  intro p published
  obtain ⟨info, rib, stored⟩ := alive p published
  have other : p ≠ h.fresh := Nat.ne_of_lt (bounded.rib_lt rib)
  refine ⟨info, (Function.update_of_ne other _ _).trans rib, ?_⟩
  intro q same
  obtain ⟨o', allocated⟩ := Option.isSome_iff_exists.mp (stored q same)
  have below := bounded.info_lt allocated
  have info_other : q ≠ h.fresh + 1 := by omega
  change (Function.update h.infos (h.fresh + 1) (some o) q).isSome
  rw [Function.update_of_ne info_other]
  exact stored q same

theorem Bounded.withNew (bounded : h.Bounded) (o : RibInfoObject) (log : List InfoEvent) :
    (h.withNew o log).Bounded where
  ribs := by
    intro a above
    have above : h.fresh + 2 ≤ a := above
    change Function.update h.ribs h.fresh _ a = none
    rw [Function.update_of_ne (by omega)]
    exact bounded.ribs a (by omega)
  infos := by
    intro q above
    have above : h.fresh + 2 ≤ q := above
    change Function.update h.infos (h.fresh + 1) _ q = none
    rw [Function.update_of_ne (by omega)]
    exact bounded.infos q (by omega)

/-- The `rib_info`s once the published one is freed beside the new one. -/
theorem infos_withNew_freed (alive : h.Alive) (bounded : h.Bounded) (o : RibInfoObject)
    (log : List InfoEvent) (q : Nat) :
    (if some q = h.ribInfo h.published then none else (h.withNew o log).infos q) =
      if q = h.fresh + 1 then some o
      else if some q = h.ribInfo h.published then none else h.infos q := by
  by_cases new : q = h.fresh + 1
  · have other : some q ≠ h.ribInfo h.published := by
      intro same
      have below := alive.ribInfo_lt bounded same.symm
      omega
    rw [if_neg other, if_pos new, new]
    exact Function.update_self _ _ _
  · have same : (h.withNew o log).infos q = h.infos q := Function.update_of_ne new _ _
    rw [if_neg new, same]

/-- The new rib takes the place of the published one. -/
theorem next_direct (alive : h.Alive) (bounded : h.Bounded) (o : RibInfoObject)
    (log : List InfoEvent) : h.Next o log ((h.withNew o log).freed.replaced (some h.fresh)) where
  published := rfl
  msg := rfl
  fresh := Nat.le_refl _
  ribs := by
    intro a
    change (if some a = h.published then none else
      Function.update h.ribs h.fresh (some (some (h.fresh + 1))) a) = _
    by_cases new : a = h.fresh
    · have other : some a ≠ h.published := by
        intro same
        exact Nat.ne_of_lt (alive.published_lt bounded same.symm) new
      rw [if_neg other, if_pos new, new, Function.update_self]
    · rw [if_neg new, Function.update_of_ne new]
  infos := by
    intro q
    change (if some q = (h.withNew o log).ribInfo h.published then none else
      (h.withNew o log).infos q) = _
    rw [ribInfo_published_withNew alive bounded]
    exact infos_withNew_freed alive bounded o log q
  log := by
    change ((h.withNew o log).ribInfo (some h.fresh)).toList.map InfoEvent.publish ++ log = _
    rw [ribInfo_withNew]
    rfl

/-- The intermediate rib of a queue change, beside the new one. -/
def withZero (o : RibInfoObject) (log : List InfoEvent) (h : RibHeap) : RibHeap :=
  (h.withNew o log).allocRib none

theorem withZero_ribs (o : RibInfoObject) (log : List InfoEvent) {a : Nat}
    (other : a ≠ h.fresh + 2) : (h.withZero o log).ribs a = (h.withNew o log).ribs a := Function.update_of_ne other _ _

theorem Alive.withZero (alive : h.Alive) (bounded : h.Bounded) (o : RibInfoObject)
    (log : List InfoEvent) : (h.withZero o log).Alive :=
  (alive.withNew bounded o log).allocRib (bounded.withNew o log) none

theorem ribInfo_published_withZero (alive : h.Alive) (bounded : h.Bounded) (o : RibInfoObject)
    (log : List InfoEvent) : (h.withZero o log).ribInfo h.published = h.ribInfo h.published := by
  rw [← ribInfo_published_withNew alive bounded o log]
  cases published : h.published with
  | none => rfl
  | some p =>
      have below := alive.published_lt bounded published
      have other : p ≠ h.fresh + 2 := by omega
      simp [ribInfo, withZero_ribs o log other]

/-- The intermediate rib, once it is published. -/
def zeroed (o : RibInfoObject) (log : List InfoEvent) (h : RibHeap) : RibHeap :=
  ((h.withZero o log).replaced (some (h.fresh + 2))).freed

theorem zeroed_ribs (alive : h.Alive) (bounded : h.Bounded) (o : RibInfoObject)
    (log : List InfoEvent) (a : Nat) : (h.zeroed o log).ribs a =
      if a = h.fresh + 2 then some none
      else if a = h.fresh then some (some (h.fresh + 1))
      else if some a = h.published then none else h.ribs a := by
  change (if some a = h.published then none else (h.withZero o log).ribs a) = _
  by_cases old : some a = h.published
  · have below := alive.published_lt bounded old.symm
    rw [if_pos old, if_neg (by omega), if_neg (by omega), if_pos old]
  · rw [if_neg old, if_neg old]
    by_cases zero : a = h.fresh + 2
    · rw [if_pos zero, zero]
      exact Function.update_self _ _ _
    · rw [if_neg zero, withZero_ribs o log zero]
      exact Function.update_apply _ _ _ _

theorem Alive.zeroed (alive : h.Alive) (bounded : h.Bounded) (o : RibInfoObject)
    (log : List InfoEvent) : (h.zeroed o log).Alive := by
  intro p published
  cases published
  refine ⟨none, ?_, fun q same => by cases same⟩
  rw [zeroed_ribs alive bounded, if_pos rfl]

/-- The new rib takes the place of the intermediate one. -/
theorem next_zeroed (alive : h.Alive) (bounded : h.Bounded) (o : RibInfoObject)
    (log : List InfoEvent) :
    h.Next o log ((h.zeroed o log).replaced (some h.fresh)) where
  published := rfl
  msg := rfl
  fresh := Nat.le_succ _
  ribs := by
    intro a
    change (if some a = some (h.fresh + 2) then none else (h.zeroed o log).ribs a) = _
    simp only [zeroed_ribs alive bounded, Option.some_inj]
    by_cases zero : a = h.fresh + 2
    · have free : h.ribs a = none := bounded.ribs a (by omega)
      have below : a ≠ h.fresh := by omega
      rw [if_pos zero, if_neg below, free, ite_self]
    · rw [if_neg zero, if_neg zero]
  infos := by
    intro q
    have without : (h.zeroed o log).ribInfo (some (h.fresh + 2)) = none := by
      simp [ribInfo, zeroed_ribs alive bounded]
    change (if some q = (h.zeroed o log).ribInfo (some (h.fresh + 2)) then none else
      if some q = (h.withZero o log).ribInfo h.published then none else
        (h.withNew o log).infos q) = _
    rw [without, if_neg (Option.some_ne_none q), ribInfo_published_withZero alive bounded]
    exact infos_withNew_freed alive bounded o log q
  log := by
    have new : (h.zeroed o log).ribInfo (some h.fresh) = some (h.fresh + 1) := by
      simp [ribInfo, zeroed_ribs alive bounded]
    have zero : (h.withZero o log).ribInfo (some (h.fresh + 2)) = none := by
      simp [ribInfo, withZero, allocRib, withNew]
    change ((h.zeroed o log).ribInfo (some h.fresh)).toList.map InfoEvent.publish ++
      (((h.withZero o log).ribInfo (some (h.fresh + 2))).toList.map InfoEvent.publish ++ log) = _
    rw [new, zero]
    rfl

theorem Next.ribInfo {o : RibInfoObject} {log : List InfoEvent} {h' : RibHeap}
    (next : h.Next o log h') : h'.ribInfo h'.published = some (h.fresh + 1) := by
  rw [next.published, RibHeap.ribInfo, Option.bind_some, next.ribs, if_pos rfl]
  rfl

/-! ## A whole message -/

/-- The log after `n` stores into the new `rib_info`. -/
def stored (n : Nat) (h : RibHeap) : List InfoEvent :=
  List.replicate n (.store (h.fresh + 1)) ++ h.log

variable {check : RibInfo → Option Bool} {c : RibCall}

/-- A message whose stores stay inside the `rib_info`. -/
theorem processMessage_eq (check : RibInfo → Option Bool) (alive : h.Alive) (ribOk : c.ribOk = true)
    (infoOk : c.infoOk = true) (fits : c.msg.Fits c.dpdk) :
    ∃ n, h.processMessage check c =
      if c.msg.isQconf then
        (check (h.built c.dpdk c.msg).info).bind fun accepted =>
          if accepted then
            ((h.withNew (h.built c.dpdk c.msg) (h.stored n)).replaceZero c.zeroOk).bind fun h' =>
              h'.freeMsg.bind (·.ribReplace (some h.fresh))
          else some (h.withNew (h.built c.dpdk c.msg) (h.stored n))
      else
        (h.withNew (h.built c.dpdk c.msg) (h.stored n)).freeMsg.bind
          (·.ribReplace (some h.fresh)) := by
  obtain ⟨n, updated⟩ := update_withNew (h := h) h.base.next (.store (h.fresh + 1) :: h.log) fits
  have log : List.replicate n (.store (h.fresh + 1)) ++ .store (h.fresh + 1) :: h.log =
      h.stored (n + 1) := by
    rw [stored, List.replicate_succ', List.append_assoc]
    rfl
  rw [log] at updated
  refine ⟨n + 1, ?_⟩
  simp only [processMessage, ribOk, infoOk, ribCreate_eq alive, Option.bind_eq_bind,
    Option.bind_some, updated, read_withNew]
  rfl

/-- A message whose stores run past the end. -/
theorem processMessage_unfit (alive : h.Alive) (ribOk : c.ribOk = true) (infoOk : c.infoOk = true)
    (unfit : ¬ c.msg.Fits c.dpdk) : h.processMessage check c = none := by
  cases patch : c.msg.patch c.dpdk with
  | none => exact absurd (RibMsg.quiet patch).1 unfit
  | some f =>
      simp only [processMessage, ribOk, infoOk, ribCreate_eq alive, Option.bind_eq_bind,
        Option.bind_some, update, patch, if_neg unfit, Option.bind_none]

/-- Processed to the end. -/
theorem processMessage_next (alive : h.Alive) (bounded : h.Bounded) (ribOk : c.ribOk = true)
    (infoOk : c.infoOk = true) (fits : c.msg.Fits c.dpdk)
    (accepted : c.msg.isQconf = true → check (h.built c.dpdk c.msg).info = some true) :
    ∃ n h', h.processMessage check c = some h' ∧
      h.Next (h.built c.dpdk c.msg) (h.stored n) h' := by
  obtain ⟨n, run⟩ := processMessage_eq check alive ribOk infoOk fits
  have direct : (h.withNew (h.built c.dpdk c.msg) (h.stored n)).freeMsg.bind
      (·.ribReplace (some h.fresh)) =
        some ((h.withNew (h.built c.dpdk c.msg) (h.stored n)).freed.replaced (some h.fresh)) :=
    freeMsg_ribReplace_eq (alive.withNew bounded _ _) rfl _
  refine ⟨n, ?_⟩
  cases kind : c.msg.isQconf with
  | false =>
      rw [kind, if_neg Bool.false_ne_true, direct] at run
      exact ⟨_, run, next_direct alive bounded _ _⟩
  | true =>
      rw [kind, if_pos rfl, accepted kind, Option.bind_some, if_pos rfl] at run
      cases zero : c.zeroOk with
      | false =>
          rw [zero, replaceZero, if_neg Bool.false_ne_true, Option.bind_some, direct] at run
          exact ⟨_, run, next_direct alive bounded _ _⟩
      | true =>
          have intermediate : (h.withNew (h.built c.dpdk c.msg) (h.stored n)).replaceZero true =
              some ((h.withZero (h.built c.dpdk c.msg) (h.stored n)).replaced
                (some (h.fresh + 2))) :=
            ribReplace_eq (alive.withZero bounded _ _) _
          have last : (h.zeroed (h.built c.dpdk c.msg) (h.stored n)).ribReplace (some h.fresh) =
              some ((h.zeroed (h.built c.dpdk c.msg) (h.stored n)).replaced (some h.fresh)) :=
            ribReplace_eq (alive.zeroed bounded _ _) _
          rw [zero, intermediate, Option.bind_some] at run
          exact ⟨_, run.trans last, next_zeroed alive bounded _ _⟩

/-- The return in between. -/
theorem processMessage_rejected (alive : h.Alive) (ribOk : c.ribOk = true)
    (infoOk : c.infoOk = true) (fits : c.msg.Fits c.dpdk) (kind : c.msg.isQconf = true)
    (rejected : check (h.built c.dpdk c.msg).info = some false) :
    ∃ n, h.processMessage check c = some (h.withNew (h.built c.dpdk c.msg) (h.stored n)) := by
  obtain ⟨n, run⟩ := processMessage_eq check alive ribOk infoOk fits
  rw [kind, if_pos rfl, rejected] at run
  exact ⟨n, run⟩

/-- Where `rib_check` leaves its arrays, nothing can be said. -/
theorem processMessage_stray (alive : h.Alive) (ribOk : c.ribOk = true) (infoOk : c.infoOk = true)
    (fits : c.msg.Fits c.dpdk) (kind : c.msg.isQconf = true)
    (stray : check (h.built c.dpdk c.msg).info = none) : h.processMessage check c = none := by
  obtain ⟨n, run⟩ := processMessage_eq check alive ribOk infoOk fits
  rw [kind, if_pos rfl, stray] at run
  exact run

/-- A call that returns either went to the end or returned in between. -/
theorem processMessage_cases (alive : h.Alive) (bounded : h.Bounded) (ribOk : c.ribOk = true)
    (infoOk : c.infoOk = true) {h' : RibHeap} (run : h.processMessage check c = some h') :
    ∃ n,
      ((c.msg.isQconf = true → check (h.built c.dpdk c.msg).info = some true) ∧
        h.Next (h.built c.dpdk c.msg) (h.stored n) h') ∨
      (c.msg.isQconf = true ∧ check (h.built c.dpdk c.msg).info = some false ∧
        h' = h.withNew (h.built c.dpdk c.msg) (h.stored n)) := by
  by_cases fits : c.msg.Fits c.dpdk
  · by_cases accepted : c.msg.isQconf = true → check (h.built c.dpdk c.msg).info = some true
    · obtain ⟨n, last, ends, next⟩ := processMessage_next alive bounded ribOk infoOk fits accepted
      rw [ends] at run
      cases run
      exact ⟨n, .inl ⟨accepted, next⟩⟩
    · obtain ⟨kind, refused⟩ := Classical.not_imp.mp accepted
      cases answer : check (h.built c.dpdk c.msg).info with
      | none =>
          rw [processMessage_stray alive ribOk infoOk fits kind answer] at run
          cases run
      | some verdict =>
          cases verdict with
          | true => exact absurd answer refused
          | false =>
              obtain ⟨n, left⟩ := processMessage_rejected alive ribOk infoOk fits kind answer
              rw [left] at run
              cases run
              exact ⟨n, .inr ⟨kind, rfl, rfl⟩⟩
  · rw [processMessage_unfit alive ribOk infoOk fits] at run
    cases run

end

end RibHeap

end Sdplane
