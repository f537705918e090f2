import Sdplane.Misc.Runs
import Sdplane.Rib.Bounds

/-!
# The ribs on the heap

`rib_manager_process_message` with every `struct rib` and `struct rib_info` it allocates, copies,
stores into and frees, and with the message. No address is given out twice, and an address that
is not allocated is one whose use is undefined: then, as for an index past an array and for a
NULL pointer that is followed, the result is `none`.
-/

namespace Sdplane

/-! ## What is allocated (`rib.h`) -/

/-- `struct switch_port`. -/
structure SwitchPort where
  type : Nat
  portid : Nat

/-- `struct vswitch_conf`. -/
structure VswitchConf where
  portSize : Nat
  port : Nat → SwitchPort

/-- A whole `struct rib_info`, with the fields the manager only copies; `tapif` are the
    `sockfd`s. -/
structure RibInfoObject where
  info : RibInfo
  tapifSize : BitVec 8
  vswitchSize : BitVec 8
  tapif : Nat → Int
  vswitch : Nat → VswitchConf

namespace RibInfoObject

/-- As `memset` leaves it. -/
def zero : RibInfoObject := ⟨.zero, 0, 0, fun _ => 0, fun _ => ⟨0, fun _ => ⟨0, 0⟩⟩⟩

/-- A store into the fields of `RibInfo`. -/
def store (f : RibInfo → RibInfo) (o : RibInfoObject) : RibInfoObject := { o with info := f o.info }

/-- `new->ver++`. -/
def next (o : RibInfoObject) : RibInfoObject :=
  o.store fun info => { info with ver := info.ver + 1 }

end RibInfoObject

/-- What happens to a `rib_info`: it is stored into, or a rib with it is published. -/
inductive InfoEvent where
  | store (q : Nat)
  | publish (q : Nat)

/-- The allocated `struct rib`s with their `rib_info`, which may be NULL, the allocated
    `struct rib_info`s, the published pointer, whether the message is still allocated, and what
    happened to the `rib_info`s, the last event first. -/
structure RibHeap where
  ribs : Nat → Option (Option Nat)
  infos : Nat → Option RibInfoObject
  fresh : Nat
  published : Option Nat
  msg : Bool
  log : List InfoEvent

namespace RibHeap

/-- Before the first message. -/
def empty : RibHeap := ⟨fun _ => none, fun _ => none, 0, none, false, []⟩

/-- `rib->rib_info`, where there is one. -/
def ribInfo (rib : Option Nat) (h : RibHeap) : Option Nat := rib.bind fun p => (h.ribs p).join

/-- `*rib->rib_info`. -/
def read (rib : Option Nat) (h : RibHeap) : Option RibInfoObject := (h.ribInfo rib).bind h.infos

/-! ## Creation and release -/

/-- `malloc (sizeof (struct rib_info))`, and what is put there. -/
def allocInfo (o : RibInfoObject) (h : RibHeap) : RibHeap where
  ribs := h.ribs
  infos := Function.update h.infos h.fresh (some o)
  fresh := h.fresh + 1
  published := h.published
  msg := h.msg
  log := .store h.fresh :: h.log

/-- `malloc (sizeof (struct rib))`, and what is put there. -/
def allocRib (info : Option Nat) (h : RibHeap) : RibHeap where
  ribs := Function.update h.ribs h.fresh (some info)
  infos := h.infos
  fresh := h.fresh + 1
  published := h.published
  msg := h.msg
  log := h.log

/-- What `rib_info_create` copies: zeros without an old `rib_info`. -/
def oldInfo (old : Option Nat) (h : RibHeap) : Option RibInfoObject :=
  match old with
  | none => some .zero
  | some q => h.infos q

/-- What `rib_create` copies. -/
def oldRib (old : Option Nat) (h : RibHeap) : Option (Option Nat) :=
  match old with
  | none => some none
  | some p => h.ribs p

/-- `rib_info_create`; `ok` says whether `malloc` succeeds. -/
def ribInfoCreate (ok : Bool) (old : Option Nat) (h : RibHeap) : Option (Option Nat × RibHeap) :=
  if ok then do
    let copied ← h.oldInfo old
    some (some h.fresh, h.allocInfo copied.next)
  else some (none, h)

/-- `rib_create`. The `rib_info` it gets may be NULL, too. -/
def ribCreate (ribOk infoOk : Bool) (old : Option Nat) (h : RibHeap) :
    Option (Option Nat × RibHeap) :=
  if ribOk then do
    let copied ← h.oldRib old
    let (info, h') ← (h.allocRib copied).ribInfoCreate infoOk copied
    some (some h.fresh, { h' with ribs := Function.update h'.ribs h.fresh (some info) })
  else some (none, h)

/-- `rib_info_delete`; NULL is let be. -/
def ribInfoDelete (old : Option Nat) (h : RibHeap) : Option RibHeap :=
  match old with
  | none => some h
  | some q => do
      let _ ← h.infos q
      some { h with infos := Function.update h.infos q none }

/-- `rib_delete`. -/
def ribDelete (old : Nat) (h : RibHeap) : Option RibHeap := do
  let info ← h.ribs old
  let h ← h.ribInfoDelete info
  some { h with ribs := Function.update h.ribs old none }

/-- `rcu_assign_pointer (rcu_global_ptr_rib, new)`. -/
def assign (new : Option Nat) (h : RibHeap) : RibHeap :=
  { h with published := new, log := (h.ribInfo new).toList.map .publish ++ h.log }

/-- `rib_replace`. -/
def ribReplace (new : Option Nat) (h : RibHeap) : Option RibHeap :=
  match h.published with
  | none => some (h.assign new)
  | some old => (h.assign new).ribDelete old

/-- The intermediate rib of a queue change, where `malloc` succeeds. -/
def replaceZero (ok : Bool) (h : RibHeap) : Option RibHeap :=
  if ok then (h.allocRib none).ribReplace (some h.fresh) else some h

/-- `free (msgp)`. -/
def freeMsg (h : RibHeap) : Option RibHeap := if h.msg then some { h with msg := false } else none

/-- A store through `new->rib_info`. -/
def store (new : Option Nat) (f : RibInfo → RibInfo) (h : RibHeap) : Option RibHeap := do
  let q ← h.ribInfo new
  let o ← h.infos q
  some { h with infos := Function.update h.infos q (some (o.store f)), log := .store q :: h.log }

end RibHeap

/-! ## A message -/

/-- What a message has the manager store into the new `rib_info`; without it, the `rib_info` is
    not looked at. -/
def RibMsg.patch (d : Dpdk) : RibMsg → Option (RibInfo → RibInfo)
  | portStatus => some (updatePortStatus d)
  | ethLink => none
  | qconf q => some (mergeQconf d q)
  | qconf2 => some (mergeQconf2 d)
  | txrxDesc portid nbRxd nbTxd => some (updateTxrxDesc portid nbRxd nbTxd)
  | unknown => none

/-- `rx_queue_list` and `port` have room for what the message has stored into them. -/
def RibMsg.Fits (d : Dpdk) : RibMsg → Prop
  | qconf q => ∀ i < d.lcoreCount, (q i).length ≤ maxRxQueuePerLcore
  | txrxDesc portid _ _ => portid < rteMaxEthports
  | _ => True

instance (d : Dpdk) : (msg : RibMsg) → Decidable (msg.Fits d)
  | .portStatus => inferInstanceAs (Decidable True)
  | .ethLink => inferInstanceAs (Decidable True)
  | .qconf q => inferInstanceAs (Decidable (∀ i < d.lcoreCount, (q i).length ≤ maxRxQueuePerLcore))
  | .qconf2 => inferInstanceAs (Decidable True)
  | .txrxDesc portid _ _ => inferInstanceAs (Decidable (portid < rteMaxEthports))
  | .unknown => inferInstanceAs (Decidable True)

/-- A call of `rib_manager_process_message`: the message, what DPDK says at the time, and which
    of the calls of `malloc`, for the rib, its `rib_info` and the intermediate rib, succeed. -/
structure RibCall where
  dpdk : Dpdk
  msg : RibMsg
  ribOk : Bool
  infoOk : Bool
  zeroOk : Bool

instance : (a : ArrayIndex) → Decidable a.Inside
  | .threadQconf lcore => inferInstanceAs (Decidable (lcore < rteMaxLcore))
  | .portQconf i => inferInstanceAs (Decidable (i < maxPortQconf))
  | .portNrxq port => inferInstanceAs (Decidable (port < rteMaxEthports))
  | .ringUp port queue =>
      inferInstanceAs (Decidable (port < rteMaxEthports ∧ queue < maxRxQueuePerLcore))
  | .ringDn port queue =>
      inferInstanceAs (Decidable (port < rteMaxEthports ∧ queue < maxRxQueuePerLcore))

theorem insideAll_dev (op : DevOp) (acts : List CheckAct) :
    InsideAll (.dev op :: acts) ↔ InsideAll acts := by
  simp [InsideAll]

instance decidableInsideAll : (acts : List CheckAct) → Decidable (InsideAll acts)
  | [] => isTrue insideAll_nil
  | .index a :: acts =>
      have := decidableInsideAll acts
      decidable_of_iff _ (insideAll_index a acts).symm
  | .dev op :: acts =>
      have := decidableInsideAll acts
      decidable_of_iff _ (insideAll_dev op acts).symm

/-- `rib_check`: whether it accepts, as long as it stays inside its arrays. -/
def ribCheckAnswer (d : Dpdk) (info : RibInfo) : Option Bool :=
  if InsideAll (ribCheckRun d info).1 then some (decide (0 ≤ (ribCheckRun d info).2)) else none

/-- What is returned says whether the count went through. -/
theorem ribCheckRun_result (d : Dpdk) (info : RibInfo) :
    0 ≤ (ribCheckRun d info).2 ↔ (ribCheck info).isSome := by
  have negative : ¬ (0 : Int) ≤ -1 := by decide
  cases checked : ribCheck info with
  | none =>
      rw [ribCheckRun_of_none d checked]
      exact iff_of_false negative Bool.false_ne_true
  | some nrxq =>
      rw [ribCheckRun_of_some d checked]
      exact iff_of_true (Int.le_refl 0) rfl

theorem ribCheckAnswer_eq_some {d : Dpdk} {info : RibInfo} {accepted : Bool}
    (answer : ribCheckAnswer d info = some accepted) : (ribCheck info).isSome = accepted := by
  rw [ribCheckAnswer] at answer
  split at answer
  · rw [Option.some_inj] at answer
    rw [← answer, Bool.eq_iff_iff, decide_eq_true_iff]
    exact (ribCheckRun_result d info).symm
  · cases answer

namespace RibHeap

/-- The `switch` over the type of the message, up to `rib_check`. -/
def update (d : Dpdk) (msg : RibMsg) (new : Option Nat) (h : RibHeap) : Option RibHeap :=
  match msg.patch d with
  | none => some h
  | some f => if msg.Fits d then h.store new f else none

/-- `rib_manager_process_message`, when `rib_check` answers as `check` does. -/
def processMessage (check : RibInfo → Option Bool) (c : RibCall) (h : RibHeap) :
    Option RibHeap := do
  let (new, h) ← { h with msg := true }.ribCreate c.ribOk c.infoOk h.published
  let h ← h.update c.dpdk c.msg new
  if c.msg.isQconf then
    let o ← h.read new
    let accepted ← check o.info
    if accepted then
      let h ← h.replaceZero c.zeroOk
      let h ← h.freeMsg
      h.ribReplace new
    else
      -- the return in between: neither the message nor the new rib is freed
      some h
  else
    let h ← h.freeMsg
    h.ribReplace new

/-! ## Addresses -/

/-- Nothing is allocated that was not given out. -/
structure Bounded (h : RibHeap) : Prop where
  ribs : ∀ a, h.fresh ≤ a → h.ribs a = none
  infos : ∀ a, h.fresh ≤ a → h.infos a = none

/-- The published rib is allocated, and so is its `rib_info` where it has one. -/
def Alive (h : RibHeap) : Prop :=
  ∀ p, h.published = some p → ∃ info, h.ribs p = some info ∧ ∀ q, info = some q → (h.infos q).isSome

section

variable {h h' : RibHeap}

theorem Bounded.rib_lt (bounded : h.Bounded) {a : Nat} {info : Option Nat}
    (allocated : h.ribs a = some info) : a < h.fresh := by
  by_contra above
  rw [bounded.ribs a (Nat.not_lt.mp above)] at allocated
  cases allocated

theorem Bounded.info_lt (bounded : h.Bounded) {q : Nat} {o : RibInfoObject}
    (allocated : h.infos q = some o) : q < h.fresh := by
  by_contra above
  rw [bounded.infos q (Nat.not_lt.mp above)] at allocated
  cases allocated

theorem empty_bounded : empty.Bounded where
  ribs _ _ := rfl
  infos _ _ := rfl

theorem Bounded.allocRib (bounded : h.Bounded) (info : Option Nat) : (h.allocRib info).Bounded where
  ribs := by
    intro a above
    have above : h.fresh + 1 ≤ a := above
    change Function.update h.ribs h.fresh (some info) a = none
    rw [Function.update_of_ne (by omega)]
    exact bounded.ribs a (by omega)
  infos a above := bounded.infos a (Nat.le_of_succ_le above)

theorem Bounded.allocInfo (bounded : h.Bounded) (o : RibInfoObject) : (h.allocInfo o).Bounded where
  ribs a above := bounded.ribs a (Nat.le_of_succ_le above)
  infos := by
    intro a above
    have above : h.fresh + 1 ≤ a := above
    change Function.update h.infos h.fresh (some o) a = none
    rw [Function.update_of_ne (by omega)]
    exact bounded.infos a (by omega)

theorem Bounded.setRib (bounded : h.Bounded) {p : Nat} {v : Option (Option Nat)}
    (known : p < h.fresh ∨ v = none) : ({ h with ribs := Function.update h.ribs p v }).Bounded where
  ribs := by
    intro a above
    have above : h.fresh ≤ a := above
    change Function.update h.ribs p v a = none
    by_cases same : a = p
    · rw [same, Function.update_self]
      exact known.resolve_left (by omega)
    · rw [Function.update_of_ne same]
      exact bounded.ribs a above
  infos := bounded.infos

theorem Bounded.setInfo (bounded : h.Bounded) {q : Nat} {v : Option RibInfoObject}
    (known : q < h.fresh ∨ v = none) :
    ({ h with infos := Function.update h.infos q v }).Bounded where
  ribs := bounded.ribs
  infos := by
    intro a above
    have above : h.fresh ≤ a := above
    change Function.update h.infos q v a = none
    by_cases same : a = q
    · rw [same, Function.update_self]
      exact known.resolve_left (by omega)
    · rw [Function.update_of_ne same]
      exact bounded.infos a above

theorem Bounded.ribInfoCreate (bounded : h.Bounded) {ok : Bool} {old info : Option Nat}
    (run : h.ribInfoCreate ok old = some (info, h')) : h'.Bounded ∧ h.fresh ≤ h'.fresh := by
  rw [RibHeap.ribInfoCreate] at run
  split at run
  · obtain ⟨copied, -, same⟩ := Option.bind_eq_some_iff.mp run
    cases same
    exact ⟨bounded.allocInfo _, Nat.le_succ _⟩
  · cases run
    exact ⟨bounded, Nat.le_refl _⟩

theorem Bounded.ribCreate (bounded : h.Bounded) {ribOk infoOk : Bool} {old new : Option Nat}
    (run : h.ribCreate ribOk infoOk old = some (new, h')) : h'.Bounded := by
  rw [RibHeap.ribCreate] at run
  split at run
  · obtain ⟨copied, -, run⟩ := Option.bind_eq_some_iff.mp run
    obtain ⟨⟨info, mid⟩, created, same⟩ := Option.bind_eq_some_iff.mp run
    cases same
    obtain ⟨mid_bounded, grown⟩ := (bounded.allocRib copied).ribInfoCreate created
    exact mid_bounded.setRib (.inl grown)
  · cases run
    exact bounded

theorem Bounded.ribDelete (bounded : h.Bounded) {old : Nat} (run : h.ribDelete old = some h') :
    h'.Bounded := by
  obtain ⟨info, -, run⟩ := Option.bind_eq_some_iff.mp run
  obtain ⟨mid, deleted, same⟩ := Option.bind_eq_some_iff.mp run
  cases same
  have mid_bounded : mid.Bounded := by
    cases info with
    | none =>
        cases deleted
        exact bounded
    | some q =>
        obtain ⟨o, -, same⟩ := Option.bind_eq_some_iff.mp deleted
        cases same
        exact bounded.setInfo (.inr rfl)
  exact mid_bounded.setRib (.inr rfl)

theorem Bounded.assign (bounded : h.Bounded) (new : Option Nat) : (h.assign new).Bounded :=
  ⟨bounded.ribs, bounded.infos⟩

theorem Bounded.ribReplace (bounded : h.Bounded) {new : Option Nat}
    (run : h.ribReplace new = some h') : h'.Bounded := by
  rw [RibHeap.ribReplace] at run
  split at run
  · cases run
    exact bounded.assign new
  · exact (bounded.assign new).ribDelete run

theorem Bounded.replaceZero (bounded : h.Bounded) {ok : Bool}
    (run : h.replaceZero ok = some h') : h'.Bounded := by
  rw [RibHeap.replaceZero] at run
  split at run
  · exact (bounded.allocRib none).ribReplace run
  · cases run
    exact bounded

theorem Bounded.freeMsg (bounded : h.Bounded) (run : h.freeMsg = some h') : h'.Bounded := by
  rw [RibHeap.freeMsg] at run
  split at run
  · cases run
    exact ⟨bounded.ribs, bounded.infos⟩
  · cases run

theorem Bounded.update (bounded : h.Bounded) {d : Dpdk} {msg : RibMsg} {new : Option Nat}
    (run : h.update d msg new = some h') : h'.Bounded := by
  rw [RibHeap.update] at run
  split at run
  · cases run
    exact bounded
  · rename_i f _
    split at run
    · obtain ⟨q, -, run⟩ := Option.bind_eq_some_iff.mp run
      obtain ⟨o, allocated, same⟩ := Option.bind_eq_some_iff.mp run
      cases same
      have known : q < h.fresh ∨ some (o.store f) = none := .inl (bounded.info_lt allocated)
      exact ⟨(bounded.setInfo known).ribs, (bounded.setInfo known).infos⟩
    · cases run

theorem Bounded.processMessage (bounded : h.Bounded) {check : RibInfo → Option Bool} {c : RibCall}
    (run : h.processMessage check c = some h') : h'.Bounded := by
  obtain ⟨⟨new, created⟩, create, run⟩ := Option.bind_eq_some_iff.mp run
  obtain ⟨updated, update, run⟩ := Option.bind_eq_some_iff.mp run
  have called : ({ h with msg := true }).Bounded := ⟨bounded.ribs, bounded.infos⟩
  have updated_bounded := (called.ribCreate create).update update
  split at run
  · obtain ⟨o, -, run⟩ := Option.bind_eq_some_iff.mp run
    obtain ⟨accepted, -, run⟩ := Option.bind_eq_some_iff.mp run
    split at run
    · obtain ⟨zeroed, zero, run⟩ := Option.bind_eq_some_iff.mp run
      obtain ⟨freed, free, run⟩ := Option.bind_eq_some_iff.mp run
      exact ((updated_bounded.replaceZero zero).freeMsg free).ribReplace run
    · cases run
      exact updated_bounded
  · obtain ⟨freed, free, run⟩ := Option.bind_eq_some_iff.mp run
    exact (updated_bounded.freeMsg free).ribReplace run

end

end RibHeap

end Sdplane
