import Sdplane.L2.Vswitch
import Sdplane.Misc.Runs

/-!
# How the tap handler follows the RIB

The loop of `tap_handler` (`sdplane/tap_handler.c:531-557`) updates the vswitch table when
`rib_ver`, a variable of the loop's body that nothing initialises, is below the version of
the rib. What it holds at the start of an iteration is part of what the iteration meets.
-/

namespace Sdplane

/-- What an iteration meets: the rib that `rcu_dereference` gives, or NULL; the rings; the
    value `rib_ver` happens to have. -/
structure RibObservation where
  rib : Option Rib
  rings : TapRings
  ribVer : BitVec 64

/-- The `rib_info` of the rib, if both are there. -/
def RibObservation.ribInfo (o : RibObservation) : Option RibInfo := o.rib.bind Rib.ribInfo

/-- `rib_ver < rib->rib_info->ver`, the version widened to 64 bits. -/
def RibObservation.newer (o : RibObservation) (info : RibInfo) : Prop :=
  o.ribVer < info.ver.setWidth 64

instance (o : RibObservation) (info : RibInfo) : Decidable (o.newer info) :=
  inferInstanceAs (Decidable (o.ribVer < info.ver.setWidth 64))

/-- The table, with the rib it was last looked at for. -/
structure TapHandlerState where
  vswitch : Vswitch
  observed : Option (RibInfo × TapRings)

/-- An iteration of the loop, as far as it changes the table. -/
def tapHandlerIteration (s : TapHandlerState) (o : RibObservation) : TapHandlerState :=
  match o.ribInfo with
  | none => s
  | some info =>
      { vswitch := if o.newer info then vswitchPortUpdate info o.rings s.vswitch else s.vswitch
        observed := some (info, o.rings) }

/-- The DPDK entries are those of the rib: one for each of its queues with a ring, as many as
    there is room for behind the taps. -/
def Vswitch.HoldsRib (v : Vswitch) (info : RibInfo) (rings : TapRings) : Prop :=
  (v.entries.filter fun p => p.type = .dpdkLcore) =
    (dpdkSlots rings v.taps.length (dpdkQueues info rings)).take (vswitchPortSize - v.taps.length)

/-- The DPDK entries are those of the rib that was observed last. -/
def TapHandlerState.Follows (s : TapHandlerState) : Prop :=
  ∀ info rings, s.observed = some (info, rings) → s.vswitch.HoldsRib info rings

/-- What an iteration with a rib needs: what `rib_ver` holds is older than the rib, or there
    is nothing to update. -/
def RibObservation.Noticed (s : TapHandlerState) (o : RibObservation) : Prop :=
  ∀ info, o.ribInfo = some info → o.newer info ∨ s.vswitch.HoldsRib info o.rings

/-- Every update leaves the entries of its rib. -/
theorem Vswitch.Ok.update_holdsRib {taps : Nat} {v : Vswitch} (ok : v.Ok taps) (info : RibInfo)
    (rings : TapRings) : (vswitchPortUpdate info rings v).HoldsRib info rings := by
  have room := ok.room
  have size := ok.size
  rw [HoldsRib, ok.update_taps info rings, (ok.update_entries info rings).1, List.take_append,
    List.take_of_length_le (by rw [ok.length_taps]; omega), List.filter_append,
    List.filter_eq_nil_iff.mpr, List.nil_append, List.filter_eq_self.mpr]
  · intro p mem
    obtain ⟨k, _, rfl⟩ := List.mem_mapIdx.mp (List.mem_of_mem_take mem)
    simp [dpdkSlot]
  · intro p mem
    have tap := of_decide_eq_true (List.mem_filter.mp mem).2
    simp [tap]

theorem tapHandlerIteration_ok {taps : Nat} {s : TapHandlerState} (ok : s.vswitch.Ok taps)
    (o : RibObservation) : (tapHandlerIteration s o).vswitch.Ok taps := by
  rw [tapHandlerIteration]
  split
  · exact ok
  · next info _ =>
      by_cases newer : o.newer info
      · simpa only [if_pos newer] using ok.update info o.rings
      · simpa only [if_neg newer] using ok

/-- An iteration follows the rib exactly when it notices it. -/
theorem tapHandlerIteration_follows_iff {taps : Nat} {s : TapHandlerState}
    (ok : s.vswitch.Ok taps) (before : s.Follows) (o : RibObservation) :
    (tapHandlerIteration s o).Follows ↔ o.Noticed s := by
  rw [tapHandlerIteration]
  cases seen : o.ribInfo with
  | none => simp [before, RibObservation.Noticed, seen]
  | some info =>
      have last : ∀ v : Vswitch, TapHandlerState.Follows ⟨v, some (info, o.rings)⟩ ↔
          v.HoldsRib info o.rings := by
        intro v
        constructor
        · exact fun follows => follows info o.rings rfl
        · intro holds info' rings' same
          cases same
          exact holds
      have noticed : o.Noticed s ↔ o.newer info ∨ s.vswitch.HoldsRib info o.rings := by
        constructor
        · exact fun h => h info seen
        · intro h info' same
          rw [seen, Option.some.injEq] at same
          exact same ▸ h
      rw [last, noticed]
      by_cases newer : o.newer info
      · rw [if_pos newer]
        exact ⟨fun _ => .inl newer, fun _ => ok.update_holdsRib info o.rings⟩
      · rw [if_neg newer]
        exact ⟨.inr, fun h => h.resolve_left newer⟩

/-- Through a run the table is that of the rib observed last exactly when each iteration that
    observes a rib finds a smaller number in `rib_ver`, or the table as the rib wants it. -/
theorem tapHandler_follows_iff {nbPorts : Nat} {v : Vswitch} (reach : VswitchReachable nbPorts v)
    (os : List RibObservation) :
    Throughout (fun s o => some (tapHandlerIteration s o)) TapHandlerState.Follows ⟨v, none⟩ os ↔
      EachStep (fun s o => some (tapHandlerIteration s o)) (fun s o => o.Noticed s) ⟨v, none⟩ os := by
  have base : ∀ (s : TapHandlerState) o s', s.vswitch.Ok (min nbPorts vswitchPortSize) →
      some (tapHandlerIteration s o) = some s' →
        s'.vswitch.Ok (min nbPorts vswitchPortSize) := by
    intro s o s' ok step
    rw [← Option.some.inj step]
    exact tapHandlerIteration_ok ok o
  have keeps : ∀ (s : TapHandlerState) (o : RibObservation) s',
      s.vswitch.Ok (min nbPorts vswitchPortSize) → s.Follows →
        some (tapHandlerIteration s o) = some s' → (s'.Follows ↔ o.Noticed s) := by
    intro s o s' ok before step
    rw [← Option.some.inj step]
    exact tapHandlerIteration_follows_iff ok before o
  refine throughout_iff_eachStep base keeps os ⟨v, none⟩ reach.ok ?_
  intro info rings none
  cases none

/-- One port, and a rib with a queue of it: an empty table is right for no observation
    before. -/
theorem tapHandler_follows_oneQueue :
    Throughout (fun s o => some (tapHandlerIteration s o)) TapHandlerState.Follows
      ⟨tapHandlerStart 1 (fun _ => 5) .zero, none⟩
      [⟨none, ringsOfPort, 7⟩, ⟨some ⟨some ribOneQueue⟩, ringsOfPort, 0⟩] := by
  refine (tapHandler_follows_iff (.start fun _ => 5) _).mpr ?_
  intro s first
  constructor
  · intro info seen
    cases seen
  · refine fun s' second => ⟨fun info seen => ?_, trivial⟩
    cases seen
    exact .inl (by decide)

/-- What an earlier call left on the stack may be as large as it likes. -/
theorem tapHandler_follows_not :
    ¬Throughout (fun s o => some (tapHandlerIteration s o)) TapHandlerState.Follows
      ⟨tapHandlerStart 1 (fun _ => 5) .zero, none⟩
      [⟨some ⟨some ribOneQueue⟩, ringsOfPort, BitVec.allOnes 64⟩] := by
  intro all
  have follows := all.2 _ rfl ribOneQueue ringsOfPort rfl
  have empty := congrArg List.length follows
  revert empty
  decide

end Sdplane
