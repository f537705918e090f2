import Sdplane.L2.TapHandler
import Sdplane.Rib.Types

/-!
# The vswitch table

`vswitch0` (`sdplane/sdplane.h:27-50`), how `tap_handler` puts a tap for each port into it
when it starts (`sdplane/tap_handler.c:483-513`), and how `vswitch_port_update` replaces the
DPDK entries by those of a rib (`sdplane/tap_handler.c:56-173`).
-/

namespace Sdplane

/-- `struct vswitch_port`, with all its fields; the rings are pointers. -/
structure VswitchSlot where
  id : Nat
  type : VswitchPortType
  name : Option String
  sockfd : Int
  lcoreId : Nat
  dpdkPortId : Int
  dpdkQueueId : Int
  ringUp : Option Nat
  ringDown : Option Nat
  deriving DecidableEq

/-- A slot `memset` cleared. -/
def VswitchSlot.zero : VswitchSlot := ⟨0, .none, none, 0, 0, 0, 0, none, none⟩

/-- `VSWITCH_PORT_SIZE`. -/
def vswitchPortSize : Nat := 16

/-- `struct vswitch`. -/
structure Vswitch where
  limit : Nat
  size : Nat
  port : Nat → VswitchSlot

/-- `vswitch0` before anything ran. -/
def Vswitch.zero : Vswitch := ⟨0, 0, fun _ => .zero⟩

/-- The slots in use. -/
def Vswitch.entries (v : Vswitch) : List VswitchSlot := (List.range v.size).map v.port

/-- A store into a slot. -/
def Vswitch.store (v : Vswitch) (i : Nat) (p : VswitchSlot) : Vswitch :=
  { v with port := fun j => if j = i then p else v.port j }

/-- `memmove` of `n` slots from `i + 1` to `i`. -/
def Vswitch.moveDown (v : Vswitch) (i n : Nat) : Vswitch :=
  { v with port := fun j => if i ≤ j ∧ j < i + n then v.port (j + 1) else v.port j }

/-- The round of the removal loop at slot `i`. -/
def Vswitch.removeRound (i : Nat) (v : Vswitch) : Vswitch :=
  if (v.port i).type = .dpdkLcore then
    let v :=
      if i + 1 < v.size then v.moveDown i (v.size - (i + 1)) else v.store i .zero
    { v with size := v.size - 1 }
  else v

/-- The removal loop, from slot `n - 1` down. -/
def Vswitch.removeDpdk : Nat → Vswitch → Vswitch
  | 0, v => v
  | n + 1, v => Vswitch.removeDpdk n (v.removeRound n)

/-- `ring_up[][]` and `ring_dn[][]`. -/
structure TapRings where
  up : Nat → Nat → Option Nat
  dn : Nat → Nat → Option Nat

/-- The round of the insertion loop for a queue of an lcore. The slot keeps the `sockfd` it
    had before. -/
def Vswitch.insertQueue (rings : TapRings) (lcoreId : Nat) (v : Vswitch) (q : PortQueueConf) :
    Vswitch :=
  match rings.up q.portId q.queueId with
  | none => v
  | some up =>
      if v.size < v.limit then
        let v := v.store v.size
          { v.port v.size with
            id := v.size
            type := .dpdkLcore
            dpdkPortId := q.portId
            dpdkQueueId := q.queueId
            name := some s!"ring_up[port-{q.portId}][queue-{q.queueId}]"
            lcoreId := lcoreId
            ringUp := some up
            ringDown := rings.dn q.portId q.queueId }
        { v with size := v.size + 1 }
      else v

/-- `vswitch_port_update`, for a rib with this `rib_info`. -/
def vswitchPortUpdate (rib : RibInfo) (rings : TapRings) (v : Vswitch) : Vswitch :=
  (List.range rteMaxLcore).foldl
    (fun v lcoreId => (rib.lcoreQconf lcoreId).foldl (Vswitch.insertQueue rings lcoreId) v)
    (v.removeDpdk v.size)

/-- The round of the start for a port whose tap is open at `fd`; a slot keeps the `lcore_id`
    and the rings it had before. -/
def Vswitch.insertTap (v : Vswitch) (portId : Nat) (fd : Int) : Vswitch :=
  if v.size < v.limit then
    let v := v.store v.size
      { v.port v.size with
        id := v.size
        type := .linuxTap
        name := some s!"port-dpdk{portId}"
        sockfd := fd
        dpdkPortId := -1
        dpdkQueueId := -1 }
    { v with size := v.size + 1 }
  else v

/-- The start of `tap_handler`. What `memset` clears is as long as a pointer: `limit` and
    `size`, not the slots. -/
def tapHandlerStart (nbPorts : Nat) (fds : Nat → Int) (v : Vswitch) : Vswitch :=
  (List.range nbPorts).foldl (fun v portId => v.insertTap portId (fds portId))
    { v with limit := vswitchPortSize, size := 0 }

/-- The tables of a program with `nbPorts` ports: the handler starts, updates the table for
    ribs of any kind, and may be stopped and started again. -/
inductive VswitchReachable (nbPorts : Nat) : Vswitch → Prop
  | start (fds : Nat → Int) : VswitchReachable nbPorts (tapHandlerStart nbPorts fds .zero)
  | restart {v : Vswitch} (fds : Nat → Int) (before : VswitchReachable nbPorts v) :
      VswitchReachable nbPorts (tapHandlerStart nbPorts fds v)
  | update {v : Vswitch} (rib : RibInfo) (rings : TapRings) (before : VswitchReachable nbPorts v) :
      VswitchReachable nbPorts (vswitchPortUpdate rib rings v)

/-! ## Slots and entries -/

@[simp] theorem Vswitch.store_size (v : Vswitch) (i : Nat) (p : VswitchSlot) :
    (v.store i p).size = v.size := rfl

@[simp] theorem Vswitch.moveDown_size (v : Vswitch) (i n : Nat) :
    (v.moveDown i n).size = v.size := rfl

theorem Vswitch.length_entries (v : Vswitch) : v.entries.length = v.size := by
  rw [entries, List.length_map, List.length_range]

/-- A slot in use is the entry at its place. -/
theorem Vswitch.entries_getElem? (v : Vswitch) (j : Nat) :
    v.entries[j]? = if j < v.size then some (v.port j) else none := by
  rw [entries, List.getElem?_map]
  split
  · next inside => rw [List.getElem?_range inside, Option.map_some]
  · next outside =>
      rw [List.getElem?_eq_none (by rw [List.length_range]; omega), Option.map_none]

/-- A slot written behind the entries, and counted, is one more entry. -/
theorem Vswitch.entries_store (v : Vswitch) (p : VswitchSlot) :
    ({ v.store v.size p with size := v.size + 1 } : Vswitch).entries = v.entries ++ [p] := by
  rw [entries, List.range_succ, List.map_append, List.map_singleton]
  congr 1
  · refine List.map_congr_left fun j mem => ?_
    exact if_neg (Nat.ne_of_lt (List.mem_range.mp mem))
  · simp [store]

/-! ## Removal -/

/-- A table whose slots hold the elements of a list. -/
theorem Vswitch.entries_eq {v : Vswitch} {l : List VswitchSlot} (size : v.size = l.length)
    (slots : ∀ j < l.length, l[j]? = some (v.port j)) : v.entries = l := by
  refine List.ext_getElem? fun j => ?_
  rw [entries_getElem?, size]
  split
  · next inside => exact (slots j inside).symm
  · next outside => rw [List.getElem?_eq_none (by omega)]

theorem Vswitch.port_of_entries {v : Vswitch} {l : List VswitchSlot} (entries : v.entries = l)
    {j : Nat} (inside : j < v.size) : l[j]? = some (v.port j) := by
  rw [← entries, entries_getElem?, if_pos inside]

/-- The round at a slot takes its entry out if it is a DPDK one. -/
theorem Vswitch.removeRound_entries {v : Vswitch} {front back : List VswitchSlot}
    {p : VswitchSlot} (split : v.entries = front ++ p :: back) :
    (v.removeRound front.length).entries =
      if p.type = .dpdkLcore then front ++ back else v.entries := by
  have size : v.size = front.length + (1 + back.length) := by
    rw [← v.length_entries, split, List.length_append, List.length_cons]
    omega
  have here : v.port front.length = p := by
    have := port_of_entries split (j := front.length) (by omega)
    rw [List.getElem?_append_right (le_refl _), Nat.sub_self, List.getElem?_cons_zero] at this
    exact (Option.some.inj this).symm
  have front_slot : ∀ j < front.length, (front ++ back)[j]? = some (v.port j) := by
    intro j before
    have := port_of_entries split (j := j) (by omega)
    rwa [List.getElem?_append_left before] at this ⊢
  rw [removeRound, here]
  split_ifs with dpdk moved
  · -- the entries behind it move down
    refine entries_eq ?_ fun j inside => ?_
    · simp only [moveDown_size, List.length_append]
      omega
    · rw [List.length_append] at inside
      simp only [moveDown]
      by_cases before : j < front.length
      · rw [if_neg (by omega), front_slot j before]
      · have next := port_of_entries split (j := j + 1) (by omega)
        rw [List.getElem?_append_right (by omega),
          show j + 1 - front.length = (j - front.length) + 1 by omega,
          List.getElem?_cons_succ] at next
        rw [if_pos (by omega), List.getElem?_append_right (by omega), next]
  · -- it is the last one
    refine entries_eq ?_ fun j inside => ?_
    · simp only [store_size, List.length_append]
      omega
    · rw [List.length_append] at inside
      simp only [store]
      rw [if_neg (by omega), front_slot j (by omega)]
  · rfl

/-- The loop leaves what is not a DPDK entry, in its order. -/
theorem Vswitch.removeDpdk_entries {v : Vswitch} {front back : List VswitchSlot} {n : Nat}
    (length : front.length = n) (split : v.entries = front ++ back) :
    (v.removeDpdk n).entries = front.filter (fun p => p.type ≠ .dpdkLcore) ++ back := by
  induction n generalizing v front back with
  | zero => rw [List.eq_nil_of_length_eq_zero length] at split ⊢; exact split
  | succ n ih =>
      obtain ⟨front, p, rfl⟩ : ∃ front' p, front = front' ++ [p] := by
        rw [← List.dropLast_concat_getLast (l := front) (by rintro rfl; simp at length)]
        exact ⟨_, _, rfl⟩
      rw [List.length_append, List.length_singleton, Nat.add_right_cancel_iff] at length
      rw [List.append_assoc, List.singleton_append] at split
      have round := removeRound_entries split
      rw [length] at round
      rw [removeDpdk, List.filter_append]
      by_cases dpdk : p.type = .dpdkLcore
      · rw [if_pos dpdk] at round
        rw [ih length round]
        simp [dpdk]
      · rw [if_neg dpdk, split] at round
        rw [ih length round]
        simp [dpdk]

/-- The taps of a handler with `taps` ports stand in front, and no other slot has ever had a
    descriptor. -/
structure Vswitch.TapsFirst (taps : Nat) (v : Vswitch) : Prop where
  tap : ∀ i < taps, (v.port i).type = .linuxTap
  noFd : ∀ i, taps ≤ i → (v.port i).sockfd = 0

theorem Vswitch.TapsFirst.le_of_dpdk {taps i : Nat} {v : Vswitch} (first : v.TapsFirst taps)
    (dpdk : (v.port i).type = .dpdkLcore) : taps ≤ i := by
  by_contra before
  rw [first.tap i (by omega)] at dpdk
  cases dpdk

/-- Nothing in front of the DPDK entries moves. -/
theorem Vswitch.removeRound_taps {taps i : Nat} {v : Vswitch} (first : v.TapsFirst taps) :
    (v.removeRound i).TapsFirst taps ∧ (v.removeRound i).limit = v.limit ∧
      ∀ j < taps, (v.removeRound i).port j = v.port j := by
  rw [removeRound]
  split_ifs with dpdk moved
  · have behind := first.le_of_dpdk dpdk
    have same : ∀ j < taps, (v.moveDown i (v.size - (i + 1))).port j = v.port j := by
      intro j before
      simp only [moveDown]
      rw [if_neg (by omega)]
    refine ⟨⟨fun j before => (congrArg VswitchSlot.type (same j before)).trans
      (first.tap j before), fun j after => ?_⟩, rfl, same⟩
    simp only [moveDown]
    split
    · exact first.noFd (j + 1) (by omega)
    · exact first.noFd j after
  · have behind := first.le_of_dpdk dpdk
    have same : ∀ j < taps, (v.store i .zero).port j = v.port j := by
      intro j before
      simp only [store]
      rw [if_neg (by omega)]
    refine ⟨⟨fun j before => (congrArg VswitchSlot.type (same j before)).trans
      (first.tap j before), fun j after => ?_⟩, rfl, same⟩
    simp only [store]
    split
    · rfl
    · exact first.noFd j after
  · exact ⟨first, rfl, fun _ _ => rfl⟩

theorem Vswitch.removeDpdk_taps {taps n : Nat} {v : Vswitch} (first : v.TapsFirst taps) :
    (v.removeDpdk n).TapsFirst taps ∧ (v.removeDpdk n).limit = v.limit ∧
      ∀ j < taps, (v.removeDpdk n).port j = v.port j := by
  induction n generalizing v with
  | zero => exact ⟨first, rfl, fun _ _ => rfl⟩
  | succ n ih =>
      obtain ⟨round, limit, same⟩ := removeRound_taps (i := n) first
      obtain ⟨rest, limit', same'⟩ := ih round
      exact ⟨rest, limit'.trans limit, fun j before => (same' j before).trans (same j before)⟩

/-! ## Insertion -/

/-- A queue that gets an entry: its lcore, the queue, the ring towards the tap. -/
structure DpdkQueue where
  lcoreId : Nat
  conf : PortQueueConf
  ringUp : Nat

/-- The queues of a rib that have a ring, in the order of the lcores and of their lists. -/
def dpdkQueues (rib : RibInfo) (rings : TapRings) : List DpdkQueue :=
  (List.range rteMaxLcore).flatMap fun lcoreId =>
    (rib.lcoreQconf lcoreId).filterMap fun q =>
      (rings.up q.portId q.queueId).map fun up => ⟨lcoreId, q, up⟩

/-- The entry of a queue at slot `i`. -/
def dpdkSlot (rings : TapRings) (i : Nat) (q : DpdkQueue) : VswitchSlot where
  id := i
  type := .dpdkLcore
  name := some s!"ring_up[port-{q.conf.portId}][queue-{q.conf.queueId}]"
  sockfd := 0
  lcoreId := q.lcoreId
  dpdkPortId := q.conf.portId
  dpdkQueueId := q.conf.queueId
  ringUp := some q.ringUp
  ringDown := rings.dn q.conf.portId q.conf.queueId

/-- The entries of the queues, from slot `i` on. -/
def dpdkSlots (rings : TapRings) (i : Nat) (qs : List DpdkQueue) : List VswitchSlot :=
  qs.mapIdx fun k q => dpdkSlot rings (i + k) q

/-- The round of the insertion loop, for a queue with a ring. -/
def Vswitch.insertDpdk (rings : TapRings) (v : Vswitch) (q : DpdkQueue) : Vswitch :=
  if v.size < v.limit then
    let v := v.store v.size { dpdkSlot rings v.size q with sockfd := (v.port v.size).sockfd }
    { v with size := v.size + 1 }
  else v

/-- The two loops pass over the queues that have a ring. -/
theorem vswitchPortUpdate_eq (rib : RibInfo) (rings : TapRings) (v : Vswitch) :
    vswitchPortUpdate rib rings v =
      (dpdkQueues rib rings).foldl (Vswitch.insertDpdk rings) (v.removeDpdk v.size) := by
  rw [vswitchPortUpdate, dpdkQueues, List.foldl_flatMap]
  congr 1
  funext v lcoreId
  rw [List.foldl_filterMap]
  congr 1
  funext v q
  rw [Vswitch.insertQueue]
  cases rings.up q.portId q.queueId <;> rfl

theorem Vswitch.insertDpdk_entries {v : Vswitch} (rings : TapRings) (q : DpdkQueue)
    (noFd : (v.port v.size).sockfd = 0) (room : v.size < v.limit) :
    (v.insertDpdk rings q).entries = v.entries ++ [dpdkSlot rings v.size q] := by
  rw [insertDpdk, if_pos room, noFd]
  exact v.entries_store (dpdkSlot rings v.size q)

theorem Vswitch.insertDpdk_taps {taps : Nat} {v : Vswitch} (rings : TapRings) (q : DpdkQueue)
    (first : v.TapsFirst taps) (size : taps ≤ v.size) :
    (v.insertDpdk rings q).TapsFirst taps ∧ taps ≤ (v.insertDpdk rings q).size ∧
      (v.insertDpdk rings q).limit = v.limit := by
  rw [insertDpdk]
  split
  · refine ⟨⟨fun j before => ?_, fun j after => ?_⟩, Nat.le_succ_of_le size, rfl⟩
    · simp only [store]
      rw [if_neg (by omega)]
      exact first.tap j before
    · simp only [store]
      split
      · exact first.noFd v.size size
      · exact first.noFd j after
  · exact ⟨first, size, rfl⟩

/-- The queues are appended as long as there is room. -/
theorem Vswitch.insertDpdks_entries {taps : Nat} {v : Vswitch} (rings : TapRings)
    (qs : List DpdkQueue) (first : v.TapsFirst taps) (size : taps ≤ v.size)
    (room : v.size ≤ v.limit) :
    (qs.foldl (Vswitch.insertDpdk rings) v).entries =
        (v.entries ++ dpdkSlots rings v.size qs).take v.limit ∧
      (qs.foldl (Vswitch.insertDpdk rings) v).TapsFirst taps ∧
      (qs.foldl (Vswitch.insertDpdk rings) v).limit = v.limit := by
  induction qs generalizing v with
  | nil =>
      refine ⟨?_, first, rfl⟩
      rw [List.foldl_nil, dpdkSlots, List.mapIdx_nil, List.append_nil,
        List.take_of_length_le (by rwa [length_entries])]
  | cons q qs ih =>
      obtain ⟨first', size', limit'⟩ := insertDpdk_taps rings q first size
      have slots : dpdkSlots rings v.size (q :: qs) =
          dpdkSlot rings v.size q :: dpdkSlots rings (v.size + 1) qs := by
        rw [dpdkSlots, List.mapIdx_cons, dpdkSlots]
        congr 2
        funext k q
        rw [show v.size + (k + 1) = v.size + 1 + k by omega]
      rw [List.foldl_cons, slots]
      by_cases free : v.size < v.limit
      · have entries := insertDpdk_entries rings q (first.noFd v.size size) free
        have one : (v.insertDpdk rings q).size = v.size + 1 := by rw [insertDpdk, if_pos free]; rfl
        obtain ⟨all, taps', limit''⟩ := ih first' size' (by omega)
        refine ⟨?_, taps', limit''.trans limit'⟩
        rw [all, entries, limit', one, List.append_assoc, List.singleton_append]
      · -- full: the queue is passed over
        have stays : v.insertDpdk rings q = v := if_neg free
        have full : v.entries.length = v.limit := by rw [length_entries]; omega
        rw [stays]
        obtain ⟨all, taps', limit''⟩ := ih first size room
        refine ⟨?_, taps', limit''⟩
        rw [all, ← full, List.take_left, List.take_left]

/-! ## Every reachable table -/

/-- A table whose first `taps` entries are taps, the others DPDK entries. -/
structure Vswitch.Ok (taps : Nat) (v : Vswitch) : Prop extends v.TapsFirst taps where
  limit : v.limit = vswitchPortSize
  room : v.size ≤ vswitchPortSize
  size : taps ≤ v.size
  ids : ∀ i < v.size, (v.port i).id = i
  dpdk : ∀ i, taps ≤ i → i < v.size → (v.port i).type = .dpdkLcore

/-- The taps of a table. -/
def Vswitch.taps (v : Vswitch) : List VswitchSlot :=
  v.entries.filter fun p => p.type = .linuxTap

theorem Vswitch.Ok.type {taps : Nat} {v : Vswitch} (ok : v.Ok taps) {p : VswitchSlot}
    (mem : p ∈ v.entries) : p.type = .linuxTap ∨ p.type = .dpdkLcore := by
  obtain ⟨i, inside, rfl⟩ := List.mem_map.mp mem
  rw [List.mem_range] at inside
  by_cases front : i < taps
  · exact .inl (ok.tap i front)
  · exact .inr (ok.dpdk i (by omega) inside)

/-- The taps are the first slots. -/
theorem Vswitch.Ok.taps_eq {taps : Nat} {v : Vswitch} (ok : v.Ok taps) :
    v.taps = (List.range taps).map v.port := by
  have split : List.range v.size =
      List.range taps ++ (List.range (v.size - taps)).map (taps + ·) := by
    rw [← List.range_add]
    congr 1
    have := ok.size
    omega
  rw [Vswitch.taps, entries, split, List.map_append, List.filter_append,
    List.filter_eq_self.mpr, List.filter_eq_nil_iff.mpr, List.append_nil]
  · intro p mem
    rw [List.map_map] at mem
    obtain ⟨k, inside, rfl⟩ := List.mem_map.mp mem
    rw [List.mem_range] at inside
    simp [ok.dpdk (taps + k) (by omega) (by omega)]
  · intro p mem
    obtain ⟨i, inside, rfl⟩ := List.mem_map.mp mem
    simp [ok.tap i (List.mem_range.mp inside)]

theorem Vswitch.Ok.length_taps {taps : Nat} {v : Vswitch} (ok : v.Ok taps) :
    v.taps.length = taps := by
  rw [ok.taps_eq, List.length_map, List.length_range]

/-- What is left when the DPDK entries are gone are the taps. -/
theorem Vswitch.Ok.removed {taps : Nat} {v : Vswitch} (ok : v.Ok taps) :
    (v.removeDpdk v.size).entries = v.taps := by
  have split : v.entries = v.entries ++ [] := (List.append_nil v.entries).symm
  rw [removeDpdk_entries v.length_entries split, List.append_nil, Vswitch.taps]
  refine List.filter_congr fun p mem => ?_
  rcases ok.type mem with tap | dpdk
  · simp [tap]
  · simp [dpdk]

/-- The entries an update leaves. -/
theorem Vswitch.Ok.update_entries {taps : Nat} {v : Vswitch} (ok : v.Ok taps) (rib : RibInfo)
    (rings : TapRings) :
    (vswitchPortUpdate rib rings v).entries =
        (v.taps ++ dpdkSlots rings v.taps.length (dpdkQueues rib rings)).take vswitchPortSize ∧
      (vswitchPortUpdate rib rings v).TapsFirst taps ∧
      (vswitchPortUpdate rib rings v).limit = vswitchPortSize := by
  obtain ⟨first, limit, _⟩ := removeDpdk_taps (n := v.size) ok.toTapsFirst
  have size : (v.removeDpdk v.size).size = taps := by
    rw [← length_entries, ok.removed, ok.length_taps]
  have room := ok.room
  have taps_size := ok.size
  obtain ⟨entries, first', limit'⟩ := insertDpdks_entries rings
    (dpdkQueues rib rings) first (Nat.le_of_eq size.symm) (by rw [limit, ok.limit, size]; omega)
  rw [vswitchPortUpdate_eq]
  refine ⟨?_, first', limit'.trans (limit.trans ok.limit)⟩
  rw [entries, ok.removed, limit, ok.limit, size, ok.length_taps]

theorem Vswitch.Ok.update {taps : Nat} {v : Vswitch} (ok : v.Ok taps) (rib : RibInfo)
    (rings : TapRings) : (vswitchPortUpdate rib rings v).Ok taps := by
  obtain ⟨entries, first, limit⟩ := ok.update_entries rib rings
  have length := congrArg List.length entries
  rw [length_entries, List.length_take, List.length_append, ok.length_taps] at length
  have room := ok.room
  have taps_size := ok.size
  -- a slot behind the taps is that of a queue
  have behind : ∀ i, taps ≤ i → i < (vswitchPortUpdate rib rings v).size →
      ∃ q, (vswitchPortUpdate rib rings v).port i = dpdkSlot rings i q := by
    intro i after inside
    have slot := port_of_entries entries inside
    rw [List.getElem?_take_of_lt (by omega), List.getElem?_append_right (by rw [ok.length_taps]; omega),
      dpdkSlots, List.getElem?_mapIdx, ok.length_taps, Option.map_eq_some_iff] at slot
    obtain ⟨q, _, slot⟩ := slot
    rw [show taps + (i - taps) = i by omega] at slot
    exact ⟨q, slot.symm⟩
  refine ⟨first, limit, by omega, by omega, fun i inside => ?_, fun i after inside => ?_⟩
  · by_cases front : i < taps
    · have slot := port_of_entries entries inside
      rw [List.getElem?_take_of_lt (by omega),
        List.getElem?_append_left (by rw [ok.length_taps]; omega), ok.taps_eq, List.getElem?_map,
        List.getElem?_range front, Option.map_some, Option.some.injEq] at slot
      rw [← slot]
      exact ok.ids i (by omega)
    · obtain ⟨q, slot⟩ := behind i (by omega) inside
      rw [slot]
      rfl
  · obtain ⟨q, slot⟩ := behind i after inside
    rw [slot]
    rfl

/-- The table after the taps of the first `n` ports were put into it. -/
theorem tapHandlerStart_slots (fds : Nat → Int) (v : Vswitch) (n : Nat) :
    (tapHandlerStart n fds v).limit = vswitchPortSize ∧
      (tapHandlerStart n fds v).size = min n vswitchPortSize ∧
      (∀ i < min n vswitchPortSize, ((tapHandlerStart n fds v).port i).type = .linuxTap ∧
        ((tapHandlerStart n fds v).port i).id = i) ∧
      ∀ i, min n vswitchPortSize ≤ i → (tapHandlerStart n fds v).port i = v.port i := by
  induction n with
  | zero => exact ⟨rfl, rfl, fun i inside => by omega, fun _ _ => rfl⟩
  | succ n ih =>
      obtain ⟨limit, size, front, behind⟩ := ih
      have step : tapHandlerStart (n + 1) fds v =
          (tapHandlerStart n fds v).insertTap n (fds n) := by
        rw [tapHandlerStart, List.range_succ, List.foldl_append]
        rfl
      rw [step, Vswitch.insertTap, limit, size]
      split
      · next room =>
          refine ⟨limit, ?_, fun i inside => ?_, fun i after => ?_⟩
          · simp only [Vswitch.store_size, size]
            omega
          · simp only [Vswitch.store]
            split
            · next same => exact ⟨rfl, same.symm⟩
            · exact front i (by omega)
          · simp only [Vswitch.store]
            rw [if_neg (by omega)]
            exact behind i (by omega)
      · rw [show min (n + 1) vswitchPortSize = min n vswitchPortSize by omega]
        exact ⟨limit, size, front, behind⟩

theorem VswitchReachable.ok {nbPorts : Nat} {v : Vswitch} (reach : VswitchReachable nbPorts v) :
    v.Ok (min nbPorts vswitchPortSize) := by
  -- a start over slots that never had a descriptor behind the taps
  have started : ∀ (fds : Nat → Int) (v : Vswitch),
      (∀ i, min nbPorts vswitchPortSize ≤ i → (v.port i).sockfd = 0) →
        (tapHandlerStart nbPorts fds v).Ok (min nbPorts vswitchPortSize) := by
    intro fds v noFd
    obtain ⟨limit, size, front, behind⟩ := tapHandlerStart_slots fds v nbPorts
    refine ⟨⟨fun i inside => (front i inside).1, fun i after => ?_⟩, limit, by omega,
      Nat.le_of_eq size.symm, fun i inside => (front i (by omega)).2,
      fun i after inside => by omega⟩
    rw [behind i after]
    exact noFd i after
  induction reach with
  | start fds => exact started fds .zero fun _ _ => rfl
  | restart fds _ ih => exact started fds _ ih.noFd
  | update rib rings _ ih => exact ih.update rib rings

/-- The taps stay through an update, and so does what a second one with the same rib would
    leave. -/
theorem Vswitch.Ok.update_taps {taps : Nat} {v : Vswitch} (ok : v.Ok taps) (rib : RibInfo)
    (rings : TapRings) : (vswitchPortUpdate rib rings v).taps = v.taps := by
  have room := ok.room
  have size := ok.size
  rw [Vswitch.taps, (ok.update_entries rib rings).1,
    List.take_append, List.take_of_length_le (by rw [ok.length_taps]; omega), List.filter_append,
    List.filter_eq_self.mpr, List.filter_eq_nil_iff.mpr, List.append_nil]
  · intro p mem
    obtain ⟨k, _, rfl⟩ := List.mem_mapIdx.mp (List.mem_of_mem_take mem)
    simp [dpdkSlot]
  · exact fun p mem => (List.mem_filter.mp mem).2

/-- An update of a reachable table leaves the taps in their order, then an entry for each
    queue of the rib that has a ring, as many as there is room for; the entries are numbered
    in order, and the same update again changes nothing. -/
theorem vswitchPortUpdate_table {nbPorts : Nat} {v : Vswitch} (reach : VswitchReachable nbPorts v)
    (rib : RibInfo) (rings : TapRings) :
    (vswitchPortUpdate rib rings v).entries =
        (v.taps ++ dpdkSlots rings v.taps.length (dpdkQueues rib rings)).take vswitchPortSize ∧
      (vswitchPortUpdate rib rings v).taps = v.taps ∧
      (∀ i < (vswitchPortUpdate rib rings v).size,
        ((vswitchPortUpdate rib rings v).port i).id = i) ∧
      (vswitchPortUpdate rib rings v).size ≤ vswitchPortSize ∧
      (vswitchPortUpdate rib rings v).limit = vswitchPortSize ∧
      (vswitchPortUpdate rib rings (vswitchPortUpdate rib rings v)).entries =
        (vswitchPortUpdate rib rings v).entries := by
  have ok := reach.ok
  have after := ok.update rib rings
  refine ⟨(ok.update_entries rib rings).1, ok.update_taps rib rings, after.ids, after.room,
    after.limit, ?_⟩
  rw [(after.update_entries rib rings).1, ok.update_taps rib rings,
    (ok.update_entries rib rings).1]

/-- A rib with queue 0 of port 0 on lcore 1, and the rings of port 0. -/
def ribOneQueue : RibInfo :=
  { RibInfo.zero with ver := 1, lcoreQconf := fun lcore => if lcore = 1 then [⟨0, 0⟩] else [] }

def ringsOfPort : TapRings :=
  ⟨fun port queue => if port = 0 then some queue else none, fun _ _ => none⟩

theorem vswitchPortUpdate_table_oneQueue :
    (vswitchPortUpdate ribOneQueue ringsOfPort (tapHandlerStart 1 (fun _ => 5) .zero)).entries.map
        (fun p => (p.id, p.type, p.sockfd, p.lcoreId)) =
      [(0, .linuxTap, 5, 0), (1, .dpdkLcore, 0, 1)] := by
  rw [(vswitchPortUpdate_table (.start fun _ => 5) ribOneQueue ringsOfPort).1]
  decide

end Sdplane
