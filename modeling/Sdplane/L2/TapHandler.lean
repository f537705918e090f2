import Sdplane.L2.Repeater

/-!
# The mbufs of the tap handler

`sdplane/tap_handler.c:316-451`: packets of the tap rings are written to the taps and freed,
packets read from a tap are put into the ring of every DPDK port. With the repeater this is
all that moves mbufs between a port and its taps; `L2Call` is one call of any of the four
functions.
-/

namespace Sdplane

/-- `VSWITCH_PORT_TYPE_*`. -/
inductive VswitchPortType where
  | none
  | dpdkLcore
  | linuxTap
  deriving DecidableEq

/-- `struct vswitch_port`, as far as the packets are concerned. -/
structure VswitchPort where
  type : VswitchPortType
  sockfd : Int
  dpdkPortId : Nat
  dpdkQueueId : Nat

/-- The loop over what was dequeued; `false` is a NULL, which is passed over. -/
def freeDequeued : Nat → List Bool → Ledger MbufSink → Ledger MbufSink
  | _, [], l => l
  | m, e :: es, l => if e then freeDequeued (m + 1) es (l.give m .free) else freeDequeued m es l

/-- The round of the `i`-th port; `dequeued i` comes out of its ring. -/
def packetUpPort (dequeued : Nat → List Bool) (i : Nat) (p : VswitchPort) (s : L2State) :
    L2State :=
  if p.type ≠ .dpdkLcore then s
  else
    let l := s.ledger.takeMany ((dequeued i).count true)
    { s with ledger := freeDequeued s.ledger.taken (dequeued i) l }

/-- `tap_handler_handle_packet_up`. -/
def tapHandlerHandlePacketUp (ports : List VswitchPort) (dequeued : Nat → List Bool)
    (s : L2State) : L2State :=
  forEach (packetUpPort dequeued) 0 ports s

/-- The descriptors that are polled: of the first 16 taps. -/
def pollFds (ports : List VswitchPort) : List Int :=
  ((ports.filter fun p => p.type == .linuxTap).take 16).map VswitchPort.sockfd

/-- What `poll`, `read` and `rte_ring_enqueue` answer in a call: whether the `i`-th
    descriptor is ready, how much is read from it, and whether the ring of the `k`-th port
    has room for the packet. -/
structure DownAnswers where
  ready : Nat → Bool
  read : Nat → Int
  enqueued : Nat → Nat → Bool

/-- A packet read from the `i`-th descriptor, for the `k`-th port; what the enqueue returns
    is not looked at. -/
def packetDownPort (a : DownAnswers) (i k : Nat) (p : VswitchPort) (s : L2State) : L2State :=
  if p.type ≠ .dpdkLcore then s
  else
    let m := s.ledger.taken
    let l := s.ledger.take
    { s with ledger := if a.enqueued i k then l.give m (.ringDn p.dpdkPortId p.dpdkQueueId) else l }

/-- The round of the `i`-th descriptor. -/
def packetDownFd (ports : List VswitchPort) (a : DownAnswers) (i : Nat) (fd : Int)
    (s : L2State) : L2State :=
  if a.ready i then
    -- find the corresponding vswport
    match ports.find? fun p => p.type == .linuxTap && p.sockfd == fd with
    | none => s
    | some _ => if a.read i ≤ 0 then s else forEach (packetDownPort a i) 0 ports s
  else s

/-- `tap_handler_handle_packet_down`. -/
def tapHandlerHandlePacketDown (ports : List VswitchPort) (a : DownAnswers) (s : L2State) :
    L2State :=
  forEach (packetDownFd ports a) 0 (pollFds ports) s

/-! ## What becomes of the mbufs -/

theorem freeDequeued_hands (m : Nat) (es : List Bool) (l : Ledger MbufSink) :
    l.Hands (freeDequeued m es l) (List.range' m (es.count true)) True := by
  induction es generalizing m l with
  | nil => exact .refl l
  | cons e es ih =>
      cases e with
      | false => simpa [freeDequeued] using ih m l
      | true =>
          rw [List.count_cons_self]
          exact ((Ledger.Hands.give l m .free).trans (ih (m + 1) _)).congr (by simp)

/-- Whatever comes up is freed. -/
theorem tapHandlerHandlePacketUp_hands (ports : List VswitchPort) (dequeued : Nat → List Bool)
    (s : L2State) : s.ledger.Hands (tapHandlerHandlePacketUp ports dequeued s).ledger [] True := by
  have round : ∀ i (p : VswitchPort) (s : L2State),
      s.ledger.Hands (packetUpPort dequeued i p s).ledger [] True := by
    intro i p s
    unfold packetUpPort
    split
    · exact .refl s.ledger
    · apply Ledger.Hands.takeMany
      rw [List.append_nil]
      exact freeDequeued_hands s.ledger.taken (dequeued i) _
  exact (Ledger.Hands.forEach L2State.ledger round 0 ports s).congr (by simp)

theorem tapHandlerHandlePacketUp_repeated (ports : List VswitchPort) (dequeued : Nat → List Bool)
    (s : L2State) : (tapHandlerHandlePacketUp ports dequeued s).repeated = s.repeated := by
  refine forEach_keeps L2State.repeated ?_ 0 ports s
  intro i p s
  unfold packetUpPort
  split <;> rfl

/-- The ring of the port takes the packet, if it is a DPDK port. -/
def DownAnswers.Enqueued (a : DownAnswers) (i k : Nat) (p : VswitchPort) : Prop :=
  p.type = .dpdkLcore → a.enqueued i k = true

theorem packetDownPort_hands (a : DownAnswers) (i k : Nat) (p : VswitchPort) (s : L2State) :
    s.ledger.Hands (packetDownPort a i k p s).ledger [] (a.Enqueued i k p) := by
  unfold packetDownPort DownAnswers.Enqueued
  by_cases other : p.type ≠ .dpdkLcore
  · rw [if_pos other]
    exact (Ledger.Hands.refl s.ledger).congr (by simp [other])
  · rw [if_neg other]
    apply Ledger.Hands.take
    cases a.enqueued i k with
    | false => exact (Ledger.Hands.lose s.ledger.take _).congr (by simpa using other)
    | true => exact (Ledger.Hands.give s.ledger.take _ _).congr (by simp)

theorem find?_of_mem_pollFds {ports : List VswitchPort} {fd : Int} (h : fd ∈ pollFds ports) :
    (ports.find? fun p => p.type == .linuxTap && p.sockfd == fd).isSome = true := by
  obtain ⟨p, polled, rfl⟩ := List.mem_map.mp h
  obtain ⟨mem, tap⟩ := List.mem_filter.mp (List.mem_of_mem_take polled)
  rw [List.find?_isSome]
  exact ⟨p, mem, by simp [tap]⟩

/-- Every ring has room for every packet read. -/
def DownAnswers.AllEnqueued (a : DownAnswers) (ports : List VswitchPort) : Prop :=
  ∀ i < (pollFds ports).length, a.ready i = true → 0 < a.read i →
    ∀ k p, ports[k]? = some p → a.Enqueued i k p

theorem packetDownFd_hands (ports : List VswitchPort) (a : DownAnswers) (i : Nat) (fd : Int)
    (s : L2State) : s.ledger.Hands (packetDownFd ports a i fd s).ledger []
      (a.ready i = true →
        (ports.find? fun p => p.type == .linuxTap && p.sockfd == fd).isSome = true →
          0 < a.read i → ∀ k p, ports[k]? = some p → a.Enqueued i k p) := by
  unfold packetDownFd
  cases ready : a.ready i with
  | false => exact (Ledger.Hands.refl s.ledger).congr (by simp)
  | true =>
      cases found : ports.find? fun p => p.type == .linuxTap && p.sockfd == fd with
      | none => exact (Ledger.Hands.refl s.ledger).congr (by simp)
      | some p =>
          by_cases nothing : a.read i ≤ 0
          · simp only [if_true, if_pos nothing]
            exact (Ledger.Hands.refl s.ledger).congr (by simp [not_lt.mpr nothing])
          · simp only [if_true, if_neg nothing]
            refine (Ledger.Hands.forEach L2State.ledger
              (fun k p s => packetDownPort_hands a i k p s) 0 ports s).congr ?_
            simp [not_le.mp nothing]

/-- What comes down is lost where the ring is full. -/
theorem tapHandlerHandlePacketDown_hands (ports : List VswitchPort) (a : DownAnswers)
    (s : L2State) : s.ledger.Hands (tapHandlerHandlePacketDown ports a s).ledger []
      (a.AllEnqueued ports) := by
  refine (Ledger.Hands.forEach L2State.ledger (packetDownFd_hands ports a) 0 (pollFds ports)
    s).congr ?_
  simp only [Nat.zero_add]
  constructor
  · intro all i hi ready
    exact all i _ (List.getElem?_eq_getElem hi) ready
      (find?_of_mem_pollFds (List.getElem_mem hi))
  · intro all i fd hfd ready _
    exact all i (List.getElem?_eq_some_iff.mp hfd).1 ready

theorem tapHandlerHandlePacketDown_repeated (ports : List VswitchPort) (a : DownAnswers)
    (s : L2State) : (tapHandlerHandlePacketDown ports a s).repeated = s.repeated := by
  refine forEach_keeps L2State.repeated ?_ 0 (pollFds ports) s
  intro i fd s
  have port : ∀ k p (s : L2State), (packetDownPort a i k p s).repeated = s.repeated := by
    intro k p s
    unfold packetDownPort
    split <;> rfl
  unfold packetDownFd
  split
  · split
    · rfl
    · split
      · rfl
      · exact forEach_keeps L2State.repeated port 0 ports s
  · rfl

/-! ## Any sequence of calls -/

/-- A call of one of the four functions, with what it finds and what it is answered. -/
inductive L2Call where
  | rxBurst (env : RepeaterEnv) (rib : Option Rib) (rx : Nat → List RepeatFrame)
  | txBurst (env : RepeaterEnv) (rib : Option Rib) (dequeued accepted : Nat → Nat)
  | packetUp (ports : List VswitchPort) (dequeued : Nat → List Bool)
  | packetDown (ports : List VswitchPort) (answers : DownAnswers)

def L2State.call (s : L2State) : L2Call → L2State
  | .rxBurst env rib rx => l2RepeaterRxBurst env rib rx s
  | .txBurst env rib dequeued accepted => l2RepeaterTxBurst env rib dequeued accepted s
  | .packetUp ports dequeued => tapHandlerHandlePacketUp ports dequeued s
  | .packetDown ports answers => tapHandlerHandlePacketDown ports answers s

/-- The state after the calls, from an empty ledger. -/
def L2State.run (calls : List L2Call) : L2State := calls.foldl L2State.call ⟨.empty, []⟩

/-- Every mbuf was handed over exactly once, and every packet repeated to the right ports. -/
structure L2State.Conserves (s : L2State) : Prop where
  settled : s.ledger.Settled
  exact' : s.Exact

/-- Nothing is refused: the copies of received packets are made, the driver accepts what it
    is offered, and the rings of the ports take what is read from the taps. -/
def L2Call.Accepted : L2Call → Prop
  | .rxBurst env rib rx => ∀ info, rib.bind Rib.ribInfo = some info →
      ∀ i q, (info.lcoreQconf env.lcoreId)[i]? = some q → ∀ f ∈ repeaterBurst info rx i q,
        f.Copied env info q.portId
  | .txBurst env rib dequeued accepted => ∀ info, rib.bind Rib.ribInfo = some info →
      ∀ i q, (info.lcoreQconf env.lcoreId)[i]? = some q → dequeued i ≤ accepted i
  | .packetUp _ _ => True
  | .packetDown ports answers => answers.AllEnqueued ports

theorem L2State.exact_congr {s s' : L2State} (same : s'.repeated = s.repeated) :
    s'.Exact ↔ s.Exact := by
  rw [Exact, Exact, same]

theorem L2State.call_hands (s : L2State) (c : L2Call) :
    ∃ kept, s.ledger.Hands (s.call c).ledger [] kept ∧
      ((s.call c).Exact ∧ kept ↔ s.Exact ∧ c.Accepted) := by
  cases c with
  | rxBurst env rib rx =>
      refine ⟨True, l2RepeaterRxBurst_hands env rib rx s, ?_⟩
      rw [and_true]
      exact l2RepeaterRxBurst_exact env rib rx s
  | txBurst env rib dequeued accepted =>
      refine ⟨_, l2RepeaterTxBurst_hands env rib dequeued accepted s, and_congr ?_ Iff.rfl⟩
      exact exact_congr (l2RepeaterTxBurst_repeated env rib dequeued accepted s)
  | packetUp ports dequeued =>
      refine ⟨True, tapHandlerHandlePacketUp_hands ports dequeued s, and_congr ?_ Iff.rfl⟩
      exact exact_congr (tapHandlerHandlePacketUp_repeated ports dequeued s)
  | packetDown ports answers =>
      refine ⟨_, tapHandlerHandlePacketDown_hands ports answers s, and_congr ?_ Iff.rfl⟩
      exact exact_congr (tapHandlerHandlePacketDown_repeated ports answers s)

theorem L2State.run_hands (calls : List L2Call) :
    ∃ kept, Ledger.Hands .empty (L2State.run calls).ledger [] kept ∧
      ((L2State.run calls).Exact ∧ kept ↔ ∀ c ∈ calls, c.Accepted) := by
  induction calls using List.reverseRecOn with
  | nil => exact ⟨True, .refl _, by simp [run, Exact]⟩
  | append_singleton calls c ih =>
      obtain ⟨kept, run, exact'⟩ := ih
      obtain ⟨kept', call, exact''⟩ := (L2State.run calls).call_hands c
      have last : L2State.run (calls ++ [c]) = (L2State.run calls).call c := by
        simp [L2State.run]
      refine ⟨kept ∧ kept', ?_, ?_⟩
      · rw [last]
        exact run.trans call
      · rw [last, List.forall_mem_append, List.forall_mem_singleton, ← exact']
        tauto

/-- In every sequence of calls, each mbuf is handed over exactly once and each packet is
    repeated to the right ports exactly when nothing was refused. -/
theorem L2State.run_conserves_iff (calls : List L2Call) :
    (L2State.run calls).Conserves ↔ ∀ c ∈ calls, c.Accepted := by
  obtain ⟨kept, run, exact'⟩ := L2State.run_hands calls
  rw [← exact', ← run.settled_iff]
  constructor
  · rintro ⟨settled, right⟩
    exact ⟨right, settled⟩
  · rintro ⟨right, settled⟩
    exact ⟨settled, right⟩

/-- One lcore with queue 0 of port 0. -/
def repeaterRib : Rib := ⟨some { RibInfo.zero with lcoreQconf := fun _ => [⟨0, 0⟩] }⟩

/-- The driver takes one of two packets of the tap, and the other is lost. -/
theorem L2State.run_loses : ¬ ∀ calls, (L2State.run calls).Conserves := by
  intro conserves
  have settled := (conserves [.txBurst ⟨0, 1, fun _ _ => true⟩ (some repeaterRib) (fun _ => 2)
    fun _ => 1]).settled 1
  revert settled
  decide

end Sdplane
