import Sdplane.Misc.Ledger
import Sdplane.Nettlp.Mbuf
import Sdplane.Rib.Types

/-!
# The mbufs of the L2 repeater

`sdplane/l2_repeater.c`: `l2_repeater_rx_burst` copies each received packet to its tap ring
and to every other port, `l2_repeater_tx_burst` sends what comes from the tap. The rings of
the queues an lcore polls exist; what the pool, the rings and the driver answer is an input.
-/

namespace Sdplane

/-- What an l2_repeater thread finds: its lcore, `rte_eth_dev_count_avail ()` and the entries
    of `tx_buffer_per_q` that are not NULL. -/
structure RepeaterEnv where
  lcoreId : Nat
  nbPorts : Nat
  txBuffer : Nat → Nat → Bool

/-- The tests of `l2_repeat` on a tx port. -/
def RepeaterEnv.repeats (env : RepeaterEnv) (info : RibInfo) (rxPortid txPortid : Nat) : Bool :=
  rxPortid != txPortid && (info.port txPortid).link.linkStatus && env.txBuffer txPortid env.lcoreId

/-- A received packet, with what the pool and the ring answer to the copy for the tap, and
    what the pool answers to the copy for each port. -/
structure RepeatFrame where
  tap : TapAnswer
  copied : Nat → Bool

/-- A packet that was repeated: where it came in, and the ports whose tx buffer got a copy. -/
structure Repeated where
  env : RepeaterEnv
  info : RibInfo
  rxPortid : Nat
  txPortids : List Nat

/-- The mbufs, and the packets repeated. -/
structure L2State where
  ledger : Ledger MbufSink
  repeated : List Repeated

/-- `l2_repeater_tap_up`. A copy that failed is NULL, and NULL is enqueued. -/
def l2RepeaterTapUp (a : TapAnswer) (portid queueid : Nat) (l : Ledger MbufSink) :
    Ledger MbufSink :=
  if a.copied then
    let c := l.taken
    let l := l.take
    if a.enqueued then l.give c (.ringUp portid queueid) else l.give c .free
  else l

/-- The loop of `l2_repeat` over the ports: the ports that got a copy, and the ledger. -/
def l2RepeatPorts (env : RepeaterEnv) (info : RibInfo) (rxPortid : Nat) (copied : Nat → Bool) :
    List Nat → Ledger MbufSink → List Nat × Ledger MbufSink
  | [], l => ([], l)
  | txPortid :: ps, l =>
      if env.repeats info rxPortid txPortid then
        if copied txPortid then
          let c := l.taken
          let rest := l2RepeatPorts env info rxPortid copied ps
            (l.take.give c (.txBuffer txPortid env.lcoreId))
          (txPortid :: rest.1, rest.2)
        -- a failed copy is counted
        else l2RepeatPorts env info rxPortid copied ps l
      else l2RepeatPorts env info rxPortid copied ps l

/-- `l2_repeat` of the packet in the mbuf `m`. -/
def l2Repeat (env : RepeaterEnv) (info : RibInfo) (rxPortid : Nat) (copied : Nat → Bool) (m : Nat)
    (s : L2State) : L2State :=
  let sent := l2RepeatPorts env info rxPortid copied (List.range env.nbPorts) s.ledger
  ⟨sent.2.give m .free, s.repeated ++ [⟨env, info, rxPortid, sent.1⟩]⟩

/-- The body of the inner loop of `l2_repeater_rx_burst`. -/
def l2RepeaterRxFrame (env : RepeaterEnv) (info : RibInfo) (q : PortQueueConf) (m : Nat)
    (f : RepeatFrame) (s : L2State) : L2State :=
  l2Repeat env info q.portId f.copied m { s with ledger := l2RepeaterTapUp f.tap q.portId q.queueId s.ledger }

/-- What `rte_eth_rx_burst` gives for the `i`-th queue; it is not called for a queue the port
    does not have. -/
def repeaterBurst (info : RibInfo) (rx : Nat → List RepeatFrame) (i : Nat) (q : PortQueueConf) :
    List RepeatFrame :=
  if q.queueId < (info.port q.portId).devInfo.nbRxQueues then rx i else []

/-- `l2_repeater_rx_burst`. -/
def l2RepeaterRxBurst (env : RepeaterEnv) (rib : Option Rib) (rx : Nat → List RepeatFrame)
    (s : L2State) : L2State :=
  match rib.bind Rib.ribInfo with
  | none => s
  | some info =>
      forEach (fun i q s =>
          let burst := repeaterBurst info rx i q
          forEach (l2RepeaterRxFrame env info q) s.ledger.taken burst
            { s with ledger := s.ledger.takeMany burst.length })
        0 (info.lcoreQconf env.lcoreId) s

/-- `l2_repeater_tx_burst`: `dequeued i` mbufs come out of the ring of the `i`-th queue, and
    the driver accepts at most `accepted i` of them; what it returns is not looked at. -/
def l2RepeaterTxBurst (env : RepeaterEnv) (rib : Option Rib) (dequeued accepted : Nat → Nat)
    (s : L2State) : L2State :=
  match rib.bind Rib.ribInfo with
  | none => s
  | some info =>
      forEach (fun i q s =>
          let m := s.ledger.taken
          let l := s.ledger.takeMany (dequeued i)
          { s with ledger :=
              l.giveMany (.txBurst q.portId env.lcoreId) m (min (accepted i) (dequeued i)) })
        0 (info.lcoreQconf env.lcoreId) s

/-! ## What becomes of the mbufs -/

theorem l2RepeaterTapUp_hands (a : TapAnswer) (portid queueid : Nat) (l : Ledger MbufSink) :
    l.Hands (l2RepeaterTapUp a portid queueid l) [] True := by
  unfold l2RepeaterTapUp
  cases a.copied with
  | false => exact .refl l
  | true =>
      apply Ledger.Hands.take
      cases a.enqueued with
      | false => exact .give l.take l.taken _
      | true => exact .give l.take l.taken _

/-- Each port that is to get a copy gets one if the copy is made. -/
theorem l2RepeatPorts_spec (env : RepeaterEnv) (info : RibInfo) (rxPortid : Nat)
    (copied : Nat → Bool) (ps : List Nat) (l : Ledger MbufSink) :
    (l2RepeatPorts env info rxPortid copied ps l).1 =
        ps.filter (fun p => env.repeats info rxPortid p && copied p) ∧
      l.Hands (l2RepeatPorts env info rxPortid copied ps l).2 [] True := by
  induction ps generalizing l with
  | nil => exact ⟨rfl, .refl l⟩
  | cons p ps ih =>
      by_cases repeats : env.repeats info rxPortid p = true
      · by_cases copy : copied p = true
        · obtain ⟨ports, hands⟩ := ih (l.take.give l.taken (.txBuffer p env.lcoreId))
          have first : l.Hands (l.take.give l.taken (.txBuffer p env.lcoreId)) [] True :=
            (Ledger.Hands.give l.take l.taken _).take
          simp only [l2RepeatPorts, repeats, copy, if_true, List.filter_cons, Bool.and_self]
          exact ⟨congrArg (p :: ·) ports, (first.trans hands).congr (by simp)⟩
        · simpa [l2RepeatPorts, repeats, copy, List.filter_cons] using ih l
      · simpa [l2RepeatPorts, repeats, List.filter_cons] using ih l

section
variable (env : RepeaterEnv) (info : RibInfo)

theorem l2RepeaterRxFrame_hands (q : PortQueueConf) (m : Nat) (f : RepeatFrame) (s : L2State) :
    s.ledger.Hands (l2RepeaterRxFrame env info q m f s).ledger [m] True := by
  have tap := l2RepeaterTapUp_hands f.tap q.portId q.queueId s.ledger
  have ports := (l2RepeatPorts_spec env info q.portId f.copied (List.range env.nbPorts)
    (l2RepeaterTapUp f.tap q.portId q.queueId s.ledger)).2
  exact ((tap.trans ports).trans (.give _ m _)).congr (by simp)

variable (rib : Option Rib)

/-- A receive burst of the repeater loses nothing. -/
theorem l2RepeaterRxBurst_hands (rx : Nat → List RepeatFrame) (s : L2State) :
    s.ledger.Hands (l2RepeaterRxBurst env rib rx s).ledger [] True := by
  unfold l2RepeaterRxBurst
  cases rib.bind Rib.ribInfo with
  | none => exact .refl s.ledger
  | some info =>
      have round : ∀ i q (s : L2State), s.ledger.Hands
          (forEach (l2RepeaterRxFrame env info q) s.ledger.taken (repeaterBurst info rx i q)
            { s with ledger := s.ledger.takeMany (repeaterBurst info rx i q).length }).ledger
          [] True := by
        intro i q s
        apply Ledger.Hands.takeMany
        rw [List.append_nil]
        exact (Ledger.Hands.forHandles L2State.ledger (l2RepeaterRxFrame_hands env info q)
          s.ledger.taken _ { s with
            ledger := s.ledger.takeMany (repeaterBurst info rx i q).length }).congr (by simp)
      exact (Ledger.Hands.forEach L2State.ledger round 0 _ s).congr (by simp)

/-- A transmit burst loses what the driver does not accept. -/
theorem l2RepeaterTxBurst_hands (dequeued accepted : Nat → Nat) (s : L2State) :
    s.ledger.Hands (l2RepeaterTxBurst env rib dequeued accepted s).ledger []
      (∀ info, rib.bind Rib.ribInfo = some info → ∀ i q,
        (info.lcoreQconf env.lcoreId)[i]? = some q → dequeued i ≤ accepted i) := by
  unfold l2RepeaterTxBurst
  cases rib.bind Rib.ribInfo with
  | none => exact (Ledger.Hands.refl s.ledger).congr (by simp)
  | some info =>
      have round : ∀ i (q : PortQueueConf) (s : L2State), s.ledger.Hands
          ((s.ledger.takeMany (dequeued i)).giveMany (MbufSink.txBurst q.portId env.lcoreId)
            s.ledger.taken (min (accepted i) (dequeued i))) [] (dequeued i ≤ accepted i) := by
        intro i q s
        apply Ledger.Hands.takeMany
        -- the first handles go to the driver, the others nowhere
        have sent := Ledger.Hands.giveMany (MbufSink.txBurst q.portId env.lcoreId) s.ledger.taken
          (min (accepted i) (dequeued i)) (s.ledger.takeMany (dequeued i))
        have left := Ledger.Hands.loseMany ((s.ledger.takeMany (dequeued i)).giveMany
          (MbufSink.txBurst q.portId env.lcoreId) s.ledger.taken (min (accepted i) (dequeued i)))
          (s.ledger.taken + min (accepted i) (dequeued i))
          (dequeued i - min (accepted i) (dequeued i))
        have both := sent.trans left
        rw [List.range'_append_1, Nat.add_sub_cancel' (Nat.min_le_right _ _)] at both
        rw [List.append_nil]
        exact both.congr (by rw [true_and]; omega)
      refine (Ledger.Hands.forEach L2State.ledger round 0 _ s).congr ?_
      simp only [Nat.zero_add, Option.some.injEq, forall_eq']

theorem l2RepeaterTxBurst_repeated (dequeued accepted : Nat → Nat) (s : L2State) :
    (l2RepeaterTxBurst env rib dequeued accepted s).repeated = s.repeated := by
  unfold l2RepeaterTxBurst
  split
  · rfl
  · refine forEach_keeps L2State.repeated ?_ 0 _ s
    intro i q s
    rfl

/-! ## Who gets a copy -/

/-- Every other port with its link up and a tx buffer got exactly one copy, and no port else
    got any. -/
def Repeated.Exact (r : Repeated) : Prop :=
  ∀ p, r.txPortids.count p =
    if p < r.env.nbPorts ∧ r.env.repeats r.info r.rxPortid p = true then 1 else 0

/-- The packets repeated so far all went to the right ports. -/
def L2State.Exact (s : L2State) : Prop := ∀ r ∈ s.repeated, r.Exact

/-- All copies of the packet for a port that is to get one are made. -/
def RepeatFrame.Copied (f : RepeatFrame) (rxPortid : Nat) : Prop :=
  ∀ p < env.nbPorts, env.repeats info rxPortid p = true → f.copied p = true

theorem count_filter_range (n p : Nat) (keep : Nat → Bool) :
    ((List.range n).filter keep).count p = if p < n ∧ keep p = true then 1 else 0 := by
  by_cases here : p ∈ (List.range n).filter keep
  · rw [List.count_eq_one_of_mem (List.nodup_range.filter _) here]
    rw [List.mem_filter, List.mem_range] at here
    rw [if_pos here]
  · rw [List.count_eq_zero.mpr here]
    rw [List.mem_filter, List.mem_range] at here
    rw [if_neg here]

theorem l2RepeaterRxFrame_exact (q : PortQueueConf) (m : Nat) (f : RepeatFrame) (s : L2State) :
    (l2RepeaterRxFrame env info q m f s).Exact ↔ s.Exact ∧ f.Copied env info q.portId := by
  have ports := (l2RepeatPorts_spec env info q.portId f.copied (List.range env.nbPorts)
    (l2RepeaterTapUp f.tap q.portId q.queueId s.ledger)).1
  have last : Repeated.Exact ⟨env, info, q.portId, (l2RepeatPorts env info q.portId f.copied
      (List.range env.nbPorts) (l2RepeaterTapUp f.tap q.portId q.queueId s.ledger)).1⟩ ↔
        f.Copied env info q.portId := by
    simp only [Repeated.Exact, ports, count_filter_range, Bool.and_eq_true]
    constructor
    · intro exact' p hp repeats
      have once := exact' p
      rw [if_pos (show p < env.nbPorts ∧ env.repeats info q.portId p = true from ⟨hp, repeats⟩)]
        at once
      by_contra missing
      rw [if_neg fun all => missing all.2.2] at once
      exact Nat.zero_ne_one once
    · intro copied p
      by_cases repeats : p < env.nbPorts ∧ env.repeats info q.portId p = true
      · rw [if_pos ⟨repeats.1, repeats.2, copied p repeats.1 repeats.2⟩, if_pos repeats]
      · rw [if_neg fun all => repeats ⟨all.1, all.2.1⟩, if_neg repeats]
  rw [← last]
  simp only [L2State.Exact, l2RepeaterRxFrame, l2Repeat, List.mem_append, List.mem_singleton]
  constructor
  · intro all
    exact ⟨fun r hr => all r (Or.inl hr), all _ (Or.inr rfl)⟩
  · rintro ⟨before, now⟩ r (hr | rfl)
    · exact before r hr
    · exact now

/-- A burst repeats every packet to the right ports exactly when the copies are made. -/
theorem l2RepeaterRxBurst_exact (rx : Nat → List RepeatFrame) (s : L2State) :
    (l2RepeaterRxBurst env rib rx s).Exact ↔ s.Exact ∧ ∀ info, rib.bind Rib.ribInfo = some info →
      ∀ i q, (info.lcoreQconf env.lcoreId)[i]? = some q → ∀ f ∈ repeaterBurst info rx i q,
        f.Copied env info q.portId := by
  unfold l2RepeaterRxBurst
  cases rib.bind Rib.ribInfo with
  | none => simp
  | some info =>
      simp only [Option.some.injEq, forall_eq']
      have round : ∀ i q (s : L2State),
          (forEach (l2RepeaterRxFrame env info q) s.ledger.taken (repeaterBurst info rx i q)
            { s with ledger := s.ledger.takeMany (repeaterBurst info rx i q).length }).Exact ↔
          s.Exact ∧ ∀ f ∈ repeaterBurst info rx i q, f.Copied env info q.portId := by
        intro i q s
        rw [forEach_iff (l2RepeaterRxFrame_exact env info q)]
        refine and_congr Iff.rfl ?_
        constructor
        · intro all f hf
          obtain ⟨j, hj⟩ := List.mem_iff_getElem?.mp hf
          exact all j f hj
        · intro all j f hj
          exact all f (List.mem_of_getElem? hj)
      rw [forEach_iff round]
      simp only [Nat.zero_add]

end

end Sdplane
