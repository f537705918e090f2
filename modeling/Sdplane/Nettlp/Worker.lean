import Sdplane.Misc.Ledger
import Sdplane.Nettlp.Receive

/-!
# The mbufs of the NetTLP worker

`nettlp_rx_burst` (`nettlp.c:720-765`) and what it calls, with a ledger of the mbufs: every
mbuf received, allocated or copied is taken from it, and handed over to the tx buffer, to a
tap ring or to `rte_pktmbuf_free`. What the pool and the rings answer is an input.
-/

namespace Sdplane

open ByteMem

/-- What the worker finds: the tables `ring_up` and `tx_buffer_per_q`, as the entries that
    are not NULL, and its own lcore. -/
structure NettlpEnv where
  ringUp : Nat → Nat → Bool
  txBuffer : Nat → Nat → Bool
  lcoreId : Nat

/-- A frame of a burst, with what the pool and the ring answer while it is handled: for the
    copy of the frame itself, and for the `i`-th completion it is answered with. -/
structure RxFrame where
  mbuf : Mbuf
  tap : TapAnswer
  residual : Nat → ByteMem
  cplTap : Nat → TapAnswer

/-- `nettlp_send_packet_tap_up`. A copy that failed is NULL, which is no mbuf to hand over. -/
def nettlpSendPacketTapUp (env : NettlpEnv) (a : TapAnswer) (portid queueid : Nat)
    (l : Ledger MbufSink) : Ledger MbufSink :=
  if a.copied then
    let c := l.taken
    let l := l.take
    if env.ringUp portid queueid then
      if a.enqueued then l.give c (.ringUp portid queueid) else l.give c .free
    -- without a ring `ret` stays 0, and the copy is not freed
    else l
  else l

/-- What `nettlp_udp_send` does with the mbuf `m` once the headers are on it. The port is the
    one the request came in on, the queue the lcore's own. -/
def nettlpUdpSendMbuf (env : NettlpEnv) (a : TapAnswer) (rxPortid rxQueueid m : Nat)
    (l : Ledger MbufSink) : Ledger MbufSink :=
  let l := nettlpSendPacketTapUp env a rxPortid rxQueueid l
  if env.txBuffer rxPortid env.lcoreId then l.give m (.txBuffer rxPortid env.lcoreId) else l

/-- The mbufs of the completions of a memory read: each is allocated and sent. -/
def mrdMbufs (env : NettlpEnv) (cplTap : Nat → TapAnswer) (rxPortid rxQueueid : Nat)
    (sent : List Completion) (l : Ledger MbufSink) : Ledger MbufSink :=
  forEach (fun i _ l => nettlpUdpSendMbuf env (cplTap i) rxPortid rxQueueid l.taken l.take) 0 sent l

/-- The state of the worker; `returned` tells that no handler is stuck in its loop. -/
structure WorkerState where
  psmem : Psmem
  ledger : Ledger MbufSink
  returned : Bool

/-- The body of the inner loop of `nettlp_rx_burst`, on the mbuf `m`. -/
def nettlpRxFrame (env : NettlpEnv) (c : NettlpConf) (fuel portid queueid m : Nat) (f : RxFrame)
    (s : WorkerState) : WorkerState :=
  let l := nettlpSendPacketTapUp env f.tap portid queueid s.ledger
  let r := nettlpPsmemReceive c s.psmem f.mbuf.buf (rtePktmbufMtod f.mbuf) f.residual fuel
  let l := mrdMbufs env f.cplTap portid queueid r.sent l
  ⟨r.psmem, if r.freed then l.give m .free else l, r.returned⟩

/-- The inner loop: the frames of one queue, whose mbufs are numbered from `m` on. A handler
    that does not return keeps the worker. -/
def nettlpRxFrames (env : NettlpEnv) (c : NettlpConf) (fuel portid queueid : Nat) :
    Nat → List RxFrame → WorkerState → WorkerState
  | _, [], s => s
  | m, f :: fs, s =>
      if s.returned then
        nettlpRxFrames env c fuel portid queueid (m + 1) fs
          (nettlpRxFrame env c fuel portid queueid m f s)
      else s

/-- The outer loop, from the `i`-th queue of the lcore on; `rx i` is what `rte_eth_rx_burst`
    returns for it, which is not called for a queue the port does not have. -/
def nettlpRxQueues (env : NettlpEnv) (c : NettlpConf) (fuel : Nat) (info : RibInfo)
    (rx : Nat → List RxFrame) : Nat → List PortQueueConf → WorkerState → WorkerState
  | _, [], s => s
  | i, q :: qs, s =>
      if s.returned then
        let burst := if q.queueId < (info.port q.portId).devInfo.nbRxQueues then rx i else []
        let m := s.ledger.taken
        let s := { s with ledger := s.ledger.takeMany burst.length }
        nettlpRxQueues env c fuel info rx (i + 1) qs
          (nettlpRxFrames env c fuel q.portId q.queueId m burst s)
      else s

/-- `nettlp_rx_burst`. -/
def nettlpRxBurst (env : NettlpEnv) (c : NettlpConf) (fuel : Nat) (rib : Option Rib)
    (rx : Nat → List RxFrame) (s : WorkerState) : WorkerState :=
  match rib.bind Rib.ribInfo with
  | none => s
  | some info => nettlpRxQueues env c fuel info rx 0 (info.lcoreQconf env.lcoreId) s

/-! ## Frames whose mbufs are all handed over -/

/-- The copy for the tap failed, or there is a ring for it. -/
def TapKept (env : NettlpEnv) (a : TapAnswer) (portid queueid : Nat) : Prop :=
  a.copied = true → env.ringUp portid queueid = true

/-- The handler of the frame returns: it answers no read whose first byte is further from
    its double word than the byte enables take off. -/
def FrameEnds (p : Psmem) (f : RxFrame) : Prop :=
  RxAnswers p f.mbuf.buf f.mbuf.dataOff →
    mrOffset f.mbuf.buf (f.mbuf.dataOff + rxTlpOffset) ≤
      fstdwDisabled (mrFstdw f.mbuf.buf (f.mbuf.dataOff + rxTlpOffset)) +
        lstdwDisabled (mrLstdw f.mbuf.buf (f.mbuf.dataOff + rxTlpOffset))

/-- What the frame's queue and the worker's tx queue must be like so that none of the mbufs
    is lost: of the frame itself, and of the completions where it is answered. -/
structure FrameKept (env : NettlpEnv) (p : Psmem) (portid queueid : Nat) (f : RxFrame) : Prop where
  tap : TapKept env f.tap portid queueid
  udp : rxIsUdp f.mbuf.buf f.mbuf.dataOff = true
  sent : RxAnswers p f.mbuf.buf f.mbuf.dataOff →
    ∀ j < mrdRounds f.mbuf.buf (f.mbuf.dataOff + rxTlpOffset),
      TapKept env (f.cplTap j) portid queueid ∧ env.txBuffer portid env.lcoreId = true

theorem FrameEnds.congr {p p' : Psmem} (same : SameRegion p p') (f : RxFrame) :
    FrameEnds p' f ↔ FrameEnds p f := by
  rw [FrameEnds, FrameEnds, same.rxAnswers_iff]

theorem FrameKept.congr {p p' : Psmem} (same : SameRegion p p') (env : NettlpEnv)
    (portid queueid : Nat) (f : RxFrame) :
    FrameKept env p' portid queueid f ↔ FrameKept env p portid queueid f := by
  constructor
  · rintro ⟨tap, udp, sent⟩
    exact ⟨tap, udp, fun answers => sent (same.rxAnswers_iff.mpr answers)⟩
  · rintro ⟨tap, udp, sent⟩
    exact ⟨tap, udp, fun answers => sent (same.rxAnswers_iff.mp answers)⟩

section
variable (env : NettlpEnv) (c : NettlpConf) (fuel portid queueid : Nat)

theorem nettlpSendPacketTapUp_hands (a : TapAnswer) (l : Ledger MbufSink) :
    l.Hands (nettlpSendPacketTapUp env a portid queueid l) [] (TapKept env a portid queueid) := by
  unfold nettlpSendPacketTapUp TapKept
  cases a.copied with
  | false => exact (Ledger.Hands.refl l).congr (by simp)
  | true =>
      apply Ledger.Hands.take
      cases ring : env.ringUp portid queueid with
      | false => exact (Ledger.Hands.lose l.take l.taken).congr (by simp)
      | true =>
          cases a.enqueued with
          | false => exact (Ledger.Hands.give l.take l.taken _).congr (by simp)
          | true => exact (Ledger.Hands.give l.take l.taken _).congr (by simp)

theorem nettlpUdpSendMbuf_hands (a : TapAnswer) (m : Nat) (l : Ledger MbufSink) :
    l.Hands (nettlpUdpSendMbuf env a portid queueid m l) [m]
      (TapKept env a portid queueid ∧ env.txBuffer portid env.lcoreId = true) := by
  have tap := nettlpSendPacketTapUp_hands env portid queueid a l
  unfold nettlpUdpSendMbuf
  cases env.txBuffer portid env.lcoreId with
  | false => exact (tap.trans (Ledger.Hands.lose _ m)).congr (by simp)
  | true => exact (tap.trans (Ledger.Hands.give _ m _)).congr (by simp)

/-- Each completion hands its mbuf over if it finds the tx buffer, and its copy if it finds
    the ring. -/
theorem mrdMbufs_hands (cplTap : Nat → TapAnswer) (sent : List Completion)
    (l : Ledger MbufSink) :
    l.Hands (mrdMbufs env cplTap portid queueid sent l) []
      (∀ j < sent.length, TapKept env (cplTap j) portid queueid ∧
        env.txBuffer portid env.lcoreId = true) := by
  have loop := Ledger.Hands.forEach (α := Completion) id
    (fun i _ (l : Ledger MbufSink) =>
      (nettlpUdpSendMbuf_hands env portid queueid (cplTap i) l.taken l.take).take) 0 sent l
  refine loop.congr ?_
  simp only [Nat.zero_add]
  constructor
  · intro all j hj
    exact all j _ (List.getElem?_eq_getElem hj)
  · intro all j q hq
    exact all j (List.getElem?_eq_some_iff.mp hq).1

/-- A frame is handled to the end exactly when its handler returns; sixteen rounds are
    enough for that. -/
theorem nettlpRxFrame_returned (m : Nat) (f : RxFrame) (s : WorkerState) :
    ((nettlpRxFrame env c fuel portid queueid m f s).returned = true → FrameEnds s.psmem f) ∧
    (FrameEnds s.psmem f → (nettlpRxFrame env c 16 portid queueid m f s).returned = true) := by
  constructor
  · rintro returned ⟨read, accepted⟩
    by_contra short
    have never := nettlpPsmemMrd_never_returns c f.residual accepted (not_le.mp short) fuel
    simp only [nettlpRxFrame, rtePktmbufMtod,
      nettlpPsmemReceive_of_mrd c s.psmem f.residual fuel read, never] at returned
    exact Bool.noConfusion returned
  · intro ends
    by_cases answers : RxAnswers s.psmem f.mbuf.buf f.mbuf.dataOff
    · simp only [nettlpRxFrame, rtePktmbufMtod,
        nettlpPsmemReceive_of_mrd c s.psmem f.residual 16 answers.1]
      exact nettlpPsmemMrd_returns c f.residual (ends answers)
    · exact (nettlpPsmemReceive_of_silent c s.psmem _ _ f.residual 16 answers).2

theorem nettlpRxFrame_region (m : Nat) (f : RxFrame) (s : WorkerState) :
    SameRegion s.psmem (nettlpRxFrame env c fuel portid queueid m f s).psmem :=
  nettlpPsmemReceive_region c s.psmem _ _ f.residual fuel

/-- The mbufs of one frame that was handled to the end. -/
theorem nettlpRxFrame_hands (m : Nat) (f : RxFrame) (s : WorkerState)
    (returned : (nettlpRxFrame env c fuel portid queueid m f s).returned = true) :
    s.ledger.Hands (nettlpRxFrame env c fuel portid queueid m f s).ledger [m]
      (FrameKept env s.psmem portid queueid f) := by
  have tap := nettlpSendPacketTapUp_hands env portid queueid f.tap s.ledger
  have freed := nettlpPsmemReceive_freed c s.psmem _ _ f.residual fuel returned
  have sent := mrdMbufs_hands env portid queueid f.cplTap
    (nettlpPsmemReceive c s.psmem f.mbuf.buf f.mbuf.dataOff f.residual fuel).sent
    (nettlpSendPacketTapUp env f.tap portid queueid s.ledger)
  -- the number of completions is that of the closed form
  have rounds : (∀ j < (nettlpPsmemReceive c s.psmem f.mbuf.buf f.mbuf.dataOff f.residual
        fuel).sent.length, TapKept env (f.cplTap j) portid queueid ∧
          env.txBuffer portid env.lcoreId = true) ↔
      (RxAnswers s.psmem f.mbuf.buf f.mbuf.dataOff →
        ∀ j < mrdRounds f.mbuf.buf (f.mbuf.dataOff + rxTlpOffset),
          TapKept env (f.cplTap j) portid queueid ∧ env.txBuffer portid env.lcoreId = true) := by
    by_cases answers : RxAnswers s.psmem f.mbuf.buf f.mbuf.dataOff
    · change (nettlpPsmemReceive c s.psmem f.mbuf.buf f.mbuf.dataOff f.residual
        fuel).returned = true at returned
      rw [nettlpPsmemReceive_of_mrd c s.psmem f.residual fuel answers.1] at returned ⊢
      simp only [nettlpPsmemMrd_length c f.residual answers.2 returned, answers, true_implies]
    · have silent := nettlpPsmemReceive_of_silent c s.psmem f.mbuf.buf f.mbuf.dataOff f.residual
        fuel answers
      simp [silent.1, answers]
  have both := tap.trans sent
  change s.ledger.Hands (if (nettlpPsmemReceive c s.psmem f.mbuf.buf f.mbuf.dataOff f.residual
    fuel).freed = true then _ else _) [m] _
  rw [rtePktmbufMtod] at freed
  rw [freed]
  cases udp : rxIsUdp f.mbuf.buf f.mbuf.dataOff with
  | false =>
      refine (both.trans (Ledger.Hands.lose _ m)).congr ?_
      constructor
      · rintro ⟨-, lost⟩
        exact lost.elim
      · intro kept
        rw [kept.udp] at udp
        exact Bool.noConfusion udp
  | true =>
      refine (both.trans (Ledger.Hands.give _ m _)).congr ?_
      rw [rounds]
      constructor
      · rintro ⟨⟨copy, answered⟩, -⟩
        exact ⟨copy, udp, answered⟩
      · rintro ⟨copy, -, answered⟩
        exact ⟨⟨copy, answered⟩, trivial⟩

/-! ## Bursts -/

theorem nettlpRxFrames_returned_start {m : Nat} {fs : List RxFrame} {s : WorkerState}
    (returned : (nettlpRxFrames env c fuel portid queueid m fs s).returned = true) :
    s.returned = true := by
  cases fs with
  | nil => exact returned
  | cons f fs =>
      by_contra stuck
      rw [nettlpRxFrames, if_neg stuck] at returned
      exact stuck returned

/-- The frames of one queue: once the last handler returned, all handlers did, and no mbuf
    is lost when each frame found what it needs. -/
theorem nettlpRxFrames_hands (m : Nat) (fs : List RxFrame) (s : WorkerState)
    (returned : (nettlpRxFrames env c fuel portid queueid m fs s).returned = true) :
    (∀ f ∈ fs, FrameEnds s.psmem f) ∧
    SameRegion s.psmem (nettlpRxFrames env c fuel portid queueid m fs s).psmem ∧
    s.ledger.Hands (nettlpRxFrames env c fuel portid queueid m fs s).ledger
      (List.range' m fs.length) (∀ f ∈ fs, FrameKept env s.psmem portid queueid f) := by
  induction fs generalizing m s with
  | nil => exact ⟨by simp, ⟨rfl, rfl⟩, (Ledger.Hands.refl s.ledger).congr (by simp)⟩
  | cons f fs ih =>
      have start := nettlpRxFrames_returned_start env c fuel portid queueid returned
      rw [nettlpRxFrames, if_pos start] at returned ⊢
      have first := nettlpRxFrames_returned_start env c fuel portid queueid returned
      have region := nettlpRxFrame_region env c fuel portid queueid m f s
      obtain ⟨ends, region', rest⟩ := ih (m + 1) _ returned
      refine ⟨?_, ⟨region'.1.trans region.1, region'.2.trans region.2⟩, ?_⟩
      · rw [List.forall_mem_cons]
        exact ⟨(nettlpRxFrame_returned env c fuel portid queueid m f s).1 first,
          fun g hg => (FrameEnds.congr region g).mp (ends g hg)⟩
      · refine ((nettlpRxFrame_hands env c fuel portid queueid m f s first).trans rest).congr ?_
        simp only [FrameKept.congr region, List.forall_mem_cons]

theorem nettlpRxFrames_returned (m : Nat) (fs : List RxFrame) (s : WorkerState)
    (start : s.returned = true) (ends : ∀ f ∈ fs, FrameEnds s.psmem f) :
    (nettlpRxFrames env c 16 portid queueid m fs s).returned = true := by
  induction fs generalizing m s with
  | nil => exact start
  | cons f fs ih =>
      rw [nettlpRxFrames, if_pos start]
      rw [List.forall_mem_cons] at ends
      have region := nettlpRxFrame_region env c 16 portid queueid m f s
      apply ih
      · exact (nettlpRxFrame_returned env c 16 portid queueid m f s).2 ends.1
      · intro g hg
        exact (FrameEnds.congr region g).mpr (ends.2 g hg)

end

/-- The frames of the queues from the `i`-th on all satisfy `P`, as far as their ports have
    these queues. -/
def ForallFrames (info : RibInfo) (rx : Nat → List RxFrame) (P : PortQueueConf → RxFrame → Prop) :
    Nat → List PortQueueConf → Prop
  | _, [] => True
  | i, q :: qs =>
      (∀ f ∈ if q.queueId < (info.port q.portId).devInfo.nbRxQueues then rx i else [], P q f) ∧
        ForallFrames info rx P (i + 1) qs

theorem ForallFrames.congr {info : RibInfo} {rx : Nat → List RxFrame}
    {P Q : PortQueueConf → RxFrame → Prop} (same : ∀ q f, P q f ↔ Q q f) (i : Nat)
    (qs : List PortQueueConf) : ForallFrames info rx P i qs ↔ ForallFrames info rx Q i qs := by
  induction qs generalizing i with
  | nil => exact Iff.rfl
  | cons q qs ih => simp only [ForallFrames, same, ih]

section
variable (env : NettlpEnv) (c : NettlpConf) (fuel : Nat) (info : RibInfo)
  (rx : Nat → List RxFrame)

theorem nettlpRxQueues_returned_start {i : Nat} {qs : List PortQueueConf} {s : WorkerState}
    (returned : (nettlpRxQueues env c fuel info rx i qs s).returned = true) :
    s.returned = true := by
  cases qs with
  | nil => exact returned
  | cons q qs =>
      by_contra stuck
      rw [nettlpRxQueues, if_neg stuck] at returned
      exact stuck returned

/-- The queues of an lcore, as the frames of one. -/
theorem nettlpRxQueues_hands (i : Nat) (qs : List PortQueueConf) (s : WorkerState)
    (returned : (nettlpRxQueues env c fuel info rx i qs s).returned = true) :
    ForallFrames info rx (fun _ => FrameEnds s.psmem) i qs ∧
    s.ledger.Hands (nettlpRxQueues env c fuel info rx i qs s).ledger []
      (ForallFrames info rx (fun q => FrameKept env s.psmem q.portId q.queueId) i qs) := by
  induction qs generalizing i s with
  | nil => exact ⟨trivial, (Ledger.Hands.refl s.ledger).congr (by simp [ForallFrames])⟩
  | cons q qs ih =>
      have start := nettlpRxQueues_returned_start env c fuel info rx returned
      rw [nettlpRxQueues, if_pos start] at returned ⊢
      have through := nettlpRxQueues_returned_start env c fuel info rx returned
      obtain ⟨ends, region, first⟩ := nettlpRxFrames_hands env c fuel q.portId q.queueId _ _ _ through
      obtain ⟨ends', rest⟩ := ih (i + 1) _ returned
      refine ⟨⟨ends, (ForallFrames.congr (fun _ f => FrameEnds.congr region f) _ _).mp ends'⟩, ?_⟩
      refine (first.trans rest).takeMany.congr (and_congr Iff.rfl ?_)
      exact ForallFrames.congr (fun q f => FrameKept.congr region env q.portId q.queueId f) _ _

theorem nettlpRxQueues_returned (i : Nat) (qs : List PortQueueConf) (s : WorkerState)
    (start : s.returned = true) (ends : ForallFrames info rx (fun _ => FrameEnds s.psmem) i qs) :
    (nettlpRxQueues env c 16 info rx i qs s).returned = true := by
  induction qs generalizing i s with
  | nil => exact start
  | cons q qs ih =>
      rw [nettlpRxQueues, if_pos start]
      obtain ⟨here, later⟩ := ends
      generalize (if q.queueId < (info.port q.portId).devInfo.nbRxQueues then rx i else []) = burst
        at here ⊢
      have through := nettlpRxFrames_returned env c q.portId q.queueId s.ledger.taken burst
        { s with ledger := s.ledger.takeMany burst.length } start here
      obtain ⟨-, region, -⟩ := nettlpRxFrames_hands env c 16 q.portId q.queueId _ _ _ through
      exact ih (i + 1) _ through
        ((ForallFrames.congr (fun _ f => FrameEnds.congr region f) _ _).mpr later)

end

theorem forallFrames_and {info : RibInfo} {rx : Nat → List RxFrame}
    {P Q : PortQueueConf → RxFrame → Prop} (i : Nat) (qs : List PortQueueConf) :
    ForallFrames info rx (fun q f => P q f ∧ Q q f) i qs ↔
      ForallFrames info rx P i qs ∧ ForallFrames info rx Q i qs := by
  induction qs generalizing i with
  | nil => simp [ForallFrames]
  | cons q qs ih =>
      simp only [ForallFrames, ih]
      constructor
      · rintro ⟨here, p, q⟩
        exact ⟨⟨fun f hf => (here f hf).1, p⟩, fun f hf => (here f hf).2, q⟩
      · rintro ⟨⟨hereP, p⟩, hereQ, q⟩
        exact ⟨fun f hf => ⟨hereP f hf, hereQ f hf⟩, p, q⟩

/-- The burst comes to its end, and by then every mbuf taken in it was handed over exactly
    once. -/
def BurstConserves (env : NettlpEnv) (c : NettlpConf) (p : Psmem) (rib : Option Rib)
    (rx : Nat → List RxFrame) : Prop :=
  ∃ fuel, (nettlpRxBurst env c fuel rib rx ⟨p, .empty, true⟩).returned = true ∧
    (nettlpRxBurst env c fuel rib rx ⟨p, .empty, true⟩).ledger.Settled

/-- A burst conserves the mbufs exactly when every frame of it is handled to the end and is
    a UDP frame, the tap ring of its queue is there or its copy failed, and where it is
    answered, the tx buffer is there, and the ring or no copy of a completion. -/
theorem nettlpRxBurst_conserves_iff (env : NettlpEnv) (c : NettlpConf) (p : Psmem)
    (rib : Option Rib) (rx : Nat → List RxFrame) :
    BurstConserves env c p rib rx ↔ ∀ info, rib.bind Rib.ribInfo = some info →
      ForallFrames info rx (fun q f => FrameEnds p f ∧ FrameKept env p q.portId q.queueId f) 0
        (info.lcoreQconf env.lcoreId) := by
  unfold BurstConserves nettlpRxBurst
  cases rib.bind Rib.ribInfo with
  | none =>
      constructor
      · rintro - info missing
        cases missing
      · intro _
        exact ⟨0, rfl, (Ledger.Hands.refl Ledger.empty).settled_iff.mpr trivial⟩
  | some info =>
      simp only [Option.some.injEq, forall_eq', forallFrames_and]
      constructor
      · rintro ⟨fuel, returned, settled⟩
        obtain ⟨ends, hands⟩ := nettlpRxQueues_hands env c fuel info rx 0 _ _ returned
        exact ⟨ends, hands.settled_iff.mp settled⟩
      · rintro ⟨ends, kept⟩
        have returned := nettlpRxQueues_returned env c info rx 0 _ ⟨p, .empty, true⟩ rfl ends
        obtain ⟨-, hands⟩ := nettlpRxQueues_hands env c 16 info rx 0 _ _ returned
        exact ⟨16, returned, hands.settled_iff.mpr kept⟩

/-- An ARP frame whose tap copy is made and enqueued. -/
def rxArp : RxFrame where
  mbuf :=
    { buf := ByteMem.write (fun _ => 0) 140 [0x08, 0x06], bufLen := 2176, dataOff := 128,
      dataLen := 60, fits := Nat.le_of_ble_eq_true rfl, bufLen_lt := Nat.le_of_ble_eq_true rfl }
  tap := ⟨true, true⟩
  residual := fun _ _ => 0
  cplTap := fun _ => ⟨true, true⟩

/-- One lcore with queue 0 of port 0, which has four queues. -/
def oneQueueRib : Rib :=
  ⟨some { RibInfo.zero with portSize := 1, port := fun _ => { PortConf.zero with
    devInfo := ⟨4, 4, true⟩ }, lcoreQconf := fun _ => [⟨0, 0⟩] }⟩

/-- The mbuf of a frame that is not IPv4 is lost, whatever else is in place. -/
theorem nettlpRxBurst_loses :
    ¬ ∀ (env : NettlpEnv) (c : NettlpConf) (p : Psmem) (rib : Option Rib)
      (rx : Nat → List RxFrame), BurstConserves env c p rib rx := by
  intro conserves
  obtain ⟨fuel, returned, settled⟩ := conserves ⟨fun _ _ => true, fun _ _ => true, 0⟩ .initial
    ⟨0x1000, 0x2000, fun _ => 0⟩ (some oneQueueRib) fun _ => [rxArp]
  obtain ⟨-, hands⟩ := nettlpRxQueues_hands _ _ fuel _ _ 0 [⟨0, 0⟩] _ returned
  have udp := ((hands.settled_iff.mp settled).1 rxArp (List.mem_singleton_self rxArp)).udp
  revert udp
  decide

end Sdplane
