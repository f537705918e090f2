import Sdplane.L2.TapHandler
import Sdplane.Misc.Channel
import Sdplane.Misc.Runs

/-!
# The packets of the L2 repeaters and the tap handler

What `sdplane/l2_repeater.c` and `sdplane/tap_handler.c:276-451` do with the packets themselves,
over any interleaving of the repeaters, one on each lcore, and the tap handler: the rings between
them, the tx buffers of the repeaters, and what goes out of the ports and to the taps. The rib and
the vswitch table may be others at every step. A step is what a thread does between two
operations on a ring.
-/

namespace Sdplane

/-! ## Packets -/

/-- `MAX_PKT_BURST`. -/
def maxPktBurst : Nat := 32

/-- A received packet: the lcore that polled it, its port and queue, and its octets. -/
structure RxPkt where
  lcore : Nat
  port : Nat
  queue : Nat
  data : List Byte

/-- The packet came in on the queue. -/
def RxPkt.on (f : RxPkt) (p q : Nat) : Bool := f.port == p && f.queue == q

/-- What goes out of a port: a copy of a received packet, or what came through the ring of one of
    its queues from a tap. -/
inductive TxPkt where
  | repeated (f : RxPkt)
  | fromTap (queue : Nat) (data : List Byte)

def TxPkt.repeated? : TxPkt → Option RxPkt
  | .repeated f => some f
  | .fromTap _ _ => none

def TxPkt.fromTap? (q : Nat) : TxPkt → Option (List Byte)
  | .repeated _ => none
  | .fromTap queue data => if queue = q then some data else none

/-- A packet that was repeated, with what the repeater found and was answered. -/
structure Handled where
  env : RepeaterEnv
  info : RibInfo
  pkt : RxPkt
  answers : RepeatFrame

/-- A copy of it was put into the tx buffer of the port. -/
def Handled.repeatedTo (h : Handled) (p : Nat) : Bool :=
  p < h.env.nbPorts && (h.env.repeats h.info h.pkt.port p && h.answers.copied p)

/-- A copy of it was offered to the ring up of the queue. -/
def Handled.tappedAs (h : Handled) (p q : Nat) : Bool := h.pkt.on p q && h.answers.tap.copied

/-- The ports are those the copies of the packet are counted for. -/
theorem Handled.mem_l2RepeatPorts (h : Handled) (l : Ledger MbufSink) (p : Nat) :
    p ∈ (l2RepeatPorts h.env h.info h.pkt.port h.answers.copied (List.range h.env.nbPorts) l).1 ↔
      h.repeatedTo p = true := by
  rw [(l2RepeatPorts_spec h.env h.info h.pkt.port h.answers.copied _ l).1, List.mem_filter,
    List.mem_range, repeatedTo, Bool.and_eq_true (decide _), decide_eq_true_iff]

/-! ## The tx queues -/

/-- The tx queue an lcore has of a port: its buffer, and what went out. -/
structure TxQueue where
  buffer : Channel RxPkt
  sent : List TxPkt
  repeated : sent.filterMap TxPkt.repeated? = buffer.given

namespace TxQueue

def empty : TxQueue := ⟨.empty, [], rfl⟩

/-- `rte_eth_tx_buffer_flush`: the driver accepts the first `accepted` packets, the others are
    dropped. -/
def flush (t : TxQueue) (accepted : Nat) : TxQueue where
  buffer := t.buffer.flush accepted
  sent := t.sent ++ (t.buffer.held.take accepted).map .repeated
  repeated := by
    rw [List.filterMap_append, t.repeated, List.filterMap_map, Channel.flush_given]
    exact congrArg _ List.filterMap_some

/-- A packet behind those in the buffer. -/
def enqueue (t : TxQueue) (f : RxPkt) : TxQueue where
  buffer := t.buffer.put true f
  sent := t.sent
  repeated := by rw [t.repeated, Channel.put_given]

/-- `rte_eth_tx_buffer`: a full buffer is flushed. -/
def put (t : TxQueue) (accepted : Nat) (f : RxPkt) : TxQueue :=
  if (t.enqueue f).buffer.held.length < maxPktBurst then t.enqueue f
  else (t.enqueue f).flush accepted

/-- `rte_eth_tx_burst` of what came out of the ring of queue `q`. -/
def burst (t : TxQueue) (accepted q : Nat) (ds : List (List Byte)) : TxQueue where
  buffer := t.buffer
  sent := t.sent ++ (ds.take accepted).map (.fromTap q)
  repeated := by
    have none : ((ds.take accepted).map (TxPkt.fromTap q)).filterMap TxPkt.repeated? = [] := by
      rw [List.filterMap_map, List.filterMap_eq_nil_iff]
      exact fun _ _ => rfl
    rw [List.filterMap_append, none, List.append_nil, t.repeated]

/-- What went out of what a ring gave. -/
def sentFromTap (t : TxQueue) (q : Nat) : List (List Byte) := t.sent.filterMap (TxPkt.fromTap? q)

section
variable (t : TxQueue) (accepted q : Nat)

@[simp] theorem flush_offered : (t.flush accepted).buffer.offered = t.buffer.offered := rfl

@[simp] theorem put_offered (f : RxPkt) :
    (t.put accepted f).buffer.offered = t.buffer.offered ++ [f] := by
  have enqueued : (t.enqueue f).buffer.offered = t.buffer.offered ++ [f] := Channel.put_offered _ _ _
  unfold put
  split
  · exact enqueued
  · rw [flush_offered, enqueued]

@[simp] theorem burst_buffer (ds : List (List Byte)) : (t.burst accepted q ds).buffer = t.buffer := rfl

@[simp] theorem flush_sentFromTap : (t.flush accepted).sentFromTap q = t.sentFromTap q := by
  have none : ((t.buffer.held.take accepted).map TxPkt.repeated).filterMap (TxPkt.fromTap? q) = [] := by
    rw [List.filterMap_map, List.filterMap_eq_nil_iff]
    exact fun _ _ => rfl
  rw [sentFromTap, flush, List.filterMap_append, none, List.append_nil]
  rfl

@[simp] theorem put_sentFromTap (f : RxPkt) :
    (t.put accepted f).sentFromTap q = t.sentFromTap q := by
  unfold put
  split
  · rfl
  · rw [flush_sentFromTap]
    rfl

theorem burst_sentFromTap (ds : List (List Byte)) (q' : Nat) :
    (t.burst accepted q ds).sentFromTap q' =
      t.sentFromTap q' ++ if q = q' then ds.take accepted else [] := by
  rw [sentFromTap, burst, List.filterMap_append, List.filterMap_map]
  apply congrArg (t.sent.filterMap (TxPkt.fromTap? q') ++ ·)
  by_cases same : q = q'
  · rw [if_pos same]
    refine (List.filterMap_congr fun d _ => ?_).trans List.filterMap_some
    exact if_pos same
  · rw [if_neg same, List.filterMap_eq_nil_iff]
    intro d _
    exact if_neg same

end

end TxQueue

/-! ## The taps -/

/-- What the tap handler writes to: the capture tap, and the tap of a port. -/
inductive TapTarget where
  | capture
  | port (portid : Nat)
  deriving DecidableEq

/-- `capture_fd`, `port_fd` and `rte_eth_dev_count_avail ()`. -/
structure TapFds where
  captureFd : Int
  portFd : Nat → Int
  nbPorts : Nat

/-- `tap_handler_write_peek`; `ok` is what `write` answers. -/
def tapHandlerWritePeek (fds : TapFds) (ok : TapTarget → Bool) (f : RxPkt)
    (written : TapTarget → List RxPkt) : TapTarget → List RxPkt :=
  if 0 ≤ fds.captureFd ∧ ok .capture then
    Function.update written .capture (written .capture ++ [f])
  else written

/-- `tap_handler_write_port_all`. -/
def tapHandlerWritePortAll (fds : TapFds) (ok : TapTarget → Bool) (f : RxPkt)
    (written : TapTarget → List RxPkt) : TapTarget → List RxPkt :=
  let round (portid : Nat) (w : List RxPkt) : List RxPkt :=
    if 0 ≤ fds.portFd portid ∧ ok (.port portid) then w ++ [f] else w
  forEach (fun _ p written => Function.update written (.port p) (round p (written (.port p))))
    0 (List.range fds.nbPorts) written

/-- The loop of `tap_handler_handle_packet_up` over what came out of a ring, as far as the taps
    go; NULL is passed over. -/
def tapHandlerWrite (fds : TapFds) (ok : Nat → TapTarget → Bool) (i : Nat)
    (es : List (Option RxPkt)) (written : TapTarget → List RxPkt) : TapTarget → List RxPkt :=
  forEach (fun i e written =>
      match e with
      | none => written
      | some f => tapHandlerWritePortAll fds (ok i) f (tapHandlerWritePeek fds (ok i) f written))
    i es written

/-- The octets of a packet read from a tap. -/
def tapPacket (data : List Byte) (residual : ByteMem) : List Byte :=
  let m := rtePktmbufAppend (rtePktmbufAlloc l2fwdPktmbufPool residual) data.length
  (m.modify (·.write (rtePktmbufMtod m) data)).data

/-- The default room of a packet buffer. -/
def tapPacketRoom : Nat := l2fwdPktmbufPool.bufLen - rtePktmbufHeadroom

theorem tapPacket_eq {data : List Byte} (residual : ByteMem)
    (fits : data.length ≤ tapPacketRoom) : tapPacket data residual = data := by
  have room : tapPacketRoom = 2048 := rfl
  have short : data.length % 2 ^ 16 = data.length := by omega
  have bufLen : (rtePktmbufAlloc l2fwdPktmbufPool residual).bufLen = 2176 := rfl
  have off : (rtePktmbufAlloc l2fwdPktmbufPool residual).dataOff = 128 := rfl
  have len := Mbuf.append_dataLen_eq (rtePktmbufAlloc l2fwdPktmbufPool residual) data.length
  rw [short, bufLen, off, Mbuf.alloc_dataLen] at len
  rw [tapPacket, Mbuf.data, Mbuf.modify_buf, Mbuf.modify_dataOff, Mbuf.modify_dataLen, len,
    rtePktmbufMtod, if_pos (by omega), Nat.zero_add]
  exact ByteMem.read_write_same _ _ _

/-! ## The state, and the steps -/

/-- What was read from a tap, with the packet made of it and the rings that is for: those of the
    DPDK entries of the table. -/
structure TapRead where
  rings : List (Nat × Nat)
  data : List Byte
  packet : List Byte

/-- The rings by port and queue, the tx queues by port and lcore; for each lcore what it received
    and the rest of its burst, with the packets it is through with; for each tap what was
    written to it. `pending` are the rings that the packet read last is still for. -/
structure DataPath where
  ringUp : Nat × Nat → Channel (Option RxPkt)
  ringDn : Nat × Nat → Channel (List Byte)
  tx : Nat × Nat → TxQueue
  received : Nat → List RxPkt
  burst : Nat → List RxPkt
  handled : Nat → List Handled
  written : TapTarget → List RxPkt
  reads : List TapRead
  pending : TapRead

def DataPath.initial : DataPath where
  ringUp := fun _ => .empty
  ringDn := fun _ => .empty
  tx := fun _ => .empty
  received := fun _ => []
  burst := fun _ => []
  handled := fun _ => []
  written := fun _ => []
  reads := []
  pending := ⟨[], [], []⟩

/-- What a thread does next. -/
inductive DataPathAct where
  | rxBurst (env : RepeaterEnv) (info : RibInfo) (q : PortQueueConf) (pkts : List (List Byte))
  | rxFrame (env : RepeaterEnv) (info : RibInfo) (answers : RepeatFrame) (accepted : Nat → Nat)
  | txFlush (env : RepeaterEnv) (accepted : Nat → Nat)
  | txBurst (env : RepeaterEnv) (info : RibInfo) (q : PortQueueConf) (dequeued accepted : Nat)
  | packetUp (p : VswitchPort) (dequeued : Nat) (fds : TapFds) (ok : Nat → TapTarget → Bool)
  | packetRead (ports : List VswitchPort) (data : List Byte) (residual : ByteMem)
  | packetPut (room : Bool)

namespace DataPath

/-- `l2_repeater_tap_up`: NULL is enqueued where the copy failed. -/
def tapUp (a : TapAnswer) (f : RxPkt) (s : DataPath) : DataPath :=
  let c := if a.copied then some f else none
  { s with
    ringUp := Function.update s.ringUp (f.port, f.queue)
      ((s.ringUp (f.port, f.queue)).put a.enqueued c) }

/-- The loop of `l2_repeat`. -/
def repeatPkt (env : RepeaterEnv) (info : RibInfo) (f : RxPkt) (copied : Nat → Bool)
    (accepted : Nat → Nat) (s : DataPath) : DataPath :=
  let round (txPortid : Nat) (t : TxQueue) : TxQueue :=
    if env.repeats info f.port txPortid && copied txPortid then t.put (accepted txPortid) f else t
  { s with
    tx := forEach (fun _ p tx => Function.update tx (p, env.lcoreId) (round p (tx (p, env.lcoreId))))
      0 (List.range env.nbPorts) s.tx }

/-- The body of the inner loop of `l2_repeater_rx_burst`, on the next packet of the burst. -/
def rxFrame (env : RepeaterEnv) (info : RibInfo) (answers : RepeatFrame) (accepted : Nat → Nat)
    (f : RxPkt) (fs : List RxPkt) (s : DataPath) : DataPath :=
  let s := (s.tapUp answers.tap f).repeatPkt env info f answers.copied accepted
  { s with
    burst := Function.update s.burst env.lcoreId fs
    handled := Function.update s.handled env.lcoreId
      (s.handled env.lcoreId ++ [⟨env, info, f, answers⟩]) }

/-- `l2_repeater_tx_flush`. -/
def txFlush (env : RepeaterEnv) (accepted : Nat → Nat) (s : DataPath) : DataPath :=
  let round (portid : Nat) (t : TxQueue) : TxQueue :=
    if env.txBuffer portid env.lcoreId then t.flush (accepted portid) else t
  { s with
    tx := forEach (fun _ p tx => Function.update tx (p, env.lcoreId) (round p (tx (p, env.lcoreId))))
      0 (List.range env.nbPorts) s.tx }

/-- The round of a queue in `l2_repeater_tx_burst`. -/
def txBurst (env : RepeaterEnv) (q : PortQueueConf) (dequeued accepted : Nat) (s : DataPath) :
    DataPath :=
  let ring := s.ringDn (q.portId, q.queueId)
  { s with
    ringDn := Function.update s.ringDn (q.portId, q.queueId) (ring.take dequeued)
    tx := Function.update s.tx (q.portId, env.lcoreId)
      ((s.tx (q.portId, env.lcoreId)).burst accepted q.queueId (ring.held.take dequeued)) }

/-- The round of a port in `tap_handler_handle_packet_up`. -/
def packetUp (p : VswitchPort) (dequeued : Nat) (fds : TapFds) (ok : Nat → TapTarget → Bool)
    (s : DataPath) : DataPath :=
  let ring := s.ringUp (p.dpdkPortId, p.dpdkQueueId)
  { s with
    ringUp := Function.update s.ringUp (p.dpdkPortId, p.dpdkQueueId) (ring.take dequeued)
    written := tapHandlerWrite fds ok 0 (ring.held.take dequeued) s.written }

/-- The rings a packet read from a tap is for. -/
def ringsOf (ports : List VswitchPort) : List (Nat × Nat) :=
  (ports.filter fun p => p.type == .dpdkLcore).map fun p => (p.dpdkPortId, p.dpdkQueueId)

/-- A step, where it can be taken: a burst is received when the one before is through, and a
    packet read when the one before is in all its rings. -/
def step (s : DataPath) : DataPathAct → Option DataPath
  | .rxBurst env info q pkts =>
      let fs := pkts.map fun d => RxPkt.mk env.lcoreId q.portId q.queueId d
      if (s.burst env.lcoreId).isEmpty ∧ q ∈ info.lcoreQconf env.lcoreId ∧
          q.queueId < (info.port q.portId).devInfo.nbRxQueues ∧ pkts.length ≤ maxPktBurst then
        some { s with
          burst := Function.update s.burst env.lcoreId fs
          received := Function.update s.received env.lcoreId (s.received env.lcoreId ++ fs) }
      else none
  | .rxFrame env info answers accepted =>
      match s.burst env.lcoreId with
      | [] => none
      | f :: fs => some (s.rxFrame env info answers accepted f fs)
  | .txFlush env accepted => some (s.txFlush env accepted)
  | .txBurst env info q dequeued accepted =>
      if q ∈ info.lcoreQconf env.lcoreId ∧ dequeued ≤ maxPktBurst then
        some (s.txBurst env q dequeued accepted)
      else none
  | .packetUp p dequeued fds ok =>
      if p.type = .dpdkLcore ∧ dequeued ≤ maxPktBurst then some (s.packetUp p dequeued fds ok)
      else none
  | .packetRead ports data residual =>
      -- what `read` returns of a larger packet, up to 9000 octets, is copied past the buffer
      if s.pending.rings.isEmpty ∧ data.length ≤ tapPacketRoom then
        let read : TapRead := ⟨ringsOf ports, data, tapPacket data residual⟩
        some { s with reads := s.reads ++ [read], pending := read }
      else none
  | .packetPut room =>
      match s.pending.rings with
      | [] => none
      | k :: ks =>
          some { s with
            ringDn := Function.update s.ringDn k ((s.ringDn k).put room s.pending.packet)
            pending := ⟨ks, s.pending.data, s.pending.packet⟩ }

end DataPath

end Sdplane
