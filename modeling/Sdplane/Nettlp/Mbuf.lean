import Sdplane.Misc.ByteMem

/-!
# Packet buffers

The `rte_mbuf` operations `sdplane/nettlp.c` uses, for buffers of one segment (so that
`rte_pktmbuf_pkt_len` is the data length). DPDK does not clear a recycled buffer: what
`rte_pktmbuf_alloc` returns still holds the bytes of an earlier packet.
-/

namespace Sdplane

/-- `RTE_PKTMBUF_HEADROOM`. -/
def rtePktmbufHeadroom : Nat := 128

/-- A buffer pool; every buffer of it has `bufLen` bytes (a `uint16_t` in DPDK) and room
    for the default headroom. -/
structure MbufPool where
  bufLen : Nat
  headroom_le : rtePktmbufHeadroom ≤ bufLen
  bufLen_lt : bufLen < 2 ^ 16

/-- The pool of `sdplane.c:292-294`, created with `RTE_MBUF_DEFAULT_BUF_SIZE`. -/
def l2fwdPktmbufPool : MbufPool := ⟨2176, by decide, by decide⟩

/-- `struct rte_mbuf`: the buffer, by offset from `buf_addr`, and where the packet lies in
    it. The packet never leaves the buffer. -/
structure Mbuf where
  buf : ByteMem
  bufLen : Nat
  dataOff : Nat
  dataLen : Nat
  fits : dataOff + dataLen ≤ bufLen
  bufLen_lt : bufLen < 2 ^ 16

/-- `rte_pktmbuf_alloc` on a buffer that still holds `residual`. -/
def rtePktmbufAlloc (pool : MbufPool) (residual : ByteMem) : Mbuf where
  buf := residual
  bufLen := pool.bufLen
  dataOff := rtePktmbufHeadroom
  dataLen := 0
  fits := pool.headroom_le
  bufLen_lt := pool.bufLen_lt

/-- `rte_pktmbuf_append`, as its callers use it: the returned pointer is ignored, so a
    failure just leaves the packet as it is. The length is a `uint16_t`. -/
def rtePktmbufAppend (m : Mbuf) (len : Nat) : Mbuf :=
  if h : m.dataOff + m.dataLen + len % 2 ^ 16 ≤ m.bufLen then
    { m with dataLen := m.dataLen + len % 2 ^ 16, fits := by omega }
  else m

/-- `rte_pktmbuf_prepend`. -/
def rtePktmbufPrepend (m : Mbuf) (len : Nat) : Mbuf :=
  if h : len ≤ m.dataOff then
    { m with
      dataOff := m.dataOff - len
      dataLen := m.dataLen + len
      fits := by have := m.fits; omega }
  else m

/-- `rte_pktmbuf_mtod`, as an offset in the buffer. -/
def rtePktmbufMtod (m : Mbuf) : Nat := m.dataOff

/-- `rte_pktmbuf_pkt_len`. -/
def rtePktmbufPktLen (m : Mbuf) : Nat := m.dataLen

/-- The octets of the packet. -/
def Mbuf.data (m : Mbuf) : List Byte := m.buf.read m.dataOff m.dataLen

/-- The packet after its buffer was written to. -/
def Mbuf.modify (m : Mbuf) (f : ByteMem → ByteMem) : Mbuf := { m with buf := f m.buf }

/-- Who an mbuf is handed over to: `rte_pktmbuf_free`, a ring towards or from the tap, the
    tx buffer of a queue, or the queue itself. -/
inductive MbufSink where
  | free
  | ringUp (portid queueid : Nat)
  | ringDn (portid queueid : Nat)
  | txBuffer (portid queueid : Nat)
  | txBurst (portid queueid : Nat)
  deriving DecidableEq

/-- What `rte_pktmbuf_copy` and `rte_ring_enqueue` answer for one packet: whether the copy
    was made, and whether the ring had room. -/
structure TapAnswer where
  copied : Bool
  enqueued : Bool

namespace Mbuf

variable (m : Mbuf) (len : Nat) (f : ByteMem → ByteMem)

@[simp] theorem modify_buf : (m.modify f).buf = f m.buf := rfl
@[simp] theorem modify_dataOff : (m.modify f).dataOff = m.dataOff := rfl
@[simp] theorem modify_dataLen : (m.modify f).dataLen = m.dataLen := rfl
@[simp] theorem modify_bufLen : (m.modify f).bufLen = m.bufLen := rfl

@[simp] theorem append_buf : (rtePktmbufAppend m len).buf = m.buf := by
  unfold rtePktmbufAppend; split <;> rfl
@[simp] theorem append_dataOff : (rtePktmbufAppend m len).dataOff = m.dataOff := by
  unfold rtePktmbufAppend; split <;> rfl
@[simp] theorem append_bufLen : (rtePktmbufAppend m len).bufLen = m.bufLen := by
  unfold rtePktmbufAppend; split <;> rfl

/-- With enough tailroom the packet grows by the length asked for. -/
theorem append_dataLen {m : Mbuf} {len : Nat} (h : m.dataOff + m.dataLen + len ≤ m.bufLen) :
    (rtePktmbufAppend m len).dataLen = m.dataLen + len := by
  have hlen : len % 2 ^ 16 = len := Nat.mod_eq_of_lt (by have := m.bufLen_lt; omega)
  unfold rtePktmbufAppend
  rw [dif_pos (by omega)]
  simp only [hlen]

/-- The length after an append depends on the shape of the packet alone. -/
theorem append_dataLen_eq : (rtePktmbufAppend m len).dataLen =
    m.dataLen + if m.dataOff + m.dataLen + len % 2 ^ 16 ≤ m.bufLen then len % 2 ^ 16 else 0 := by
  unfold rtePktmbufAppend
  split <;> rfl

/-- An append never takes anything away. -/
theorem dataLen_le_append : m.dataLen ≤ (rtePktmbufAppend m len).dataLen := by
  rw [append_dataLen_eq]
  exact Nat.le_add_right _ _

@[simp] theorem alloc_buf (pool : MbufPool) (residual : ByteMem) :
    (rtePktmbufAlloc pool residual).buf = residual := rfl
@[simp] theorem alloc_dataOff (pool : MbufPool) (residual : ByteMem) :
    (rtePktmbufAlloc pool residual).dataOff = rtePktmbufHeadroom := rfl
@[simp] theorem alloc_dataLen (pool : MbufPool) (residual : ByteMem) :
    (rtePktmbufAlloc pool residual).dataLen = 0 := rfl
@[simp] theorem alloc_bufLen (pool : MbufPool) (residual : ByteMem) :
    (rtePktmbufAlloc pool residual).bufLen = pool.bufLen := rfl

end Mbuf

end Sdplane
