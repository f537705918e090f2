import Sdplane.Nettlp.DmaArea
import Sdplane.Nettlp.OverRead
import Sdplane.Nettlp.PsmemStore
import Sdplane.Nettlp.RequestHeader

/-!
# DMA commands and the pseudo memory of the peer

The frames of `nettlp_send_dma_write` and `nettlp_send_dma_read` (`nettlp.c:133-342`), received in
their order by a NetTLP thread that has a pseudo memory (`nettlp.c:531-717`). Two ends of one
program: what the first is told to write is what the second is read from.
-/

namespace Sdplane

open ByteMem

/-! ## The same octets at another offset -/

section
variable {b b' : ByteMem} {p p' : Nat}

theorem read_moved {n : Nat} (same : ∀ k < n, b' (p' + k) = b (p + k)) :
    b'.read p' n = b.read p n := by
  rw [ByteMem.read, ByteMem.read]
  apply List.map_congr_left
  intro k hk
  exact same k (List.mem_range.mp hk)

theorem load16_moved (same : ∀ k < 2, b' (p' + k) = b (p + k)) : b'.load16 p' = b.load16 p := by
  rw [load16, load16, read_moved same]

variable {mh mh' : Nat}

theorem mrAddrField_moved (same : ∀ k < mrHdrLen b mh, b' (mh' + k) = b (mh + k)) :
    mrAddrField b' mh' = mrAddrField b mh := by
  have twelve : 12 ≤ mrHdrLen b mh := by
    rw [mrHdrLen]
    split <;> omega
  have format : hdrFmtType b' mh' = hdrFmtType b mh := same 0 (by omega)
  rw [mrAddrField, mrAddrField, format]
  split
  · rw [load32, load32, read_moved fun k hk => ?_]
    rw [Nat.add_assoc, Nat.add_assoc]
    exact same _ (by rw [sizeofTlpMrHdr]; omega)
  · next long =>
      rw [load64, load64, read_moved fun k hk => ?_]
      rw [Nat.add_assoc, Nat.add_assoc]
      exact same _ (by rw [mrHdrLen, if_neg long, sizeofTlpMrHdr]; omega)

variable {addr count : BitVec 64}

/-- A request header says the same wherever it is. -/
theorem MrdRequest.moved (h : MrdRequest b mh addr count)
    (same : ∀ k < mrHdrLen b mh, b' (mh' + k) = b (mh + k)) : MrdRequest b' mh' addr count := by
  have twelve : 12 ≤ mrHdrLen b mh := by
    rw [mrHdrLen]
    split <;> omega
  have enables : b' (mh' + 7) = b (mh + 7) := same 7 (by omega)
  have falen : hdrFalen b' mh' = hdrFalen b mh := by
    apply load16_moved
    intro k hk
    rw [Nat.add_assoc, Nat.add_assoc]
    exact same _ (by omega)
  exact {
    field := by rw [mrAddrField_moved same, h.field]
    fstdw := by rw [mrFstdw, enables, ← mrFstdw, h.fstdw]
    lstdw := by rw [mrLstdw, enables, ← mrLstdw, h.lstdw]
    length := by rw [mrLengthDw, falen, ← mrLengthDw, h.length]
    span := h.span
    inSpace := h.inSpace }

end

/-! ## Commands -/

/-- What is sent: a write, with the packet id it draws, or a read. -/
inductive DmaKind where
  | write (packetId : BitVec 16)
  | read

/-- A DMA command: the globals and the rib it finds, and what the mbuf allocated for it
    holds. -/
structure DmaCommand where
  kind : DmaKind
  conf : NettlpConf
  rib : Option Rib
  lcoreId : Nat
  residual : ByteMem

namespace DmaCommand

/-- The frame that goes out, if one does. -/
def send (d : DmaCommand) : Option Mbuf :=
  match d.kind with
  | .write packetId => nettlpSendDmaWrite d.conf d.rib d.lcoreId packetId d.residual
  | .read => nettlpSendDmaRead d.conf d.rib d.lcoreId d.residual

/-- What the command is told to do. -/
def request (d : DmaCommand) : StoreRequest :=
  match d.kind with
  | .write _ => .write d.conf.memoryAddr.toNat (d.conf.payloadString.read 0 d.conf.payloadSize)
  | .read => .read d.conf.memoryAddr.toNat readPayloadSize

/-- How many bytes the header is for. -/
def size (d : DmaCommand) : Nat :=
  match d.kind with
  | .write _ => d.conf.payloadSize
  | .read => readPayloadSize

/-- The requests of the commands that send a frame. -/
def requests (ds : List DmaCommand) : List StoreRequest :=
  (ds.filter fun d => d.send.isSome).map request

/-- The payload of a write is behind as many bytes of padding as its first byte has in front of
    it in its double word, and the request fits the packet and the address space. A write of less
    than a double word gets the padding it needs only if it ends with the double word or with
    the byte before its last one. -/
structure Placed (d : DmaCommand) : Prop where
  pos : 1 ≤ d.size
  small : d.size < 2 ^ 64
  inSpace : d.conf.memoryAddr.toNat + 4 * spanDw d.conf.memoryAddr (BitVec.ofNat 64 d.size) < 2 ^ 64
  room : 150 + 4 * spanDw d.conf.memoryAddr (BitVec.ofNat 64 d.size) ≤ l2fwdPktmbufPool.bufLen
  lead : ∀ packetId, d.kind = .write packetId →
    4 ≤ d.conf.memoryAddr.toNat % 4 + d.size ∨ d.conf.memoryAddr.toNat % 4 + d.size = 3

end DmaCommand

/-! ## What goes out -/

/-- Format and type as a memory read gets them. -/
theorem tlpFmtType_mrd (ft : Byte) :
    tlpIsMrd (tlpSetFmt (tlpSetType ft tlpTypeMRd) tlpFmt3dw tlpFmtWoData) = true ∧
    tlpIsMrd (tlpSetFmt (tlpSetType ft tlpTypeMRd) tlpFmt4dw tlpFmtWoData) = true := by
  revert ft
  decide +kernel

section
variable (c : NettlpConf)

/-- The header code makes a UDP frame of every packet. -/
theorem rxIsUdp_prependHeaders (packetId : Option (BitVec 16)) {m : Mbuf} (room : 42 ≤ m.dataOff) :
    rxIsUdp (prependHeaders c packetId m).buf (m.dataOff - 42) = true := by
  obtain ⟨-, -, buf⟩ := prependHeaders_spec c packetId room
  obtain ⟨d, hd⟩ : ∃ d, m.dataOff = d + 42 := ⟨m.dataOff - 42, by omega⟩
  rw [hd, show d + 42 - 42 = d by omega] at buf ⊢
  rw [show d + 42 - 28 = d + 14 by omega] at buf
  have ether : (prependHeaders c packetId m).buf.load16 (d + 12) = htons 0x0800 := by
    rw [buf, putEther]
    rw [load16_congr fun k hk => write_of_outside _ _ _ (by rw [Vector.length_toList]; omega),
      load16_congr fun k hk => write_of_outside _ _ _ (by rw [Vector.length_toList]; omega),
      load16_store16]
  have proto : (prependHeaders c packetId m).buf (d + 23) = 17 := by
    rw [buf, putEther_of_outside _ _ _ (by omega), putIpv4, store16_of_outside _ _ _ (by omega),
      putIpv4Fields]
    exact store8_same _ (d + 14 + 9) _
  rw [rxIsUdp, ether, proto]
  rfl

end

/-- The buffer has a request header for `size` bytes at `mh`, and the address behind it. -/
def HasMrHdr (c : NettlpConf) (size : Nat) (type data : Byte) (b : ByteMem) (mh : Nat) : Prop :=
  ∃ b₀ mh₀, ∀ k < 8 + addrLen c, b (mh + k) = putMrHdr c size type data mh₀ b₀ (mh₀ + k)

namespace HasMrHdr

variable {c : NettlpConf} {size : Nat} {type data : Byte} {mh : Nat} {b : ByteMem}

theorem moved (h : HasMrHdr c size type data b mh) {b' : ByteMem} {mh' : Nat}
    (same : ∀ k < 8 + addrLen c, b' (mh' + k) = b (mh + k)) :
    HasMrHdr c size type data b' mh' := by
  obtain ⟨b₀, mh₀, header⟩ := h
  exact ⟨b₀, mh₀, fun k hk => (same k hk).trans (header k hk)⟩

/-- The request a header is laid out for. -/
theorem request (h : HasMrHdr c size type data b mh) (small : size < 2 ^ 64)
    (inSpace : c.memoryAddr.toNat + 4 * spanDw c.memoryAddr (BitVec.ofNat 64 size) < 2 ^ 64)
    (span : spanDw c.memoryAddr (BitVec.ofNat 64 size) < 1024) :
    MrdRequest b mh c.memoryAddr (BitVec.ofNat 64 size) := by
  obtain ⟨b₀, mh₀, header⟩ := h
  have count : (BitVec.ofNat 64 size).toNat = size := by
    rw [BitVec.toNat_ofNat, Nat.mod_eq_of_lt small]
  have calculated : (tlpCalculateLength c.memoryAddr (BitVec.ofNat 64 size)).toNat =
      spanDw c.memoryAddr (BitVec.ofNat 64 size) :=
    toNat_tlpCalculateLength (by rw [spanDw] at span; omega)
  have length := mrLengthDw_putMrHdr c type data mh₀ b₀ (BitVec.ofNat 64 size) (by omega)
  rw [count] at length
  have laid : MrdRequest (putMrHdr c size type data mh₀ b₀) mh₀ c.memoryAddr
      (BitVec.ofNat 64 size) := {
    field := mrAddrField_putMrHdr c type data mh₀ b₀ size
    fstdw := mrFstdw_putMrHdr c size type data mh₀ b₀
    lstdw := mrLstdw_putMrHdr c size type data mh₀ b₀
    length := by rw [length, calculated]
    span := span
    inSpace := by
      rw [spanDw] at inSpace
      omega }
  have whole : mrHdrLen (putMrHdr c size type data mh₀ b₀) mh₀ = 8 + addrLen c := by
    rw [mrHdrLen, tlpIs3dw_putMrHdr, addrLen]
    split <;> rfl
  exact laid.moved fun k hk => header k (by rwa [whole] at hk)

theorem fmtType (h : HasMrHdr c size type data b mh) :
    tlpIs3dw (hdrFmtType b mh) = addrIs32 c ∧ ∃ ft, hdrFmtType b mh =
      tlpSetFmt (tlpSetType ft type) (if addrIs32 c then tlpFmt3dw else tlpFmt4dw) data := by
  obtain ⟨b₀, mh₀, header⟩ := h
  obtain ⟨ft, format⟩ := hdrFmtType_putMrHdr c size type data mh₀ b₀
  have first : hdrFmtType b mh = hdrFmtType (putMrHdr c size type data mh₀ b₀) mh₀ :=
    header 0 (by omega)
  exact ⟨by rw [first, tlpIs3dw_putMrHdr], ft, first.trans format⟩

/-- A write is one, wherever its address is. -/
theorem isMwr (h : HasMrHdr c size tlpTypeMWr tlpFmtWData b mh) :
    tlpIsMwr (hdrFmtType b mh) = true := by
  obtain ⟨-, ft, format⟩ := h.fmtType
  obtain ⟨short, -, long, -⟩ := tlpFmtType_mwr ft
  rw [format]
  split
  · exact short
  · exact long

theorem isMrd (h : HasMrHdr c size tlpTypeMRd tlpFmtWoData b mh) :
    tlpIsMrd (hdrFmtType b mh) = true := by
  obtain ⟨-, ft, format⟩ := h.fmtType
  obtain ⟨short, long⟩ := tlpFmtType_mrd ft
  rw [format]
  split
  · exact short
  · exact long

/-- The data area of a write is behind the address. -/
theorem mwrDataArea_eq (h : HasMrHdr c size type data b mh) :
    mwrDataArea b mh = mh + 8 + addrLen c := by
  rw [mwrDataArea, h.fmtType.1, addrLen, sizeofTlpMrHdr]

end HasMrHdr

/-! ## The frame of a command -/

theorem rxTlpOffset_eq : rxTlpOffset = 48 := rfl

/-- A frame as the senders build them: UDP, with a request header, at the offset that is left of
    the headroom. -/
structure DmaFrame (c : NettlpConf) (size : Nat) (type data : Byte) (m : Mbuf) : Prop where
  dataOff : m.dataOff = 86
  isUdp : rxIsUdp m.buf 86 = true
  header : HasMrHdr c size type data m.buf (86 + rxTlpOffset)
  whole : rxTlpOffset + 8 + addrLen c ≤ m.dataLen

section
variable (c : NettlpConf) (packetId : Option (BitVec 16)) {size : Nat} {type data : Byte}

/-- The header code in front of a packet that starts with a request header. -/
theorem DmaFrame.of_prependHeaders {m : Mbuf} (off : m.dataOff = 128)
    (header : HasMrHdr c size type data m.buf (128 + 6)) (whole : 14 + addrLen c ≤ m.dataLen) :
    DmaFrame c size type data (prependHeaders c packetId m) := by
  obtain ⟨frameOff, frameLen, -⟩ := prependHeaders_spec c packetId (m := m) (by omega)
  have udp := rxIsUdp_prependHeaders c packetId (m := m) (by omega)
  rw [off] at frameOff udp
  refine ⟨frameOff, udp, header.moved fun k _ => ?_, ?_⟩
  · exact prependHeaders_of_ge c packetId (by omega) (by rw [off, rxTlpOffset_eq]; omega)
  · rw [frameLen, rxTlpOffset_eq]
    omega

variable (residual : ByteMem)

theorem dmaReadFrame_spec :
    DmaFrame c readPayloadSize tlpTypeMRd tlpFmtWoData
      (dmaReadFrame c (rtePktmbufAlloc l2fwdPktmbufPool residual)) := by
  have addrLen_le := addrLen_le_eight c
  have off : (rtePktmbufAlloc l2fwdPktmbufPool residual).dataOff = 128 := rfl
  have len : (rtePktmbufAlloc l2fwdPktmbufPool residual).dataLen = 0 := rfl
  have bufLen : (rtePktmbufAlloc l2fwdPktmbufPool residual).bufLen = 2176 := rfl
  obtain ⟨hdrOff, -, hdrLen⟩ := appendMrHdr_spec c readPayloadSize tlpTypeMRd tlpFmtWoData
    (m := rtePktmbufAlloc l2fwdPktmbufPool residual) (by rw [dmaArea]; omega)
  have hdrBuf := appendMrHdr_buf c readPayloadSize tlpTypeMRd tlpFmtWoData
    (m := rtePktmbufAlloc l2fwdPktmbufPool residual)
  refine DmaFrame.of_prependHeaders c none (hdrOff.trans off) ⟨residual, 134, fun k _ => ?_⟩ ?_
  · rw [hdrBuf]
    rfl
  · omega

variable {c}

/-- The frame of a write. The padding is as long as the first byte is far from its double
    word, so the payload is where the decoders look for it. -/
theorem dmaWriteFrame_spec (packetId : BitVec 16) (pos : 1 ≤ c.payloadSize)
    (inSpace : c.memoryAddr.toNat + 4 * spanDw c.memoryAddr c.payloadCount < 2 ^ 64)
    (room : 150 + 4 * spanDw c.memoryAddr c.payloadCount ≤ l2fwdPktmbufPool.bufLen)
    (small : c.payloadSize < 2 ^ 64)
    (lead : 4 ≤ c.memoryAddr.toNat % 4 + c.payloadSize ∨
      c.memoryAddr.toNat % 4 + c.payloadSize = 3) :
    DmaFrame c c.payloadSize tlpTypeMWr tlpFmtWData
        (dmaWriteFrame c packetId (rtePktmbufAlloc l2fwdPktmbufPool residual)) ∧
      rxTlpOffset + 8 + addrLen c + c.memoryAddr.toNat % 4 + c.payloadSize ≤
        (dmaWriteFrame c packetId (rtePktmbufAlloc l2fwdPktmbufPool residual)).dataLen ∧
      (dmaWriteFrame c packetId (rtePktmbufAlloc l2fwdPktmbufPool residual)).buf.read
          (86 + rxTlpOffset + 8 + addrLen c + c.memoryAddr.toNat % 4) c.payloadSize =
        c.payloadString.read 0 c.payloadSize := by
  have count := NettlpConf.toNat_payloadCount (c := c) small
  have offset : dmaLead c = c.memoryAddr.toNat % 4 := by
    rw [dmaLead, leadPad_fstdwOf (by omega), count]
    split <;> omega
  have length : dmaLead c + c.payloadSize + dmaTrail c ≤
      4 * spanDw c.memoryAddr c.payloadCount := by
    rw [spanDw, count] at inSpace ⊢
    rw [offset, dmaTrail, trailPad_lstdwOf (by omega) (by omega), count]
    split <;> omega
  have addrLen_le := addrLen_le_eight c
  have off : (rtePktmbufAlloc l2fwdPktmbufPool residual).dataOff = 128 := rfl
  have len : (rtePktmbufAlloc l2fwdPktmbufPool residual).dataLen = 0 := rfl
  have bufLen : (rtePktmbufAlloc l2fwdPktmbufPool residual).bufLen = l2fwdPktmbufPool.bufLen := rfl
  have area : dmaArea c (rtePktmbufAlloc l2fwdPktmbufPool residual) = 142 + addrLen c := by
    rw [dmaArea, off]
  obtain ⟨tlpOff, tlpLen, tlpBuf⟩ := dmaWriteTlp_spec c
    (m := rtePktmbufAlloc l2fwdPktmbufPool residual) (by omega)
  rw [off] at tlpOff
  rw [len] at tlpLen
  rw [area] at tlpBuf
  obtain ⟨-, frameLen, -⟩ := prependHeaders_spec c (some packetId)
    (m := dmaWriteTlp c (rtePktmbufAlloc l2fwdPktmbufPool residual)) (by omega)
  have behind {i : Nat} (h : 128 ≤ i) := prependHeaders_of_ge c (some packetId)
    (m := dmaWriteTlp c (rtePktmbufAlloc l2fwdPktmbufPool residual)) (i := i) (by omega) (by omega)
  refine ⟨DmaFrame.of_prependHeaders c _ tlpOff ⟨residual, 134, fun k hk => ?_⟩ (by omega), ?_, ?_⟩
  · rw [tlpBuf, write_of_lt _ _ _ (by omega), write_of_lt _ _ _ (by omega),
      write_of_lt _ _ _ (by omega)]
    rfl
  · rw [dmaWriteFrame, frameLen, rxTlpOffset_eq]
    omega
  · have size : (c.payloadString.read 0 c.payloadSize).length = c.payloadSize := length_read _ _ _
    have payload := read_write_same (((dmaHdr c (rtePktmbufAlloc l2fwdPktmbufPool residual)).write
      (142 + addrLen c) (List.replicate (dmaLead c) 0))) (142 + addrLen c + dmaLead c)
      (c.payloadString.read 0 c.payloadSize)
    rw [size] at payload
    rw [← payload, ← offset, rxTlpOffset_eq]
    apply read_congr
    intro k hk
    rw [dmaWriteFrame, behind (by omega), tlpBuf, write_of_lt _ _ _ (by omega)]

end

/-! ## Delivery -/

/-- The frame arrives: the peer's buffer starts with its octets. -/
def Arrives (m : Mbuf) (f : PsmemFrame) : Prop := StartsWith f.b f.eth m.data

theorem Arrives.at {m : Mbuf} {f : PsmemFrame} (h : Arrives m f) {k : Nat} (hk : k < m.dataLen) :
    f.b (f.eth + k) = m.buf (m.dataOff + k) := by
  have length : k < m.data.length := by rwa [Mbuf.data, length_read]
  rw [startsWith_iff.mp h k length]
  exact getElem_read _ _ _ _ _

section
variable {c : NettlpConf} {size : Nat} {type data : Byte} {m : Mbuf} {f : PsmemFrame}

theorem Arrives.isUdp (h : Arrives m f) (sent : DmaFrame c size type data m) :
    rxIsUdp f.b f.eth = true := by
  have whole := sent.whole
  have off := sent.dataOff
  rw [rxTlpOffset_eq] at whole
  have ether : f.b.load16 (f.eth + 12) = m.buf.load16 (86 + 12) := by
    apply load16_moved
    intro k hk
    rw [Nat.add_assoc, h.at (by omega), off, Nat.add_assoc]
  rw [← sent.isUdp, rxIsUdp, rxIsUdp, ether, h.at (by omega), off]

theorem Arrives.header (h : Arrives m f) (sent : DmaFrame c size type data m) :
    HasMrHdr c size type data f.b f.tlp := by
  have whole := sent.whole
  refine sent.header.moved fun k hk => ?_
  rw [PsmemFrame.tlp, Nat.add_assoc, h.at (by omega), sent.dataOff, Nat.add_assoc]

end

/-- What arrives of a command carries its request. -/
theorem DmaCommand.Placed.carries {d : DmaCommand} (placed : d.Placed) {m : Mbuf}
    (sent : d.send = some m) {f : PsmemFrame} (arrives : Arrives m f) : f.Carries d.request := by
  obtain ⟨kind, c, rib, lcoreId, residual⟩ := d
  obtain ⟨pos, small, inSpace, room, lead⟩ := placed
  have pool : l2fwdPktmbufPool.bufLen = 2176 := rfl
  cases kind with
  | read =>
      change nettlpSendDmaRead c rib lcoreId residual = some m at sent
      rw [nettlpSendDmaRead] at sent
      split at sent
      · cases sent
        have frame := dmaReadFrame_spec c residual
        refine @PsmemFrame.Carries.read f c.memoryAddr (BitVec.ofNat 64 readPayloadSize) ?_ ?_ pos
          inSpace
        · rw [rxIsMrd, arrives.isUdp frame, Bool.true_and]
          exact (arrives.header frame).isMrd
        · refine (arrives.header frame).request (by decide) inSpace ?_
          change 150 + 4 * spanDw c.memoryAddr (BitVec.ofNat 64 readPayloadSize) ≤ _ at room
          omega
      · cases sent
  | write packetId =>
      change nettlpSendDmaWrite c rib lcoreId packetId residual = some m at sent
      change 1 ≤ c.payloadSize at pos
      change c.payloadSize < 2 ^ 64 at small
      change c.memoryAddr.toNat + 4 * spanDw c.memoryAddr c.payloadCount < 2 ^ 64 at inSpace
      change 150 + 4 * spanDw c.memoryAddr c.payloadCount ≤ _ at room
      replace lead := lead packetId rfl
      change 4 ≤ c.memoryAddr.toNat % 4 + c.payloadSize ∨
        c.memoryAddr.toNat % 4 + c.payloadSize = 3 at lead
      rw [nettlpSendDmaWrite] at sent
      split at sent
      · cases sent
        obtain ⟨frame, whole, payload⟩ := dmaWriteFrame_spec residual packetId pos inSpace room small lead
        have header := arrives.header frame
        have count := NettlpConf.toNat_payloadCount (c := c) small
        have short : spanDw c.memoryAddr c.payloadCount < 1024 := by omega
        have bytes : f.b.read (mwrDataArea f.b f.tlp + c.memoryAddr.toNat % 4)
            c.payloadCount.toNat = c.payloadString.read 0 c.payloadSize := by
          rw [count, header.mwrDataArea_eq, ← payload]
          apply read_moved
          intro k hk
          have there := arrives.at (k := rxTlpOffset + 8 + addrLen c + c.memoryAddr.toNat % 4 + k)
            (by omega)
          rw [frame.dataOff] at there
          simp only [PsmemFrame.tlp, Nat.add_assoc] at there ⊢
          exact there
        have isMwr : rxIsMwr f.b f.eth = true := by
          rw [rxIsMwr, arrives.isUdp frame, Bool.true_and]
          exact header.isMwr
        have carried := @PsmemFrame.Carries.write f c.memoryAddr c.payloadCount isMwr
          (header.request small inSpace short) (by omega) inSpace
        rw [bytes] at carried
        exact carried
      · cases sent

/-! ## Sessions -/

/-- The store the pseudo memory is: every octet at its address. -/
def Psmem.store (p : Psmem) : ByteMem := fun a => p.memory (a - p.addr.toNat)

theorem Psmem.holds_store (p : Psmem) : p.Holds p.store := by
  intro i _
  rw [Psmem.store, Nat.add_sub_cancel_left]

/-- The frames that arrive carry the requests of the commands that sent one. -/
theorem DmaCommand.carries_requests {ds : List DmaCommand} (placed : ∀ d ∈ ds, d.Placed)
    {fs : List PsmemFrame} (arrive : List.Forall₂ Arrives (ds.filterMap send) fs) :
    List.Forall₂ PsmemFrame.Carries fs (requests ds) := by
  induction ds generalizing fs with
  | nil =>
      cases arrive
      exact .nil
  | cons d ds ih =>
      rw [List.forall_mem_cons] at placed
      obtain ⟨first, rest⟩ := placed
      cases sent : d.send with
      | none =>
          rw [List.filterMap_cons_none sent] at arrive
          have silent : requests (d :: ds) = requests ds := by simp [requests, sent]
          rw [silent]
          exact ih rest arrive
      | some m =>
          rw [List.filterMap_cons_some sent] at arrive
          have more : requests (d :: ds) = d.request :: requests ds := by simp [requests, sent]
          rw [more]
          cases arrive with
          | cons here there => exact .cons (first.carries sent here) (ih rest there)

/-- What the first is told to write is what the second is read from: over any commands whose
    frames arrive in their order, every read the range test lets through is answered with the
    bytes of the last writes before it, and so is what the memory holds in the end. -/
theorem psmemReceiveAll_session (c : NettlpConf) {p : Psmem} (top : p.endAddr < 2 ^ 64)
    {ds : List DmaCommand} (placed : ∀ d ∈ ds, d.Placed) {fs : List PsmemFrame}
    (arrive : List.Forall₂ Arrives (ds.filterMap DmaCommand.send) fs) :
    (psmemReceiveAll c fs p).returned = true ∧
      (∀ i addr count, (DmaCommand.requests ds)[i]? = some (.read addr count) →
        p.accepts (.read addr count) = true →
          ((psmemReceiveAll c fs p).answers.map (List.flatMap cplPayload))[i]? =
            some ((List.range count).map fun k =>
              (ByteStore.lastWrite p.accepts ((DmaCommand.requests ds).take i) (addr + k)).getD
                (p.store (addr + k)))) ∧
      ∀ i < p.size.toNat, (psmemReceiveAll c fs p).psmem.memory i =
        (ByteStore.lastWrite p.accepts (DmaCommand.requests ds) (p.addr.toNat + i)).getD
          (p.memory i) := by
  have carried := DmaCommand.carries_requests placed arrive
  obtain ⟨returned, answers, after⟩ := psmemReceiveAll_refines c top carried p.holds_store
  have region := psmemReceiveAll_region c fs p
  refine ⟨returned, ?_, ?_⟩
  · intro i addr count found accepted
    rw [answers]
    exact ByteStore.run_read p.accepts p.store found accepted
  · intro i hi
    have held := after i (by rw [region.2]; exact hi)
    rw [region.1] at held
    rw [held, ByteStore.run_store, ← p.holds_store i hi]

/-- A port with one queue to send on. -/
def dmaRib : Rib := ⟨some { RibInfo.zero with
  portSize := 1
  port := fun _ => { PortConf.zero with devInfo := ⟨1, 1, false⟩ } }⟩

/-- Three bytes to 0x1001, and a read of the double word they are in. -/
def dmaWriteRead : List DmaCommand :=
  [⟨.write 7, { NettlpConf.initial with
      memoryAddr := 0x1001
      payloadSize := 3
      payloadString := ByteMem.ofList [1, 2, 3] }, some dmaRib, 0, fun _ => 0xAA⟩,
    ⟨.read, { NettlpConf.initial with memoryAddr := 0x1000 }, some dmaRib, 0, fun _ => 0xAA⟩]

/-- The frames as they arrive at the same offset. -/
def dmaArrived (ds : List DmaCommand) : List PsmemFrame :=
  (ds.filterMap DmaCommand.send).map fun m => ⟨m.buf, m.dataOff, fun _ _ => 0⟩

theorem arrives_dmaArrived (ds : List DmaCommand) :
    List.Forall₂ Arrives (ds.filterMap DmaCommand.send) (dmaArrived ds) := by
  rw [dmaArrived, List.forall₂_map_right_iff, List.forall₂_same]
  intro m _
  rw [Arrives, StartsWith, Mbuf.data, length_read]

theorem psmemReceiveAll_session_writeRead :
    (psmemReceiveAll .initial (dmaArrived dmaWriteRead) zeroPsmem).returned = true ∧
      (∀ i addr count, (DmaCommand.requests dmaWriteRead)[i]? = some (.read addr count) →
        zeroPsmem.accepts (.read addr count) = true →
          ((psmemReceiveAll .initial (dmaArrived dmaWriteRead) zeroPsmem).answers.map
              (List.flatMap cplPayload))[i]? =
            some ((List.range count).map fun k =>
              (ByteStore.lastWrite zeroPsmem.accepts ((DmaCommand.requests dmaWriteRead).take i)
                (addr + k)).getD (zeroPsmem.store (addr + k)))) ∧
      ∀ i < zeroPsmem.size.toNat,
        (psmemReceiveAll .initial (dmaArrived dmaWriteRead) zeroPsmem).psmem.memory i =
          (ByteStore.lastWrite zeroPsmem.accepts (DmaCommand.requests dmaWriteRead)
            (zeroPsmem.addr.toNat + i)).getD (zeroPsmem.memory i) := by
  refine psmemReceiveAll_session .initial (by decide) ?_ (arrives_dmaArrived dmaWriteRead)
  simp only [dmaWriteRead, List.forall_mem_cons]
  refine ⟨⟨by decide, by decide, by decide, by decide, fun _ _ => .inl (by decide)⟩,
    ⟨by decide, by decide, by decide, by decide, ?_⟩, fun _ none => absurd none List.not_mem_nil⟩
  intro packetId read
  cases read

end Sdplane
