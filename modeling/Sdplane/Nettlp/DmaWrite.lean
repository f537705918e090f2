import Sdplane.Nettlp.EmittedHeaders
import Mathlib.Tactic.IntervalCases

/-!
# Round trip of DMA writes

What the decoders of `sdplane/nettlp_support.c` make of the TLP `nettlp_send_dma_write`
lays out (`nettlp.c:133-220`).
-/

namespace Sdplane

open ByteMem

/-! ## The request header -/

section
variable (c : NettlpConf) (size : Nat) (type data : Byte) (mh : Nat) (b : ByteMem)

/-- The octet of the byte enables is written before the length and the format. -/
theorem putMrHdr_byteEnables :
    putMrHdr c size type data mh b (mh + 7) =
      setMrFstdw
        (setMrLstdw ((b.store16 (mh + 4) (htons c.requester)).store8 (mh + 6) c.pciTag) mh
          (lstdwOf c.memoryAddr (BitVec.ofNat 64 size)))
        mh (fstdwOf c.memoryAddr (BitVec.ofNat 64 size)) (mh + 7) := by
  rw [putMrHdr_of_lt_addr c size type data mh b (by rw [sizeofTlpMrHdr]; omega), putMrFields,
    store8_of_ne _ _ _ (by omega), store8_of_ne _ _ _ (by omega),
    store16_of_outside _ _ _ (by omega)]

theorem mrFstdw_putMrHdr :
    mrFstdw (putMrHdr c size type data mh b) mh = fstdwOf c.memoryAddr (BitVec.ofNat 64 size) := by
  rw [mrFstdw, putMrHdr_byteEnables]
  exact mrFstdw_setMrFstdw _ mh _

theorem mrLstdw_putMrHdr :
    mrLstdw (putMrHdr c size type data mh b) mh = lstdwOf c.memoryAddr (BitVec.ofNat 64 size) := by
  rw [mrLstdw, putMrHdr_byteEnables]
  exact (mrLstdw_setMrFstdw _ mh _).trans (mrLstdw_setMrLstdw _ mh _)

theorem hdrFalen_putMrHdr :
    ∃ fl, hdrFalen (putMrHdr c size type data mh b) mh =
      tlpSetLength fl ((tlpCalculateLength c.memoryAddr (BitVec.ofNat 64 size)).setWidth 16) := by
  apply Exists.intro
  have fields : hdrFalen (putMrHdr c size type data mh b) mh =
      hdrFalen (putMrFields c size type data mh b) mh :=
    load16_congr fun k hk =>
      putMrHdr_of_lt_addr c size type data mh b (by rw [sizeofTlpMrHdr]; omega)
  rw [fields, hdrFalen, putMrFields, load16_store8 _ (by omega), load16_store8 _ (by omega),
    load16_store16]

theorem hdrFmtType_putMrHdr :
    ∃ ft, hdrFmtType (putMrHdr c size type data mh b) mh =
      tlpSetFmt (tlpSetType ft type) (if addrIs32 c then tlpFmt3dw else tlpFmt4dw) data := by
  apply Exists.intro
  rw [hdrFmtType, putMrHdr_of_lt_addr c size type data mh b (by rw [sizeofTlpMrHdr]; omega),
    putMrFields, store8_same, hdrFmtType, store8_same]

/-- The address field has the address of the double word. -/
theorem addrField_putMrHdr :
    (if addrIs32 c then
        (be32toh ((putMrHdr c size type data mh b).load32 (mh + sizeofTlpMrHdr))).setWidth 64
      else be64toh ((putMrHdr c size type data mh b).load64 (mh + sizeofTlpMrHdr))) =
      (c.memoryAddr >>> 2) <<< 2 := by
  unfold putMrHdr
  split
  · rename_i small
    have below : c.memoryAddr.toNat < 2 ^ 32 := by
      rw [addrIs32, decide_eq_true_iff, BitVec.lt_def] at small
      exact small.trans (by decide)
    have low : c.memoryAddr &&& 0xFFFFFFFF#64 = c.memoryAddr := by
      apply BitVec.eq_of_toNat_eq
      rw [BitVec.toNat_and]
      exact (Nat.and_two_pow_sub_one_eq_mod _ 32).trans (Nat.mod_eq_of_lt below)
    have masked : (c.memoryAddr &&& 0xFFFFFFFC#64).toNat = c.memoryAddr.toNat / 4 * 4 := by
      rw [← toNat_and_align_mask, show (0xFFFFFFFC#64) = 0xFFFFFFFF#64 &&& 0xFFFFFFFFFFFFFFFC#64
        from rfl, ← BitVec.and_assoc, low]
    rw [load32_store32, be32toh_htobe32]
    apply BitVec.eq_of_toNat_eq
    rw [toNat_shift_align, BitVec.toNat_setWidth, BitVec.toNat_setWidth, masked]
    omega
  · rw [load64_store64, be64toh_htobe64, and_align_mask]

end

/-! ## The layout -/

section
variable (pad padLen : Nat) (m : Mbuf)

theorem appendPad_buf :
    (appendPad pad padLen m).buf = m.buf.write pad (List.replicate padLen 0) := by
  unfold appendPad
  split
  · rw [Mbuf.modify_buf, Mbuf.append_buf]
  · rename_i none'
    rw [not_not.mp none', List.replicate_zero, write_nil]

theorem appendPad_dataOff : (appendPad pad padLen m).dataOff = m.dataOff := by
  unfold appendPad
  split <;> simp

theorem appendPad_bufLen : (appendPad pad padLen m).bufLen = m.bufLen := by
  unfold appendPad
  split <;> simp

theorem appendPad_dataLen (room : m.dataOff + m.dataLen + padLen ≤ m.bufLen) :
    (appendPad pad padLen m).dataLen = m.dataLen + padLen := by
  unfold appendPad
  split
  · rw [Mbuf.modify_dataLen, Mbuf.append_dataLen room]
  · rename_i none'
    rw [not_not.mp none', Nat.add_zero]

end

/-- The number of bytes asked for, as the calculators take it. -/
def NettlpConf.payloadCount (c : NettlpConf) : BitVec 64 := BitVec.ofNat 64 c.payloadSize

theorem NettlpConf.toNat_payloadCount {c : NettlpConf} (fits : c.payloadSize < 2 ^ 64) :
    c.payloadCount.toNat = c.payloadSize := by
  rw [payloadCount, BitVec.toNat_ofNat, Nat.mod_eq_of_lt fits]

/-- The padding in front of the payload and behind it. -/
def dmaLead (c : NettlpConf) : Nat := leadPad (fstdwOf c.memoryAddr c.payloadCount)
def dmaTrail (c : NettlpConf) : Nat := trailPad (lstdwOf c.memoryAddr c.payloadCount)

/-- Where the data area of a DMA write starts. -/
def dmaArea (c : NettlpConf) (m : Mbuf) : Nat := m.dataOff + 14 + addrLen c

/-- The request header of a DMA write. -/
def dmaHdr (c : NettlpConf) (m : Mbuf) : ByteMem :=
  putMrHdr c c.payloadSize tlpTypeMWr tlpFmtWData (m.dataOff + 6) m.buf

section
variable (c : NettlpConf) {m : Mbuf}

theorem four_le_addrLen : 4 ≤ addrLen c := by
  rw [addrLen]
  split <;> omega

theorem addrLen_le_eight : addrLen c ≤ 8 := by
  rw [addrLen]
  split <;> omega

section
variable (size : Nat) (type data : Byte)

theorem appendMrHdr_buf :
    (appendMrHdr c size type data m).buf = putMrHdr c size type data (m.dataOff + 6) m.buf := by
  simp only [appendMrHdr, Mbuf.append_buf, Mbuf.modify_buf, rtePktmbufMtod, Mbuf.append_dataOff,
    sizeofNettlpHdr]

/-- With room for it, the request header is appended and nothing else. -/
theorem appendMrHdr_spec (room : dmaArea c m + m.dataLen ≤ m.bufLen) :
    (appendMrHdr c size type data m).dataOff = m.dataOff ∧
    (appendMrHdr c size type data m).bufLen = m.bufLen ∧
    (appendMrHdr c size type data m).dataLen = m.dataLen + 14 + addrLen c := by
  rw [dmaArea] at room
  have start : m.dataOff + m.dataLen + (sizeofNettlpHdr + sizeofTlpMrHdr) ≤ m.bufLen := by
    simp only [sizeofNettlpHdr, sizeofTlpMrHdr]
    omega
  have first := Mbuf.append_dataLen start
  simp only [sizeofNettlpHdr, sizeofTlpMrHdr] at first
  refine ⟨(appendMrHdr_sameHeadroom c _ _ _ m).dataOff, ?_, ?_⟩
  · simp only [appendMrHdr, Mbuf.append_bufLen, Mbuf.modify_bufLen]
  · rw [appendMrHdr, Mbuf.append_dataLen, Mbuf.modify_dataLen]
    · simp only [sizeofNettlpHdr, sizeofTlpMrHdr, first]
    · simp only [sizeofNettlpHdr, sizeofTlpMrHdr, Mbuf.modify_dataOff, Mbuf.modify_dataLen,
        Mbuf.append_dataOff, Mbuf.modify_bufLen, Mbuf.append_bufLen, first]
      omega

end

/-- The padding is what the byte enables of the write say, read back from the header. -/
theorem dmaWriteTlp_eq :
    dmaWriteTlp c m =
      appendPad (dmaArea c m + dmaLead c + c.payloadSize) (dmaTrail c)
        ((rtePktmbufAppend (appendPad (dmaArea c m) (dmaLead c)
          (appendMrHdr c c.payloadSize tlpTypeMWr tlpFmtWData m)) c.payloadSize).modify
            (·.write (dmaArea c m + dmaLead c) (c.payloadString.read 0 c.payloadSize))) := by
  have hdrOff := (appendMrHdr_sameHeadroom c c.payloadSize tlpTypeMWr tlpFmtWData m).dataOff
  have hdrBuf : (appendMrHdr c c.payloadSize tlpTypeMWr tlpFmtWData m).buf = dmaHdr c m :=
    appendMrHdr_buf c _ _ _
  have area : m.dataOff + sizeofNettlpHdr + sizeofTlpMrHdr + addrLen c = dmaArea c m := by
    rw [dmaArea, sizeofNettlpHdr, sizeofTlpMrHdr]
  have behind : m.dataOff + 6 + 7 < dmaArea c m := by
    rw [dmaArea]
    omega
  have lead : leadPad (mrFstdw (dmaHdr c m) (m.dataOff + sizeofNettlpHdr)) = dmaLead c := by
    rw [dmaHdr, sizeofNettlpHdr, mrFstdw_putMrHdr, dmaLead, NettlpConf.payloadCount]
  simp only [dmaWriteTlp, rtePktmbufMtod]
  generalize appendMrHdr c c.payloadSize tlpTypeMWr tlpFmtWData m = m₁ at *
  rw [hdrBuf, hdrOff, lead, area]
  have padBuf := appendPad_buf (dmaArea c m) (dmaLead c) m₁
  rw [hdrBuf] at padBuf
  have trail : trailPad (mrLstdw (((dmaHdr c m).write (dmaArea c m)
      (List.replicate (dmaLead c) 0)).write (dmaArea c m + dmaLead c)
      (c.payloadString.read 0 c.payloadSize)) (m.dataOff + sizeofNettlpHdr)) = dmaTrail c := by
    rw [sizeofNettlpHdr, mrLstdw, write_of_lt _ _ _ (by omega), write_of_lt _ _ _ behind, dmaTrail,
      NettlpConf.payloadCount,
      ← mrLstdw_putMrHdr c c.payloadSize tlpTypeMWr tlpFmtWData (m.dataOff + 6) m.buf]
    rfl
  simp only [Mbuf.modify_buf, Mbuf.append_buf, padBuf, trail]

/-- With room for all of it, the TLP is the header, the padding, the payload and the
    padding one after the other. -/
theorem dmaWriteTlp_spec
    (room : dmaArea c m + m.dataLen + dmaLead c + c.payloadSize + dmaTrail c ≤ m.bufLen) :
    (dmaWriteTlp c m).dataOff = m.dataOff ∧
    (dmaWriteTlp c m).dataLen =
      m.dataLen + 14 + addrLen c + dmaLead c + c.payloadSize + dmaTrail c ∧
    (dmaWriteTlp c m).buf =
      (((dmaHdr c m).write (dmaArea c m) (List.replicate (dmaLead c) 0)).write
          (dmaArea c m + dmaLead c) (c.payloadString.read 0 c.payloadSize)).write
        (dmaArea c m + dmaLead c + c.payloadSize) (List.replicate (dmaTrail c) 0) := by
  obtain ⟨hdrOff, hdrBufLen, hdrLen⟩ :=
    appendMrHdr_spec c (m := m) c.payloadSize tlpTypeMWr tlpFmtWData (by omega)
  have hdrBuf : (appendMrHdr c c.payloadSize tlpTypeMWr tlpFmtWData m).buf = dmaHdr c m :=
    appendMrHdr_buf c _ _ _
  rw [dmaWriteTlp_eq]
  generalize appendMrHdr c c.payloadSize tlpTypeMWr tlpFmtWData m = m₁ at *
  rw [dmaArea] at room
  -- the padding and the payload
  have padBuf := appendPad_buf (dmaArea c m) (dmaLead c) m₁
  have padOff := appendPad_dataOff (dmaArea c m) (dmaLead c) m₁
  have padBufLen := appendPad_bufLen (dmaArea c m) (dmaLead c) m₁
  have padLen := appendPad_dataLen (dmaArea c m) (dmaLead c) m₁ (by omega)
  rw [hdrBuf] at padBuf
  generalize appendPad (dmaArea c m) (dmaLead c) m₁ = m₂ at *
  have dataLen : (rtePktmbufAppend m₂ c.payloadSize).dataLen = m₂.dataLen + c.payloadSize :=
    Mbuf.append_dataLen (by omega)
  refine ⟨?_, ?_, ?_⟩
  · rw [appendPad_dataOff, Mbuf.modify_dataOff, Mbuf.append_dataOff, padOff, hdrOff]
  · rw [appendPad_dataLen, Mbuf.modify_dataLen, dataLen, padLen, hdrLen]
    simp only [Mbuf.modify_dataOff, Mbuf.modify_dataLen, Mbuf.modify_bufLen, Mbuf.append_dataOff,
      Mbuf.append_bufLen, dataLen]
    omega
  · rw [appendPad_buf, Mbuf.modify_buf, Mbuf.append_buf, padBuf]

end

/-! ## The padding in plain arithmetic -/

/-- The loop in front of the payload has no `break`, so for a write inside one DW that
    leaves bytes at the end of it disabled, it counts some of those as well. -/
theorem leadPad_fstdwOf {addr count : BitVec 64} (hc : 1 ≤ count.toNat) :
    leadPad (fstdwOf addr count) =
      if 4 ≤ addr.toNat % 4 + count.toNat then addr.toNat % 4 else 3 - count.toNat := by
  have ho : addr.toNat % 4 < 4 := Nat.mod_lt _ (by omega)
  rw [fstdwOf_eq]
  generalize addr.toNat % 4 = o at *
  generalize count.toNat = n at *
  by_cases small : n < 4
  · rw [if_pos small]
    interval_cases n <;> interval_cases o <;> decide
  · rw [if_neg small, if_pos (by omega)]
    interval_cases o <;> decide

theorem trailPad_lstdwOf {addr count : BitVec 64} (hc : 1 ≤ count.toNat)
    (hw : addr.toNat + count.toNat ≤ 2 ^ 64) :
    trailPad (lstdwOf addr count) =
      if addr.toNat % 4 + count.toNat ≤ 4 then 0
      else 3 - (addr.toNat + count.toNat - 1) % 4 :=
  count_lstdwOf (by decide) (by decide) (by decide) hc hw

/-- The data area has the whole double words of the span, unless the write ends before the
    end of the one it starts in: then it has three bytes. -/
theorem dmaArea_length (c : NettlpConf) (hc : 1 ≤ c.payloadCount.toNat)
    (hw : c.memoryAddr.toNat + c.payloadCount.toNat + 4 < 2 ^ 64) :
    dmaLead c + c.payloadCount.toNat + dmaTrail c =
      if 4 ≤ c.memoryAddr.toNat % 4 + c.payloadCount.toNat then
        4 * spanDw c.memoryAddr c.payloadCount
      else 3 := by
  rw [dmaLead, dmaTrail, leadPad_fstdwOf hc, trailPad_lstdwOf hc (by omega), spanDw]
  split <;> split <;> omega

/-! ## Decoding -/

/-- What the round trip asks of the TLP in `m`: it is a memory write with the address, the
    length and the payload it was built from, and a data area as long as it says. -/
structure DmaWriteRoundTrip (c : NettlpConf) (m : Mbuf) : Prop where
  isMwr : tlpIsMwr (hdrFmtType m.buf (rtePktmbufMtod m + sizeofNettlpHdr)) = true
  addr : tlpMrAddr m.buf (rtePktmbufMtod m + sizeofNettlpHdr) = c.memoryAddr
  length : tlpMrDataLength m.buf (rtePktmbufMtod m + sizeofNettlpHdr) = c.payloadSize
  payload : m.buf.read (tlpMwrData m.buf (rtePktmbufMtod m + sizeofNettlpHdr)) c.payloadSize =
    c.payloadString.read 0 c.payloadSize
  area : rtePktmbufPktLen m = sizeofNettlpHdr + sizeofTlpMrHdr +
    (if tlpIs3dw (hdrFmtType m.buf (rtePktmbufMtod m + sizeofNettlpHdr)) then 4 else 8) +
    4 * mrLengthDw m.buf (rtePktmbufMtod m + sizeofNettlpHdr)

/-- A buffer that has the request header of a DMA write at `m.dataOff + 6`. -/
structure HasDmaHdr (c : NettlpConf) (m : Mbuf) (b : ByteMem) : Prop where
  same : ∀ i < dmaArea c m, b i = dmaHdr c m i

namespace HasDmaHdr

variable {c : NettlpConf} {m : Mbuf} {b : ByteMem}

theorem fmtType (h : HasDmaHdr c m b) :
    tlpIsMwr (hdrFmtType b (m.dataOff + 6)) = true ∧
      tlpIs3dw (hdrFmtType b (m.dataOff + 6)) = addrIs32 c := by
  obtain ⟨ft, format⟩ := hdrFmtType_putMrHdr c c.payloadSize tlpTypeMWr tlpFmtWData
    (m.dataOff + 6) m.buf
  have first : hdrFmtType b (m.dataOff + 6) = hdrFmtType (dmaHdr c m) (m.dataOff + 6) :=
    h.same _ (by rw [dmaArea]; omega)
  obtain ⟨mwr3, is3, mwr4, is4⟩ := tlpFmtType_mwr ft
  rw [first, dmaHdr, format]
  cases short : addrIs32 c with
  | true => exact ⟨mwr3, is3⟩
  | false => exact ⟨mwr4, is4⟩

theorem fstdw (h : HasDmaHdr c m b) :
    mrFstdw b (m.dataOff + 6) = fstdwOf c.memoryAddr c.payloadCount := by
  have four := four_le_addrLen c
  rw [NettlpConf.payloadCount, ← mrFstdw_putMrHdr c c.payloadSize tlpTypeMWr tlpFmtWData _ m.buf,
    mrFstdw, h.same _ (by rw [dmaArea]; omega)]
  rfl

theorem lstdw (h : HasDmaHdr c m b) :
    mrLstdw b (m.dataOff + 6) = lstdwOf c.memoryAddr c.payloadCount := by
  have four := four_le_addrLen c
  rw [NettlpConf.payloadCount, ← mrLstdw_putMrHdr c c.payloadSize tlpTypeMWr tlpFmtWData _ m.buf,
    mrLstdw, h.same _ (by rw [dmaArea]; omega)]
  rfl

/-- The length field keeps ten bits of the span. -/
theorem lengthDw (h : HasDmaHdr c m b) (span : spanDw c.memoryAddr c.payloadCount ≤ 1024) :
    mrLengthDw b (m.dataOff + 6) = spanDw c.memoryAddr c.payloadCount % 1024 := by
  obtain ⟨fl, falen⟩ := hdrFalen_putMrHdr c c.payloadSize tlpTypeMWr tlpFmtWData
    (m.dataOff + 6) m.buf
  have same : hdrFalen b (m.dataOff + 6) = hdrFalen (dmaHdr c m) (m.dataOff + 6) :=
    load16_congr fun k hk => h.same _ (by rw [dmaArea]; omega)
  have calculated : (tlpCalculateLength c.memoryAddr c.payloadCount).toNat =
      spanDw c.memoryAddr c.payloadCount :=
    toNat_tlpCalculateLength (by rw [spanDw] at span; omega)
  rw [mrLengthDw, same, dmaHdr, falen, toNat_tlpLength_tlpSetLength, BitVec.toNat_setWidth,
    ← NettlpConf.payloadCount, calculated]
  omega

theorem addrField (h : HasDmaHdr c m b) :
    mrAddrField b (m.dataOff + 6) = (c.memoryAddr >>> 2) <<< 2 := by
  rw [mrAddrField, h.fmtType.2,
    ← addrField_putMrHdr c c.payloadSize tlpTypeMWr tlpFmtWData (m.dataOff + 6) m.buf]
  have len : addrLen c = if addrIs32 c then 4 else 8 := rfl
  split
  · rename_i short
    rw [if_pos short] at len
    rw [load32_congr fun k hk => h.same _ (by rw [dmaArea, sizeofTlpMrHdr]; omega)]
    rfl
  · rename_i long
    rw [if_neg long] at len
    rw [load64_congr fun k hk => h.same _ (by rw [dmaArea, sizeofTlpMrHdr]; omega)]
    rfl

theorem addr (h : HasDmaHdr c m b) (hc : 1 ≤ c.payloadCount.toNat) :
    tlpMrAddr b (m.dataOff + 6) = c.memoryAddr :=
  tlpMrAddr_of_calculated hc h.addrField h.fstdw

theorem dataLength (h : HasDmaHdr c m b) (hc : 1 ≤ c.payloadCount.toNat)
    (hw : c.memoryAddr.toNat + c.payloadCount.toNat ≤ 2 ^ 64)
    (fits : spanDw c.memoryAddr c.payloadCount ≤ 1023) :
    tlpMrDataLength b (m.dataOff + 6) = c.payloadCount.toNat := by
  have length := h.lengthDw (fits.trans (by omega))
  rw [Nat.mod_eq_of_lt (by omega)] at length
  exact tlpMrDataLength_of_calculated hc hw h.fstdw h.lstdw length

/-- The decoder skips the padding in front of the payload if that is what it takes to be the
    disabled bytes of the first double word. -/
theorem mwrData (h : HasDmaHdr c m b) (hc : 1 ≤ c.payloadCount.toNat)
    (full : 4 ≤ c.memoryAddr.toNat % 4 + c.payloadCount.toNat) :
    tlpMwrData b (m.dataOff + 6) = dmaArea c m + dmaLead c := by
  rw [tlpMwrData, h.fstdw, fstdwSkip_fstdwOf hc, h.fmtType.2, ← addrLen, dmaArea, dmaLead,
    leadPad_fstdwOf hc, if_pos full, sizeofTlpMrHdr]

end HasDmaHdr

section
variable (c : NettlpConf) (pool : MbufPool) (residual : ByteMem)

/-- A DMA write round-trips exactly when it reaches the end of the double word it starts
    in and its span fits the length field. -/
theorem dmaWriteTlp_roundTrip_iff (hc : 1 ≤ c.payloadSize)
    (hw : c.memoryAddr.toNat + c.payloadSize + 4 < 2 ^ 64)
    (span : spanDw c.memoryAddr c.payloadCount ≤ 1024)
    (room : rtePktmbufHeadroom + 14 + addrLen c + 4 * spanDw c.memoryAddr c.payloadCount ≤
      pool.bufLen) :
    DmaWriteRoundTrip c (dmaWriteTlp c (rtePktmbufAlloc pool residual)) ↔
      4 ≤ c.memoryAddr.toNat % 4 + c.payloadSize ∧
        spanDw c.memoryAddr c.payloadCount ≤ 1023 := by
  have count := @NettlpConf.toNat_payloadCount c (by omega)
  have pos : 1 ≤ c.payloadCount.toNat := by omega
  have length := dmaArea_length c pos (by omega)
  rw [count] at length
  have headroom : (rtePktmbufAlloc pool residual).dataOff = 128 := rfl
  have empty : (rtePktmbufAlloc pool residual).dataLen = 0 := rfl
  have bufLen : (rtePktmbufAlloc pool residual).bufLen = pool.bufLen := rfl
  have spanPos : 1 ≤ spanDw c.memoryAddr c.payloadCount := by
    rw [spanDw]
    omega
  rw [rtePktmbufHeadroom] at room
  obtain ⟨off, len, buf⟩ := dmaWriteTlp_spec c (m := rtePktmbufAlloc pool residual)
    (by rw [dmaArea]; split at length <;> omega)
  generalize hm : rtePktmbufAlloc pool residual = m at *
  have hdr : HasDmaHdr c m (dmaWriteTlp c m).buf := by
    constructor
    intro i hi
    rw [buf, write_of_lt _ _ _ (by omega), write_of_lt _ _ _ (by omega), write_of_lt _ _ _ hi]
  have format := hdr.fmtType
  have dw := hdr.lengthDw span
  constructor
  · intro trip
    have area := trip.area
    simp only [rtePktmbufPktLen, rtePktmbufMtod, off, sizeofNettlpHdr, sizeofTlpMrHdr,
      format.2, dw, len, empty] at area
    rw [← addrLen] at area
    split at length <;> omega
  · rintro ⟨full, fits⟩
    rw [if_pos full] at length
    rw [← count] at full
    refine ⟨?_, ?_, ?_, ?_, ?_⟩ <;>
      simp only [rtePktmbufPktLen, rtePktmbufMtod, off, sizeofNettlpHdr, sizeofTlpMrHdr]
    · exact format.1
    · exact hdr.addr pos
    · rw [hdr.dataLength pos (by omega) fits, count]
    · have size : (c.payloadString.read 0 c.payloadSize).length = c.payloadSize := length_read _ _ _
      have read := read_write_same ((dmaHdr c m).write (dmaArea c m)
        (List.replicate (dmaLead c) 0)) (dmaArea c m + dmaLead c)
        (c.payloadString.read 0 c.payloadSize)
      rw [size] at read
      rw [hdr.mwrData pos full, buf, read_write_disjoint _ _ _ _ _ (Or.inl (Nat.le_refl _)), read]
    · rw [format.2, dw, len, empty, ← addrLen]
      omega

end

/-- One byte to the start of a double word, and four. -/
def dmaOneByte : NettlpConf := { NettlpConf.initial with memoryAddr := 0x1000, payloadSize := 1 }
def dmaFourBytes : NettlpConf := { dmaOneByte with payloadSize := 4 }

theorem dmaWriteTlp_roundTrip_fourBytes :
    DmaWriteRoundTrip dmaFourBytes
      (dmaWriteTlp dmaFourBytes (rtePktmbufAlloc l2fwdPktmbufPool fun _ => 0)) ↔
      4 ≤ dmaFourBytes.memoryAddr.toNat % 4 + dmaFourBytes.payloadSize ∧
        spanDw dmaFourBytes.memoryAddr dmaFourBytes.payloadCount ≤ 1023 :=
  dmaWriteTlp_roundTrip_iff dmaFourBytes l2fwdPktmbufPool (fun _ => 0) (by decide) (by decide)
    (by decide) (by decide)

/-- The data area of `dmaOneByte` has three bytes, the length field says one DW. -/
theorem dmaWriteTlp_roundTrip_not :
    ¬ ∀ (c : NettlpConf) (pool : MbufPool) (residual : ByteMem), 1 ≤ c.payloadSize →
      c.memoryAddr.toNat + c.payloadSize + 4 < 2 ^ 64 →
      spanDw c.memoryAddr c.payloadCount ≤ 1024 →
      rtePktmbufHeadroom + 14 + addrLen c + 4 * spanDw c.memoryAddr c.payloadCount ≤ pool.bufLen →
        DmaWriteRoundTrip c (dmaWriteTlp c (rtePktmbufAlloc pool residual)) := by
  intro roundTrip
  have area := (roundTrip dmaOneByte l2fwdPktmbufPool (fun _ => 0) (by decide) (by decide)
    (by decide) (by decide)).area
  revert area
  decide +kernel

end Sdplane
