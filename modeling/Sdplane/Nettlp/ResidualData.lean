import Sdplane.Nettlp.DmaWrite

/-!
# Residual data in DMA requests

Which of the octets an mbuf held before show in the TLP of a DMA write or a DMA read
(`nettlp.c:131-220`, `307-342`). Both lay out a frame in a buffer that is not cleared; the
format, the type and the length are set by macros that keep the other bits of their field.
-/

namespace Sdplane

open ByteMem

/-- The frame behind its Ethernet, IPv4 and UDP headers. -/
def tlpOctets (m : Mbuf) : List Byte :=
  m.data.drop (sizeofEtherHdr + sizeofIpv4Hdr + sizeofUdpHdr)

/-- The bits of the length field's 16 bits that a request of `size` bytes sets or clears:
    the ten of the length, and those a length over ten bits spills into. -/
def falenWritten (c : NettlpConf) (size : Nat) : BitVec 16 :=
  tlpLengthMask ||| (tlpCalculateLength c.memoryAddr (BitVec.ofNat 64 size)).setWidth 16

/-- The two buffers agree on what the header code of a DMA request leaves: the six octets of
    the NetTLP header, the top bit of the format octet, the octet after it, and the bits
    around the length. -/
structure ResidualAgree (c : NettlpConf) (size : Nat) (r r' : ByteMem) : Prop where
  nettlp : ∀ k < sizeofNettlpHdr, r (128 + k) = r' (128 + k)
  format : r 134 &&& 0x80 = r' 134 &&& 0x80
  traffic : r 135 = r' 135
  falen : ntohs (r.load16 136) &&& ~~~falenWritten c size =
    ntohs (r'.load16 136) &&& ~~~falenWritten c size

/-! ## The header fields -/

/-- Setting format and type keeps the top bit and nothing else. -/
theorem tlpSetFmt_tlpSetType_eq_iff {dw data : Byte} (hdw : dw = tlpFmt3dw ∨ dw = tlpFmt4dw)
    (hdata : data = tlpFmtWoData ∨ data = tlpFmtWData) (ft ft' : Byte) :
    tlpSetFmt (tlpSetType ft tlpTypeMWr) dw data = tlpSetFmt (tlpSetType ft' tlpTypeMWr) dw data ↔
      ft &&& 0x80 = ft' &&& 0x80 := by
  have kept : ∀ x : Byte, tlpSetFmt (tlpSetType x tlpTypeMWr) dw data =
        (x &&& 0x80) ||| (dw ||| data) ∧
      ((x &&& 0x80) ||| (dw ||| data)) &&& 0x80 = x &&& 0x80 := by
    rcases hdw with rfl | rfl <;> rcases hdata with rfl | rfl <;> decide +kernel
  rw [(kept ft).1, (kept ft').1]
  constructor
  · intro same
    rw [← (kept ft).2, ← (kept ft').2, same]
  · intro same
    rw [same]

theorem htons_inj {x y : BitVec 16} : htons x = htons y ↔ x = y := by
  constructor
  · intro same
    rw [← ntohs_htons x, ← ntohs_htons y, same]
  · intro same
    rw [same]

/-- Setting the length keeps the bits it does not write. -/
theorem tlpSetLength_eq_iff (fl fl' v : BitVec 16) :
    tlpSetLength fl v = tlpSetLength fl' v ↔
      ntohs fl &&& ~~~(tlpLengthMask ||| v) = ntohs fl' &&& ~~~(tlpLengthMask ||| v) := by
  rw [tlpSetLength, tlpSetLength, htons_inj]
  constructor
  -- bit by bit, either way
  all_goals
    intro same
    ext i hi
    have bit := congrArg (fun x => x[i]) same
    simp only [BitVec.getElem_or, BitVec.getElem_and, BitVec.getElem_not] at bit ⊢
    revert bit
    cases (ntohs fl)[i] <;> cases (ntohs fl')[i] <;> cases tlpLengthMask[i] <;> cases v[i] <;> simp

/-- Two 16-bit stores leave the same octets when they store the same value. -/
theorem store16_eq_iff (b b' : ByteMem) (p : Nat) (v v' : BitVec 16) :
    (∀ k < 2, b.store16 p v (p + k) = b'.store16 p v' (p + k)) ↔ v = v' := by
  constructor
  · intro same
    rw [← load16_store16 b p v, ← load16_store16 b' p v', load16_congr same]
  · rintro rfl k hk
    exact write_inside b p _ b' (by omega) (by rw [length_toLe]; omega)

section
variable (c : NettlpConf) (size : Nat) (type data : Byte) (mh : Nat) (b b' : ByteMem)

/-- The request header before its requester field. -/
theorem putMrHdr_head :
    putMrHdr c size type data mh b mh = tlpSetFmt (tlpSetType (b mh) type)
        (if addrIs32 c then tlpFmt3dw else tlpFmt4dw) data ∧
    putMrHdr c size type data mh b (mh + 1) = b (mh + 1) ∧
    ∀ k < 2, putMrHdr c size type data mh b (mh + 2 + k) =
      b.store16 (mh + 2) (tlpSetLength (b.load16 (mh + 2))
        ((tlpCalculateLength c.memoryAddr (BitVec.ofNat 64 size)).setWidth 16)) (mh + 2 + k) := by
  have falen : hdrFalen (setMrFstdw (setMrLstdw
      ((b.store16 (mh + 4) (htons c.requester)).store8 (mh + 6) c.pciTag) mh
        (lstdwOf c.memoryAddr (BitVec.ofNat 64 size))) mh
        (fstdwOf c.memoryAddr (BitVec.ofNat 64 size))) mh = b.load16 (mh + 2) := by
    rw [hdrFalen, setMrFstdw, setMrLstdw, load16_store8 _ (by omega), load16_store8 _ (by omega),
      load16_store8 _ (by omega), load16_store16_of_disjoint _ (by omega)]
  refine ⟨?_, ?_, ?_⟩
  · rw [putMrHdr_of_lt_addr c size type data mh b (by rw [sizeofTlpMrHdr]; omega)]
    simp only [putMrFields, hdrFmtType, setMrFstdw, setMrLstdw, store8_same]
    rw [store16_of_outside _ _ _ (by omega), store8_of_ne _ _ _ (by omega),
      store8_of_ne _ _ _ (by omega), store8_of_ne _ _ _ (by omega),
      store16_of_outside _ _ _ (by omega)]
  · exact putMrHdr_of_unset c size type data mh b (.inr rfl)
  · intro k hk
    rw [putMrHdr_of_lt_addr c size type data mh b (by rw [sizeofTlpMrHdr]; omega), putMrFields,
      falen, store8_of_ne _ _ _ (by omega), store8_of_ne _ _ _ (by omega)]
    exact write_inside _ _ _ _ (by omega) (by rw [length_toLe]; omega)

/-- The octet with the byte enables is written whole. -/
theorem putMrHdr_byteEnables_eq :
    putMrHdr c size type data mh b (mh + 7) =
      lstdwOf c.memoryAddr (BitVec.ofNat 64 size) ++ fstdwOf c.memoryAddr (BitVec.ofNat 64 size) := by
  rw [putMrHdr_byteEnables, setMrFstdw, store8_same, mrLstdw_setMrLstdw]

/-- From the requester field on the request header is the same in every buffer. -/
theorem putMrHdr_tail {i : Nat} (h1 : mh + 4 ≤ i) (h2 : i < mh + sizeofTlpMrHdr + addrLen c) :
    putMrHdr c size type data mh b i = putMrHdr c size type data mh b' i := by
  by_cases address : mh + sizeofTlpMrHdr ≤ i
  · unfold addrLen at h2
    unfold putMrHdr
    split
    · next narrow =>
        rw [if_pos narrow] at h2
        exact write_inside _ _ _ _ address (by rw [length_toLe]; omega)
    · next wide =>
        rw [if_neg wide] at h2
        exact write_inside _ _ _ _ address (by rw [length_toLe]; omega)
  · rw [sizeofTlpMrHdr] at address
    by_cases enables : i = mh + 7
    · rw [enables, putMrHdr_byteEnables_eq, putMrHdr_byteEnables_eq]
    · rw [putMrHdr_of_lt_addr c size type data mh b (by rw [sizeofTlpMrHdr]; omega),
        putMrHdr_of_lt_addr c size type data mh b' (by rw [sizeofTlpMrHdr]; omega)]
      simp only [putMrFields, setMrFstdw, setMrLstdw]
      simp only [store8_of_ne _ (mh + 7) _ enables,
        store8_of_ne _ mh _ (show i ≠ mh by omega),
        store16_of_outside _ (mh + 2) _ (show i < mh + 2 ∨ mh + 2 + 2 ≤ i by omega)]
      by_cases tag : i = mh + 6
      · rw [tag, store8_same, store8_same]
      · rw [store8_of_ne _ _ _ tag, store8_of_ne _ _ _ tag]
        exact write_inside _ _ _ _ (by omega) (by rw [length_toLe]; omega)

end

/-! ## Two runs side by side -/

/-- Two packets of one shape whose octets up to 138 are those of `h` and of `h'`, and whose
    octets from there to `stop`, past the end of the packet, are the same. -/
structure WrittenTo (h h' : ByteMem) (m m' : Mbuf) (stop : Nat) : Prop where
  dataOff : m.dataOff = 128 ∧ m'.dataOff = 128
  shape : m'.dataLen = m.dataLen ∧ m'.bufLen = m.bufLen
  head : ∀ i < 138, m.buf i = h i ∧ m'.buf i = h' i
  same : ∀ i, 138 ≤ i → i < stop → m.buf i = m'.buf i
  header : 10 ≤ m.dataLen ∧ 142 ≤ stop
  inside : 128 + m.dataLen ≤ stop

namespace WrittenTo

variable {h h' : ByteMem} {m m' : Mbuf} {stop : Nat}

/-- Appending and writing what follows keeps the packets in step. -/
theorem append_write (w : WrittenTo h h' m m' stop) {len : Nat} {bs : List Byte}
    (hlen : bs.length = len) :
    WrittenTo h h' ((rtePktmbufAppend m len).modify (·.write stop bs))
      ((rtePktmbufAppend m' len).modify (·.write stop bs)) (stop + len) := by
  obtain ⟨off, off'⟩ := w.dataOff
  obtain ⟨dataLen, bufLen⟩ := w.shape
  obtain ⟨long, past⟩ := w.header
  have inside := w.inside
  have grown : (rtePktmbufAppend m' len).dataLen = (rtePktmbufAppend m len).dataLen ∧
      (rtePktmbufAppend m len).dataLen ≤ m.dataLen + len := by
    have small := Nat.mod_le len (2 ^ 16)
    rw [Mbuf.append_dataLen_eq, Mbuf.append_dataLen_eq, off, off', dataLen, bufLen]
    refine ⟨rfl, ?_⟩
    split <;> omega
  have more := Mbuf.dataLen_le_append m len
  refine ⟨?_, ?_, ?_, ?_, ?_, ?_⟩
  · simpa only [Mbuf.modify_dataOff, Mbuf.append_dataOff] using ⟨off, off'⟩
  · simpa only [Mbuf.modify_dataLen, Mbuf.modify_bufLen, Mbuf.append_bufLen] using
      ⟨grown.1, bufLen⟩
  · intro i hi
    simp only [Mbuf.modify_buf, Mbuf.append_buf, write_of_lt _ stop bs (show i < stop by omega)]
    exact w.head i hi
  · intro i h1 h2
    simp only [Mbuf.modify_buf, Mbuf.append_buf]
    by_cases written : i < stop
    · rw [write_of_lt _ _ _ written, write_of_lt _ _ _ written]
      exact w.same i h1 written
    · exact write_inside _ _ _ _ (by omega) (by omega)
  · rw [Mbuf.modify_dataLen]
    omega
  · rw [Mbuf.modify_dataLen]
    omega

theorem appendPad (w : WrittenTo h h' m m' stop) (padLen : Nat) :
    WrittenTo h h' (appendPad stop padLen m) (appendPad stop padLen m') (stop + padLen) := by
  unfold Sdplane.appendPad
  split
  · exact w.append_write (List.length_replicate ..)
  · next none' =>
      rw [not_not.mp none']
      exact w

/-- The octet with the byte enables is past the part that may differ. -/
theorem byteEnables (w : WrittenTo h h' m m' stop) :
    mrFstdw m'.buf 134 = mrFstdw m.buf 134 ∧ mrLstdw m'.buf 134 = mrLstdw m.buf 134 := by
  have past := w.header.2
  have octet : m.buf 141 = m'.buf 141 := w.same 141 (by omega) (by omega)
  constructor
  · rw [mrFstdw, mrFstdw, ← octet]
  · rw [mrLstdw, mrLstdw, ← octet]

/-- The padding behind the payload. -/
theorem trail (w : WrittenTo h h' m m' stop) :
    WrittenTo h h' (Sdplane.appendPad stop (trailPad (mrLstdw m.buf 134)) m)
      (Sdplane.appendPad stop (trailPad (mrLstdw m'.buf 134)) m')
      (stop + trailPad (mrLstdw m.buf 134)) := by
  rw [w.byteEnables.2]
  exact w.appendPad _

/-- The packets have the same octets when the two heads have. -/
theorem data_eq_iff (w : WrittenTo h h' m m' stop) :
    m.data = m'.data ↔ ∀ i, 128 ≤ i → i < 138 → h i = h' i := by
  obtain ⟨off, off'⟩ := w.dataOff
  have long := w.header.1
  have inside := w.inside
  rw [Mbuf.data, Mbuf.data, off, off', w.shape.1]
  constructor
  · intro same i h1 h2
    have octet := List.getElem_of_eq same (i := i - 128) (by rw [length_read]; omega)
    rw [getElem_read, getElem_read, Nat.add_sub_cancel' h1, (w.head i h2).1, (w.head i h2).2]
      at octet
    exact octet
  · intro same
    apply read_congr
    intro k hk
    by_cases front : 128 + k < 138
    · rw [(w.head _ front).1, (w.head _ front).2]
      exact same _ (by omega) front
    · exact w.same _ (by omega) (by omega)

end WrittenTo

section
variable (c : NettlpConf) (size : Nat) (type data : Byte) (r r' : ByteMem)

theorem appendMrHdr_alloc_buf :
    (appendMrHdr c size type data (rtePktmbufAlloc l2fwdPktmbufPool r)).buf =
      putMrHdr c size type data 134 r :=
  appendMrHdr_buf c size type data

theorem appendMrHdr_mtod :
    rtePktmbufMtod (appendMrHdr c size type data (rtePktmbufAlloc l2fwdPktmbufPool r)) = 128 :=
  (appendMrHdr_sameHeadroom c size type data _).dataOff

/-- A fresh mbuf has room for header and address. -/
theorem appendMrHdr_dataLen :
    (appendMrHdr c size type data (rtePktmbufAlloc l2fwdPktmbufPool r)).dataLen =
      14 + addrLen c := by
  have small := addrLen_le_eight c
  have room : dmaArea c (rtePktmbufAlloc l2fwdPktmbufPool r) + 0 ≤ 2176 := by
    change 128 + 14 + addrLen c + 0 ≤ 2176
    omega
  rw [(appendMrHdr_spec c size type data room).2.2, Mbuf.alloc_dataLen, Nat.zero_add]

/-- The request header in a fresh mbuf. -/
theorem appendMrHdr_writtenTo :
    WrittenTo (putMrHdr c size type data 134 r) (putMrHdr c size type data 134 r')
      (appendMrHdr c size type data (rtePktmbufAlloc l2fwdPktmbufPool r))
      (appendMrHdr c size type data (rtePktmbufAlloc l2fwdPktmbufPool r')) (142 + addrLen c) where
  dataOff := ⟨appendMrHdr_mtod c size type data r, appendMrHdr_mtod c size type data r'⟩
  shape := by
    refine ⟨by rw [appendMrHdr_dataLen, appendMrHdr_dataLen], ?_⟩
    simp only [appendMrHdr, Mbuf.append_bufLen, Mbuf.modify_bufLen, Mbuf.alloc_bufLen]
  head := fun i _ => by rw [appendMrHdr_alloc_buf, appendMrHdr_alloc_buf]; exact ⟨rfl, rfl⟩
  same := by
    intro i h1 h2
    rw [appendMrHdr_alloc_buf, appendMrHdr_alloc_buf]
    exact putMrHdr_tail c size type data 134 r r' h1 (by rw [sizeofTlpMrHdr]; omega)
  header := by rw [appendMrHdr_dataLen]; omega
  inside := by rw [appendMrHdr_dataLen]; omega

/-- The TLP of a DMA write. -/
theorem dmaWriteTlp_writtenTo :
    ∃ stop, WrittenTo (putMrHdr c c.payloadSize tlpTypeMWr tlpFmtWData 134 r)
      (putMrHdr c c.payloadSize tlpTypeMWr tlpFmtWData 134 r')
      (dmaWriteTlp c (rtePktmbufAlloc l2fwdPktmbufPool r))
      (dmaWriteTlp c (rtePktmbufAlloc l2fwdPktmbufPool r')) stop := by
  have hdr := appendMrHdr_writtenTo c c.payloadSize tlpTypeMWr tlpFmtWData r r'
  have mh := appendMrHdr_mtod c c.payloadSize tlpTypeMWr tlpFmtWData
  simp only [dmaWriteTlp, mh, sizeofNettlpHdr, sizeofTlpMrHdr, Nat.reduceAdd]
  -- the padding in front comes out of an octet both runs have written
  rw [hdr.byteEnables.1]
  exact ⟨_, ((hdr.appendPad _).append_write (length_read c.payloadString 0 c.payloadSize)).trail⟩

/-- What follows the UDP header of a frame is the packet the header code got. -/
theorem tlpOctets_prependHeaders (packetId : Option (BitVec 16)) {m : Mbuf}
    (off : m.dataOff = 128) : tlpOctets (prependHeaders c packetId m) = m.data := by
  obtain ⟨start, grown, -⟩ := prependHeaders_spec c packetId (m := m) (by omega)
  have split : (prependHeaders c packetId m).data =
      (prependHeaders c packetId m).buf.read 86 42 ++ (prependHeaders c packetId m).buf.read 128
        m.dataLen := by
    rw [Mbuf.data, start, grown, off, Nat.add_comm, read_add]
  have same : (prependHeaders c packetId m).buf.read 128 m.dataLen = m.buf.read 128 m.dataLen :=
    read_congr fun k _ => prependHeaders_of_ge c packetId (by omega) (by omega)
  rw [tlpOctets, split, same, Mbuf.data, off]
  exact List.drop_left' (length_read _ _ _)

variable {size data}

/-- The ten octets in front of the requester field are the same when the buffers agree on
    what the header code leaves. -/
theorem putMrHdr_head_eq_iff (hdata : data = tlpFmtWoData ∨ data = tlpFmtWData) :
    (∀ i, 128 ≤ i → i < 138 → putMrHdr c size tlpTypeMWr data 134 r i =
        putMrHdr c size tlpTypeMWr data 134 r' i) ↔ ResidualAgree c size r r' := by
  have hdw : (if addrIs32 c then tlpFmt3dw else tlpFmt4dw) = tlpFmt3dw ∨
      (if addrIs32 c then tlpFmt3dw else tlpFmt4dw) = tlpFmt4dw := by
    split
    · exact Or.inl rfl
    · exact Or.inr rfl
  obtain ⟨format, traffic, falen⟩ := putMrHdr_head c size tlpTypeMWr data 134 r
  obtain ⟨format', traffic', falen'⟩ := putMrHdr_head c size tlpTypeMWr data 134 r'
  constructor
  · intro same
    refine ⟨?_, ?_, ?_, ?_⟩
    · intro k hk
      rw [sizeofNettlpHdr] at hk
      have octet := same (128 + k) (by omega) (by omega)
      rwa [putMrHdr_of_unset _ _ _ _ _ _ (.inl (by omega)),
        putMrHdr_of_unset _ _ _ _ _ _ (.inl (by omega))] at octet
    · rw [← tlpSetFmt_tlpSetType_eq_iff hdw hdata, ← format, ← format']
      exact same 134 (by omega) (by omega)
    · rw [← traffic, ← traffic']
      exact same 135 (by omega) (by omega)
    · rw [falenWritten, ← tlpSetLength_eq_iff, ← store16_eq_iff r r' 136]
      intro k hk
      rw [← falen k hk, ← falen' k hk]
      exact same _ (by omega) (by omega)
  · intro agree i h1 h2
    have word := agree.falen
    rw [falenWritten, ← tlpSetLength_eq_iff, ← store16_eq_iff r r' 136] at word
    by_cases nettlp : i < 134
    · obtain ⟨k, rfl⟩ := Nat.exists_eq_add_of_le h1
      rw [putMrHdr_of_unset _ _ _ _ _ _ (.inl nettlp), putMrHdr_of_unset _ _ _ _ _ _ (.inl nettlp)]
      exact agree.nettlp k (by rw [sizeofNettlpHdr]; omega)
    · rcases Nat.lt_or_ge i 136 with low | high
      · rcases (by omega : i = 134 ∨ i = 135) with rfl | rfl
        · rw [format, format', tlpSetFmt_tlpSetType_eq_iff hdw hdata]
          exact agree.format
        · rw [traffic, traffic']
          exact agree.traffic
      · obtain ⟨k, rfl⟩ := Nat.exists_eq_add_of_le high
        rw [falen k (by omega), falen' k (by omega)]
        exact word k (by omega)

end

/-- Two runs of `nettlp_send_dma_write`, and two of `nettlp_send_dma_read`, emit the same
    octets behind the UDP header exactly when they send nothing or the mbufs held the same
    in the NetTLP header and around the fields that are set by read and modify. -/
theorem dmaTlp_same_iff (c : NettlpConf) (rib : Option Rib) (lcoreId : Nat)
    (packetId packetId' : BitVec 16) (r r' : ByteMem) :
    ((nettlpSendDmaWrite c rib lcoreId packetId r).map tlpOctets =
        (nettlpSendDmaWrite c rib lcoreId packetId' r').map tlpOctets ↔
      dmaTxReady c rib lcoreId = false ∨ ResidualAgree c c.payloadSize r r') ∧
    ((nettlpSendDmaRead c rib lcoreId r).map tlpOctets =
        (nettlpSendDmaRead c rib lcoreId r').map tlpOctets ↔
      dmaTxReady c rib lcoreId = false ∨ ResidualAgree c readPayloadSize r r') := by
  cases ready : dmaTxReady c rib lcoreId with
  | false => simp [nettlpSendDmaWrite, nettlpSendDmaRead, ready]
  | true =>
      simp only [nettlpSendDmaWrite, nettlpSendDmaRead, ready, if_true, Option.map_some,
        Option.some.injEq, Bool.true_eq_false, false_or, dmaWriteFrame, dmaReadFrame]
      constructor
      · obtain ⟨stop, w⟩ := dmaWriteTlp_writtenTo c r r'
        rw [tlpOctets_prependHeaders c _ w.dataOff.1, tlpOctets_prependHeaders c _ w.dataOff.2,
          w.data_eq_iff]
        exact putMrHdr_head_eq_iff c r r' (Or.inr rfl)
      · have w := appendMrHdr_writtenTo c readPayloadSize tlpTypeMRd tlpFmtWoData r r'
        rw [tlpOctets_prependHeaders c _ w.dataOff.1, tlpOctets_prependHeaders c _ w.dataOff.2,
          w.data_eq_iff]
        exact putMrHdr_head_eq_iff c r r' (Or.inl rfl)

/-- A rib with one port that has a tx queue for every lcore. -/
def readyRib : Rib :=
  ⟨some { RibInfo.zero with portSize := 1, port := fun _ => { PortConf.zero with
    devInfo := ⟨4, 4, true⟩ } }⟩

/-- The octet behind the format still holds what a former packet left there. -/
def residualTraffic : ByteMem := ByteMem.write (fun _ => 0) 135 [0x5A]

theorem dmaTlp_residual :
    ¬ ∀ (c : NettlpConf) (rib : Option Rib) (lcoreId : Nat) (packetId : BitVec 16)
      (r r' : ByteMem),
      (nettlpSendDmaWrite c rib lcoreId packetId r).map tlpOctets =
        (nettlpSendDmaWrite c rib lcoreId packetId r').map tlpOctets ∧
      (nettlpSendDmaRead c rib lcoreId r).map tlpOctets =
        (nettlpSendDmaRead c rib lcoreId r').map tlpOctets := by
  intro same
  have read := (same .initial (some readyRib) 0 0 (fun _ => 0) residualTraffic).2
  have ready : dmaTxReady .initial (some readyRib) 0 = true := by decide
  have w := appendMrHdr_writtenTo .initial readPayloadSize tlpTypeMRd tlpFmtWoData (fun _ => 0)
    residualTraffic
  simp only [nettlpSendDmaRead, ready, if_true, Option.map_some, Option.some.injEq, dmaReadFrame]
    at read
  rw [tlpOctets_prependHeaders _ _ w.dataOff.1, tlpOctets_prependHeaders _ _ w.dataOff.2,
    w.data_eq_iff] at read
  have agree := (putMrHdr_head_eq_iff .initial _ _ (Or.inl rfl)).mp read
  have traffic := agree.traffic
  revert traffic
  decide

end Sdplane
