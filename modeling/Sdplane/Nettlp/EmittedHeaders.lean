import Sdplane.Nettlp.Ipv4
import Sdplane.Nettlp.PsmemRead

/-!
# The headers of the emitted frames

What the three frame builders of `sdplane/nettlp.c` write before the header code runs lies
behind the headroom, so the header area still holds the bytes of an earlier packet.
-/

namespace Sdplane

open ByteMem

/-- The two packets have the same headroom with the same bytes in it. -/
structure SameHeadroom (m m' : Mbuf) : Prop where
  dataOff : m'.dataOff = m.dataOff
  buf : ∀ i < m.dataOff, m'.buf i = m.buf i

namespace SameHeadroom

variable {m m' : Mbuf}

theorem refl (m : Mbuf) : SameHeadroom m m := ⟨rfl, fun _ _ => rfl⟩

theorem append (h : SameHeadroom m m') (len : Nat) : SameHeadroom m (rtePktmbufAppend m' len) where
  dataOff := by rw [Mbuf.append_dataOff, h.dataOff]
  buf := by rw [Mbuf.append_buf]; exact h.buf

theorem modify (h : SameHeadroom m m') {f : ByteMem → ByteMem}
    (hf : ∀ b, ∀ i < m.dataOff, f b i = b i) : SameHeadroom m (m'.modify f) where
  dataOff := h.dataOff
  buf := fun i hi => (hf m'.buf i hi).trans (h.buf i hi)

/-- A write that starts in the packet or behind it. -/
theorem write (h : SameHeadroom m m') {p : Nat} (bs : List Byte) (hp : m.dataOff ≤ p) :
    SameHeadroom m (m'.modify (·.write p bs)) :=
  h.modify fun b _ hi => write_of_lt b p bs (Nat.lt_of_lt_of_le hi hp)

theorem appendPad (h : SameHeadroom m m') {pad : Nat} (padLen : Nat) (hp : m.dataOff ≤ pad) :
    SameHeadroom m (appendPad pad padLen m') := by
  unfold Sdplane.appendPad
  split
  · exact (h.append padLen).write _ hp
  · exact h

end SameHeadroom

/-- The request header without the address behind it, which is the same for both sizes of
    the address field but for the format. -/
def putMrFields (c : NettlpConf) (size : Nat) (type data : Byte) (mh : Nat) (b : ByteMem) :
    ByteMem :=
  let count := BitVec.ofNat 64 size
  let b := b.store16 (mh + 4) (htons c.requester)
  let b := b.store8 (mh + 6) c.pciTag
  let b := setMrLstdw b mh (lstdwOf c.memoryAddr count)
  let b := setMrFstdw b mh (fstdwOf c.memoryAddr count)
  let length := (tlpCalculateLength c.memoryAddr count).setWidth 16
  let b := b.store16 (mh + 2) (tlpSetLength (hdrFalen b mh) length)
  let b := b.store8 mh (tlpSetType (hdrFmtType b mh) type)
  b.store8 mh (tlpSetFmt (hdrFmtType b mh) (if addrIs32 c then tlpFmt3dw else tlpFmt4dw) data)

section
variable (c : NettlpConf) (size : Nat) (type data : Byte) (mh : Nat) (b : ByteMem)

/-- The address goes behind the header. -/
theorem putMrHdr_of_lt_addr {i : Nat} (h : i < mh + sizeofTlpMrHdr) :
    putMrHdr c size type data mh b i = putMrFields c size type data mh b i := by
  unfold putMrHdr putMrFields
  split
  · rw [store32_of_outside _ _ _ (Or.inl h)]
  · rw [store64_of_outside _ _ _ (Or.inl h)]

/-- Nothing is stored before the header and between its type and its length. -/
theorem putMrHdr_of_unset {i : Nat} (h : i < mh ∨ i = mh + 1) :
    putMrHdr c size type data mh b i = b i := by
  rw [putMrHdr_of_lt_addr c size type data mh b (by rw [sizeofTlpMrHdr]; omega)]
  simp only [putMrFields, setMrFstdw, setMrLstdw]
  rw [store8_of_ne _ _ _ (by omega), store8_of_ne _ _ _ (by omega),
    store16_of_outside _ _ _ (by omega), store8_of_ne _ _ _ (by omega),
    store8_of_ne _ _ _ (by omega), store8_of_ne _ _ _ (by omega),
    store16_of_outside _ _ _ (by omega)]

end

theorem putCplHdr_of_lt (c : NettlpConf) (b : ByteMem) (mh : Nat) (s : MrdState) (nh : Nat)
    (d : ByteMem) {i : Nat} (h : i < nh) : putCplHdr c b mh s nh d i = d i := by
  unfold putCplHdr
  rw [store8_of_ne _ _ _ (by omega), store8_of_ne _ _ _ (by omega),
    store16_of_outside _ _ _ (by omega), store16_of_outside _ _ _ (by omega),
    store16_of_outside _ _ _ (by omega), store16_of_outside _ _ _ (by omega),
    store16_of_outside _ _ _ (by omega), store8_of_ne _ _ _ (by omega),
    store8_of_ne _ _ _ (by omega), write_of_lt _ _ _ (by omega), write_of_lt _ _ _ (by omega),
    write_of_lt _ _ _ h]

theorem appendMrHdr_sameHeadroom (c : NettlpConf) (size : Nat) (type data : Byte) (m : Mbuf) :
    SameHeadroom m (appendMrHdr c size type data m) := by
  have start := (SameHeadroom.refl m).append (sizeofNettlpHdr + sizeofTlpMrHdr)
  refine (start.modify fun b i hi => putMrHdr_of_unset c size type data _ b (.inl ?_)).append _
  rw [rtePktmbufMtod, start.dataOff]
  omega

theorem dmaWriteTlp_sameHeadroom (c : NettlpConf) (m : Mbuf) :
    SameHeadroom m (dmaWriteTlp c m) := by
  have hdr := appendMrHdr_sameHeadroom c c.payloadSize tlpTypeMWr tlpFmtWData m
  have off := hdr.dataOff
  simp only [dmaWriteTlp, rtePktmbufMtod]
  refine (((hdr.appendPad _ ?_).append _).write _ ?_).appendPad _ ?_
  all_goals omega

theorem mrdTlp_sameHeadroom (c : NettlpConf) (p : Psmem) (b : ByteMem) (mh : Nat)
    (residual : ByteMem) (s : MrdState) :
    SameHeadroom (rtePktmbufAlloc l2fwdPktmbufPool residual) (mrdTlp c p b mh residual s) := by
  have start := ((SameHeadroom.refl (rtePktmbufAlloc l2fwdPktmbufPool residual)).append
    sizeofNettlpHdr).append sizeofTlpCplHdr
  have hdr := (start.modify fun d i hi => putCplHdr_of_lt c b mh s _ d hi).append s.sendLen
  refine hdr.write _ ?_
  simp only [rtePktmbufMtod, Mbuf.append_dataOff]
  omega

/-- The header code behind a builder that left the headroom of its mbuf alone. -/
theorem prependHeaders_valid_iff_of_sameHeadroom (c : NettlpConf)
    (packetId : Option (BitVec 16)) {residual : ByteMem} {m : Mbuf}
    (same : SameHeadroom (rtePktmbufAlloc l2fwdPktmbufPool residual) m) :
    Ipv4HeaderValid (prependHeaders c packetId m) ↔ ResidualHarmless residual 100 := by
  have off : m.dataOff = 128 := same.dataOff
  rw [prependHeaders_valid_iff c packetId (by omega), off]
  exact residualHarmless_congr fun k hk => same.buf _ (by
    simp only [Mbuf.alloc_dataOff, rtePktmbufHeadroom]; omega)

/-- The frames of a DMA write, of a DMA read and of a completion have a valid IPv4 header
    exactly when the recycled buffer had a zero where the checksum goes and no fragment
    bits where the fragment field goes. -/
theorem emitted_ipv4HeaderValid_iff (c : NettlpConf) (residual : ByteMem) :
    (∀ packetId, Ipv4HeaderValid
        (dmaWriteFrame c packetId (rtePktmbufAlloc l2fwdPktmbufPool residual)) ↔
      ResidualHarmless residual 100) ∧
    (Ipv4HeaderValid (dmaReadFrame c (rtePktmbufAlloc l2fwdPktmbufPool residual)) ↔
      ResidualHarmless residual 100) ∧
    (∀ p b mh s, Ipv4HeaderValid (nettlpUdpSend c (mrdTlp c p b mh residual s)) ↔
      ResidualHarmless residual 100) := by
  refine ⟨?_, ?_, ?_⟩
  · intro packetId
    exact prependHeaders_valid_iff_of_sameHeadroom c _ (dmaWriteTlp_sameHeadroom c _)
  · exact prependHeaders_valid_iff_of_sameHeadroom c _ (appendMrHdr_sameHeadroom c _ _ _ _)
  · intro p b mh s
    exact prependHeaders_valid_iff_of_sameHeadroom c _ (mrdTlp_sameHeadroom c p b mh residual s)

/-- A buffer in which a frame of this thread went out before: its checksum is still there,
    here of a frame whose checksum was 1. -/
def residualChecksum : ByteMem := ByteMem.write (fun _ => 0) 110 [0x00, 0x01]

theorem emitted_ipv4Header_invalid :
    ¬ ∀ (c : NettlpConf) (residual : ByteMem),
      (∀ packetId, Ipv4HeaderValid
        (dmaWriteFrame c packetId (rtePktmbufAlloc l2fwdPktmbufPool residual))) ∧
      Ipv4HeaderValid (dmaReadFrame c (rtePktmbufAlloc l2fwdPktmbufPool residual)) ∧
      (∀ p b mh s, Ipv4HeaderValid (nettlpUdpSend c (mrdTlp c p b mh residual s))) := by
  intro valid
  obtain ⟨-, read, -⟩ := valid .initial residualChecksum
  have harmless := (prependHeaders_valid_iff_of_sameHeadroom .initial _
    (appendMrHdr_sameHeadroom .initial _ _ _ _)).mp read
  have checksum := harmless.checksum
  revert checksum
  decide

end Sdplane
