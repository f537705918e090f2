import Sdplane.Nettlp.DmaWrite
import Sdplane.Tlp.ByteEnables

/-!
# Request headers

A header the DMA senders store (`nettlp.c:133-165`, `311-342`), read back with the decoders and
by its byte enables.
-/

namespace Sdplane

open ByteMem

section
variable (c : NettlpConf) (type data : Byte) (mh : Nat) (b : ByteMem)

/-- The format a header gets says how long its address field is. -/
theorem tlpIs3dw_tlpSetFmt (ft : Byte) :
    tlpIs3dw (tlpSetFmt ft tlpFmt3dw data) = true ∧
      tlpIs3dw (tlpSetFmt ft tlpFmt4dw data) = false := by
  have word (dw : Byte) : tlpFmtDw (tlpSetFmt ft dw data) = dw &&& tlpFmtDwMask := by
    rw [tlpFmtDw, tlpSetFmt]
    ext i hi
    simp only [tlpFmtDwMask, tlpFmtDataMask, BitVec.getElem_and, BitVec.getElem_or,
      BitVec.getElem_not]
    interval_cases i <;> simp
  constructor
  · rw [tlpIs3dw, word]
    rfl
  · rw [tlpIs3dw, word]
    rfl

theorem tlpIs3dw_putMrHdr (size : Nat) :
    tlpIs3dw (hdrFmtType (putMrHdr c size type data mh b) mh) = addrIs32 c := by
  obtain ⟨ft, format⟩ := hdrFmtType_putMrHdr c size type data mh b
  obtain ⟨short, long⟩ := tlpIs3dw_tlpSetFmt data (tlpSetType ft type)
  rw [format]
  cases width : addrIs32 c with
  | true => exact short
  | false => exact long

theorem mrAddrField_putMrHdr (size : Nat) :
    mrAddrField (putMrHdr c size type data mh b) mh = (c.memoryAddr >>> 2) <<< 2 := by
  rw [mrAddrField, tlpIs3dw_putMrHdr]
  exact addrField_putMrHdr c size type data mh b

variable (count : BitVec 64)

theorem mrLengthDw_putMrHdr (span : spanDw c.memoryAddr count ≤ 1023) :
    mrLengthDw (putMrHdr c count.toNat type data mh b) mh = spanDw c.memoryAddr count := by
  obtain ⟨fl, falen⟩ := hdrFalen_putMrHdr c count.toNat type data mh b
  have calculated : (tlpCalculateLength c.memoryAddr count).toNat = spanDw c.memoryAddr count :=
    toNat_tlpCalculateLength (by rw [spanDw] at span; omega)
  rw [mrLengthDw, falen, toNat_tlpLength_tlpSetLength, BitVec.ofNat_toNat, BitVec.setWidth_eq,
    BitVec.toNat_setWidth, calculated]
  omega

/-- What is stored in a header for a request is what the decoders get out of it, and the bytes
    it enables are those requested. -/
theorem putMrHdr_inverse (hc : 1 ≤ count.toNat)
    (hw : c.memoryAddr.toNat + count.toNat + 4 < 2 ^ 64)
    (span : spanDw c.memoryAddr count ≤ 1023) :
    tlpIs3dw (hdrFmtType (putMrHdr c count.toNat type data mh b) mh) =
        decide (c.memoryAddr < 0xFFFFFFFF#64) ∧
      tlpMrAddr (putMrHdr c count.toNat type data mh b) mh = c.memoryAddr ∧
      tlpMrDataLength (putMrHdr c count.toNat type data mh b) mh = count.toNat ∧
      ∀ a, mrEnables (putMrHdr c count.toNat type data mh b) mh a ↔
        c.memoryAddr.toNat ≤ a ∧ a < c.memoryAddr.toNat + count.toNat := by
  have field := mrAddrField_putMrHdr c type data mh b count.toNat
  have length := mrLengthDw_putMrHdr c type data mh b count span
  have fstdw := mrFstdw_putMrHdr c count.toNat type data mh b
  have lstdw := mrLstdw_putMrHdr c count.toNat type data mh b
  rw [BitVec.ofNat_toNat, BitVec.setWidth_eq] at fstdw lstdw
  refine ⟨tlpIs3dw_putMrHdr c type data mh b _, tlpMrAddr_of_calculated hc field fstdw,
    tlpMrDataLength_of_calculated hc (by omega) fstdw lstdw length, ?_⟩
  intro a
  rw [mrEnables, field, length, fstdw, lstdw, toNat_shift_align]
  constructor
  · rintro ⟨i, enabled, rfl⟩
    rw [byteEnabled_of_calculated hc hw] at enabled
    omega
  · rintro ⟨low, high⟩
    refine ⟨a - c.memoryAddr.toNat / 4 * 4, ?_, by omega⟩
    rw [byteEnabled_of_calculated hc hw]
    omega

end

/-- Four bytes at 0x1000. -/
theorem putMrHdr_inverse_fourBytes :
    let h := putMrHdr dmaFourBytes (4#64).toNat tlpTypeMRd tlpFmtWoData 0 fun _ => 0
    tlpIs3dw (hdrFmtType h 0) = decide (dmaFourBytes.memoryAddr < 0xFFFFFFFF#64) ∧
      tlpMrAddr h 0 = dmaFourBytes.memoryAddr ∧ tlpMrDataLength h 0 = (4#64).toNat ∧
      ∀ a, mrEnables h 0 a ↔
        dmaFourBytes.memoryAddr.toNat ≤ a ∧ a < dmaFourBytes.memoryAddr.toNat + (4#64).toNat :=
  putMrHdr_inverse dmaFourBytes tlpTypeMRd tlpFmtWoData 0 (fun _ => 0) 4 (by decide) (by decide)
    (by decide)

end Sdplane
