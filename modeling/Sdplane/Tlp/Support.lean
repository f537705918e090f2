import Sdplane.Tlp.Header
import Mathlib.Tactic.IntervalCases

/-!
# TLP calculators and decoders

`sdplane/nettlp_support.c`: the three `tlp_calculate_*` functions an encoder uses, the
decoders of a memory request and of a completion, and their meaning in plain arithmetic.
`uintptr_t` and `size_t` are `BitVec 64`, `int` is `BitVec 32` or its signed value.
-/

namespace Sdplane

open ByteMem

/-! ## Encoder side (`nettlp_support.c:5-49`) -/

/-- `tlp_calculate_lstdw`. The shift count stays below 5 unless an address sum wraps. -/
def tlpCalculateLstdw (addr count : BitVec 64) : BitVec 32 :=
  let start := (addr >>> 2) <<< 2
  let stop := addr + count
  let endStart := if stop &&& 0x3#64 = 0 then stop - 4#64 else (stop >>> 2) <<< 2
  -- corner case: the request ends in the DW it starts in
  let endStart := if endStart ≤ start then addr + 4#64 else endStart
  if stop < endStart then 0
  else ~~~(0xF#32 <<< (stop - endStart).toNat) &&& 0xF

/-- `tlp_calculate_fstdw`; `be` is a `uint8_t` that is promoted before the last shift. -/
def tlpCalculateFstdw (addr count : BitVec 64) : BitVec 32 :=
  let be : BitVec 32 := if count < 4 then ~~~(0xF#32 <<< count.toNat) &&& 0xF else 0xF
  (be <<< (addr &&& 0x3#64).toNat) &&& 0xF

/-- `tlp_calculate_length`; the `size_t` result is returned as an `int`. -/
def tlpCalculateLength (addr count : BitVec 64) : BitVec 32 :=
  let start := addr &&& 0xFFFFFFFFFFFFFFFC#64
  let stop := addr + count
  let len := (stop - start) >>> 2
  let len := if (stop - start) &&& 0x3#64 ≠ 0 then len + 1#64 else len
  len.setWidth 32

/-! ## Decoder side (`nettlp_support.c:51-147`) -/

/-- How far the loop of `tlp_mr_addr` and `tlp_mwr_data` moves forward: the disabled bytes
    before the first enabled one, if the first DW is partially enabled. -/
def fstdwSkip (be : BitVec 4) : Nat :=
  if be ≠ 0 ∧ be ≠ 0xF then
    ((List.range 4).takeWhile fun n => be &&& (0x1 <<< n) == 0).length
  else 0

/-- How much the first loop of `tlp_mr_data_length` takes off: every disabled byte, since
    that loop has no `break`. -/
def fstdwDisabled (be : BitVec 4) : Nat :=
  if be ≠ 0 ∧ be ≠ 0xF then (List.range 4).countP fun n => be &&& (0x1 <<< n) == 0
  else 0

/-- How much the second loop of `tlp_mr_data_length` takes off: the disabled bytes after
    the last enabled one, if the last DW is partially enabled. -/
def lstdwDisabled (be : BitVec 4) : Nat :=
  if be ≠ 0 ∧ be ≠ 0xF then
    ((List.range 4).takeWhile fun n => be &&& (0x8 >>> n) == 0).length
  else 0

/-- The address field behind the header, in the form the format selects. -/
def mrAddrField (b : ByteMem) (mh : Nat) : BitVec 64 :=
  if tlpIs3dw (hdrFmtType b mh) then (be32toh (b.load32 (mh + sizeofTlpMrHdr))).setWidth 64
  else be64toh (b.load64 (mh + sizeofTlpMrHdr))

/-- `tlp_mr_addr`. -/
def tlpMrAddr (b : ByteMem) (mh : Nat) : BitVec 64 :=
  mrAddrField b mh + BitVec.ofNat 64 (fstdwSkip (mrFstdw b mh))

/-- `tlp_mr_data_length`: a `uint32_t` counter that is returned as an `int`. -/
def tlpMrDataLength (b : ByteMem) (mh : Nat) : Int :=
  let len : BitVec 32 := (tlpLength (hdrFalen b mh)).setWidth 32 <<< 2
  let len := len - BitVec.ofNat 32 (fstdwDisabled (mrFstdw b mh))
  let len := len - BitVec.ofNat 32 (lstdwDisabled (mrLstdw b mh))
  len.toInt

/-- `tlp_mwr_data`: the offset of the first enabled payload byte. -/
def tlpMwrData (b : ByteMem) (mh : Nat) : Nat :=
  mh + sizeofTlpMrHdr + (if tlpIs3dw (hdrFmtType b mh) then 4 else 8) +
    fstdwSkip (mrFstdw b mh)

/-- `tlp_cpld_data_length`. -/
def tlpCpldDataLength (b : ByteMem) (ch : Nat) : Int :=
  let length := (tlpLength (hdrFalen b ch)).toNat
  let low := (cplLowaddr b ch &&& 0x3).toNat
  let bcnt := (tlpCplBcnt (cplStcnt b ch)).toNat
  -- the last completion carries exactly the bytes its byte count names
  if length = (low + bcnt + 3) >>> 2 then bcnt
  else ((length <<< 2 : Nat) : Int) - low

/-- `tlp_cpld_data`: the offset of the first byte of a completion. -/
def tlpCpldData (b : ByteMem) (ch : Nat) : Nat :=
  ch + sizeofTlpCplHdr + (if tlpIs3dw (hdrFmtType b ch) then 4 else 8) +
    (cplLowaddr b ch &&& 0x3).toNat

/-! ## Alignment in plain arithmetic -/

theorem toNat_and_three {w : Nat} (x three : BitVec w) (h : three.toNat = 3) :
    (x &&& three).toNat = x.toNat % 4 := by
  rw [BitVec.toNat_and, h]
  exact Nat.and_two_pow_sub_one_eq_mod x.toNat 2

@[simp] theorem toNat_and_3 (x : BitVec 64) : (x &&& 3#64).toNat = x.toNat % 4 :=
  toNat_and_three x 3#64 rfl

@[simp] theorem toNat_shift_align (x : BitVec 64) :
    ((x >>> 2) <<< 2).toNat = x.toNat / 4 * 4 := by
  have hx := x.isLt
  rw [BitVec.toNat_shiftLeft, BitVec.toNat_ushiftRight, Nat.shiftRight_eq_div_pow,
    Nat.shiftLeft_eq]
  omega

/-- Clearing the two low bits with the mask of `tlp_calculate_length` is the same as
    shifting them out. -/
theorem and_align_mask (x : BitVec 64) : x &&& 0xFFFFFFFFFFFFFFFC#64 = (x >>> 2) <<< 2 := by
  apply BitVec.eq_of_toNat_eq
  have split : (x &&& 3#64) + (x &&& ~~~3#64) = x := by
    rw [BitVec.add_eq_or_of_and_eq_zero]
    · ext i hi
      simp only [BitVec.getElem_or, BitVec.getElem_and, BitVec.getElem_not]
      cases x[i] <;> cases (3#64)[i] <;> rfl
    · ext i hi
      simp only [BitVec.getElem_and, BitVec.getElem_not, BitVec.getElem_zero]
      cases x[i] <;> cases (3#64)[i] <;> rfl
  have low := toNat_and_3 x
  have parts : (x &&& ~~~3#64).toNat = (x - (x &&& 3#64)).toNat := by
    rw [← BitVec.eq_sub_iff_add_eq.mpr (by rw [BitVec.add_comm]; exact split)]
  have hx := x.isLt
  change (x &&& ~~~3#64).toNat = _
  rw [parts, toNat_shift_align, BitVec.toNat_sub, low]
  omega

@[simp] theorem toNat_and_align_mask (x : BitVec 64) :
    (x &&& 0xFFFFFFFFFFFFFFFC#64).toNat = x.toNat / 4 * 4 := by
  rw [and_align_mask, toNat_shift_align]

/-! ## Byte-enable counts -/

theorem fstdwDisabled_le (be : BitVec 4) : fstdwDisabled be ≤ 3 := by
  revert be; decide

theorem lstdwDisabled_le (be : BitVec 4) : lstdwDisabled be ≤ 3 := by
  revert be; decide

/-- The bytes skipped at the front are among the disabled ones. -/
theorem fstdwSkip_le_disabled (be : BitVec 4) : fstdwSkip be ≤ fstdwDisabled be := by
  revert be; decide

/-- The length field of the header at `mh`, as a number of DW. -/
def mrLengthDw (b : ByteMem) (mh : Nat) : Nat := (tlpLength (hdrFalen b mh)).toNat

theorem mrLengthDw_lt (b : ByteMem) (mh : Nat) : mrLengthDw b mh < 1024 :=
  tlpLength_lt _

/-- The data length is what the length field says less the bytes the two byte-enable
    fields take off; it is negative when they take off more. -/
theorem tlpMrDataLength_eq (b : ByteMem) (mh : Nat) :
    tlpMrDataLength b mh = 4 * (mrLengthDw b mh : Int) - fstdwDisabled (mrFstdw b mh) -
      lstdwDisabled (mrLstdw b mh) := by
  have hl := mrLengthDw_lt b mh
  have hf := fstdwDisabled_le (mrFstdw b mh)
  have hs := lstdwDisabled_le (mrLstdw b mh)
  have dword : ((tlpLength (hdrFalen b mh)).setWidth 32 <<< 2).toNat = 4 * mrLengthDw b mh := by
    rw [BitVec.toNat_shiftLeft, BitVec.toNat_setWidth, Nat.shiftLeft_eq]
    change mrLengthDw b mh % 2 ^ 32 * 2 ^ 2 % 2 ^ 32 = _
    omega
  simp only [tlpMrDataLength]
  rw [BitVec.toInt_eq_toNat_bmod, BitVec.toNat_sub, BitVec.toNat_sub, dword, BitVec.toNat_ofNat,
    BitVec.toNat_ofNat]
  generalize mrLengthDw b mh = l at *
  generalize fstdwDisabled (mrFstdw b mh) = f at *
  generalize lstdwDisabled (mrLstdw b mh) = s at *
  rw [Int.bmod_def]
  omega

/-! ## The calculators in plain arithmetic -/

/-- The span of a request in DW: from the DW of its first byte to the DW of its last. -/
def spanDw (addr count : BitVec 64) : Nat := (addr.toNat % 4 + count.toNat + 3) / 4

theorem toNat_tlpCalculateLength {addr count : BitVec 64} (hc : count.toNat < 2 ^ 33) :
    (tlpCalculateLength addr count).toNat = spanDw addr count := by
  have ha := addr.isLt
  have dist : (addr + count - (addr &&& 0xFFFFFFFFFFFFFFFC#64)).toNat =
      addr.toNat % 4 + count.toNat := by
    rw [BitVec.toNat_sub, BitVec.toNat_add, toNat_and_align_mask]
    omega
  have quot : ((addr + count - (addr &&& 0xFFFFFFFFFFFFFFFC#64)) >>> 2).toNat =
      (addr.toNat % 4 + count.toNat) / 4 := by
    rw [BitVec.toNat_ushiftRight, Nat.shiftRight_eq_div_pow, dist]
  have rest : ((addr + count - (addr &&& 0xFFFFFFFFFFFFFFFC#64)) &&& 3#64).toNat =
      (addr.toNat % 4 + count.toNat) % 4 := by
    rw [toNat_and_three _ _ rfl, dist]
  simp only [tlpCalculateLength, spanDw]
  split
  · rename_i partial'
    have pos : (addr.toNat % 4 + count.toNat) % 4 ≠ 0 := by
      intro zero
      exact partial' (BitVec.eq_of_toNat_eq (by rw [rest, zero]; rfl))
    rw [BitVec.toNat_setWidth, BitVec.toNat_add, quot]
    simp only [BitVec.toNat_ofNat]
    omega
  · rename_i whole
    have zero : (addr.toNat % 4 + count.toNat) % 4 = 0 := by
      rw [← rest, not_not.mp whole]
      rfl
    rw [BitVec.toNat_setWidth, quot]
    omega

/-- The 1st DW byte enables `tlp_calculate_fstdw` produces, as the header stores them. -/
def fstdwOf (addr count : BitVec 64) : BitVec 4 := (tlpCalculateFstdw addr count).setWidth 4

/-- The Last DW byte enables `tlp_calculate_lstdw` produces, as the header stores them. -/
def lstdwOf (addr count : BitVec 64) : BitVec 4 := (tlpCalculateLstdw addr count).setWidth 4

/-- Below four bytes the count is one of a few literals. -/
theorem fstdwOf_eq (addr count : BitVec 64) :
    fstdwOf addr count =
      (((if count.toNat < 4 then ~~~(0xF#32 <<< count.toNat) &&& 0xF else 0xF) <<<
        (addr.toNat % 4)) &&& 0xF).setWidth 4 := by
  have lt_iff : count < 4 ↔ count.toNat < 4 := BitVec.lt_def
  simp only [fstdwOf, tlpCalculateFstdw, lt_iff]
  rw [toNat_and_three _ _ rfl]

/-- The first enabled byte of a non-empty request is the one at its address. -/
theorem fstdwSkip_fstdwOf {addr count : BitVec 64} (hc : 1 ≤ count.toNat) :
    fstdwSkip (fstdwOf addr count) = addr.toNat % 4 := by
  have ho : addr.toNat % 4 < 4 := Nat.mod_lt _ (by omega)
  rw [fstdwOf_eq]
  generalize addr.toNat % 4 = o at *
  generalize count.toNat = c at *
  split
  · interval_cases c <;> interval_cases o <;> decide
  · interval_cases o <;> decide

theorem fstdwDisabled_fstdwOf {addr count : BitVec 64} (hc : 1 ≤ count.toNat) :
    fstdwDisabled (fstdwOf addr count) =
      if 4 ≤ addr.toNat % 4 + count.toNat then addr.toNat % 4 else 4 - count.toNat := by
  have ho : addr.toNat % 4 < 4 := Nat.mod_lt _ (by omega)
  rw [fstdwOf_eq]
  generalize addr.toNat % 4 = o at *
  generalize count.toNat = c at *
  by_cases small : c < 4
  · rw [if_pos small]
    interval_cases c <;> interval_cases o <;> decide
  · rw [if_neg small, if_pos (by omega)]
    interval_cases o <;> decide

/-- The start of the DW before the end of a request, which wraps to the last one at 0. -/
theorem toNat_beforeEnd (stop : BitVec 64) :
    (if stop &&& 0x3#64 = 0 then stop - 4#64 else (stop >>> 2) <<< 2).toNat =
      if stop.toNat = 0 then 2 ^ 64 - 4 else (stop.toNat + 3) / 4 * 4 - 4 := by
  have small := stop.isLt
  have aligned_iff : stop &&& 0x3#64 = 0 ↔ stop.toNat % 4 = 0 := by
    rw [← BitVec.toNat_inj, toNat_and_three _ _ rfl]
    rfl
  split
  · rename_i aligned
    have zero := aligned_iff.mp aligned
    rw [BitVec.toNat_sub]
    simp only [BitVec.toNat_ofNat]
    split <;> omega
  · rename_i unaligned
    have pos : stop.toNat % 4 ≠ 0 := fun zero => unaligned (aligned_iff.mpr zero)
    rw [toNat_shift_align, if_neg (by omega)]
    omega

/-- The start of the DW with the last byte of a request that ends by the end of the address
    space. -/
theorem toNat_endStart {addr count : BitVec 64} (hc : 1 ≤ count.toNat)
    (hw : addr.toNat + count.toNat ≤ 2 ^ 64) :
    (if (addr + count) &&& 0x3#64 = 0 then addr + count - 4#64
      else ((addr + count) >>> 2) <<< 2).toNat = (addr.toNat + count.toNat + 3) / 4 * 4 - 4 := by
  rw [toNat_beforeEnd, BitVec.toNat_add]
  split <;> omega

/-- The first test of `tlp_calculate_lstdw` asks whether the request stays in one DW. -/
theorem endStart_le_iff {addr count : BitVec 64} (hc : 1 ≤ count.toNat)
    (hw : addr.toNat + count.toNat ≤ 2 ^ 64) :
    (if (addr + count) &&& 0x3#64 = 0 then addr + count - 4#64
      else ((addr + count) >>> 2) <<< 2) ≤ (addr >>> 2) <<< 2 ↔
      addr.toNat % 4 + count.toNat ≤ 4 := by
  rw [BitVec.le_def, toNat_shift_align, toNat_endStart hc hw]
  omega

/-- A request inside one DW has no byte enables of its own in the last DW, or all of them
    if it is the last DW of the address space. -/
theorem lstdwOf_of_one {addr count : BitVec 64} (hc : 1 ≤ count.toNat)
    (hw : addr.toNat + count.toNat ≤ 2 ^ 64) (one : addr.toNat % 4 + count.toNat ≤ 4) :
    lstdwOf addr count = 0 ∨ 2 ^ 64 ≤ addr.toNat + 4 ∧ lstdwOf addr count = 0xF := by
  have ha := addr.isLt
  have stop : (addr + count).toNat = (addr.toNat + count.toNat) % 2 ^ 64 := BitVec.toNat_add _ _
  have next : (addr + 4#64).toNat = (addr.toNat + 4) % 2 ^ 64 := BitVec.toNat_add _ _
  simp only [lstdwOf, tlpCalculateLstdw]
  rw [if_pos ((endStart_le_iff hc hw).mpr one)]
  split
  · exact Or.inl rfl
  · rename_i full
    rw [BitVec.lt_def, stop, next] at full
    have used : (addr + count - (addr + 4#64)).toNat = (2 ^ 64 + count.toNat - 4) % 2 ^ 64 := by
      rw [BitVec.toNat_sub, stop, next]
      omega
    rw [used]
    by_cases whole : count.toNat = 4
    · rw [whole]
      exact Or.inl rfl
    · -- the start of the next DW wrapped, and the shift takes all four bits out
      refine Or.inr ⟨by omega, ?_⟩
      rw [BitVec.shiftLeft_eq_zero (by omega)]
      rfl

/-- The last DW of a longer request has the bytes up to the end enabled, or none of them
    if the end is that of the address space. -/
theorem lstdwOf_of_more {addr count : BitVec 64} (hc : 1 ≤ count.toNat)
    (hw : addr.toNat + count.toNat ≤ 2 ^ 64) (more : 4 < addr.toNat % 4 + count.toNat) :
    lstdwOf addr count =
      if addr.toNat + count.toNat = 2 ^ 64 then 0
      else (~~~(0xF#32 <<< ((addr.toNat + count.toNat - 1) % 4 + 1)) &&& 0xF).setWidth 4 := by
  have stop : (addr + count).toNat = (addr.toNat + count.toNat) % 2 ^ 64 := BitVec.toNat_add _ _
  have endStart := toNat_endStart hc hw
  have within_iff := endStart_le_iff hc hw
  simp only [lstdwOf, tlpCalculateLstdw]
  generalize (if (addr + count) &&& 0x3#64 = 0 then addr + count - 4#64
      else ((addr + count) >>> 2) <<< 2) = e at *
  rw [if_neg fun le => absurd (within_iff.mp le) (by omega)]
  by_cases top : addr.toNat + count.toNat = 2 ^ 64
  · have before : addr + count < e := by
      rw [BitVec.lt_def, stop, endStart]
      omega
    rw [if_pos before, if_pos top]
    rfl
  · have after : ¬ addr + count < e := by
      rw [BitVec.lt_def, stop, endStart]
      omega
    have used : (addr + count - e).toNat = (addr.toNat + count.toNat - 1) % 4 + 1 := by
      rw [BitVec.toNat_sub, stop, endStart]
      omega
    rw [if_neg after, if_neg top, used]

/-- What is counted in the last DW's enables, by what it is for each run of them. -/
theorem count_lstdwOf {count_ : BitVec 4 → Nat} (none_ : count_ 0 = 0) (all : count_ 0xF = 0)
    (run : ∀ k < 4, count_ ((~~~(0xF#32 <<< (k + 1)) &&& 0xF).setWidth 4) = 3 - k)
    {addr count : BitVec 64} (hc : 1 ≤ count.toNat) (hw : addr.toNat + count.toNat ≤ 2 ^ 64) :
    count_ (lstdwOf addr count) =
      if addr.toNat % 4 + count.toNat ≤ 4 then 0
      else 3 - (addr.toNat + count.toNat - 1) % 4 := by
  split
  · rename_i one
    rcases lstdwOf_of_one hc hw one with zero | ⟨-, full⟩
    · rw [zero, none_]
    · rw [full, all]
  · rename_i more
    rw [lstdwOf_of_more hc hw (by omega)]
    split
    · rename_i top
      rw [none_, top]
      decide
    · exact run _ (Nat.mod_lt _ (by omega))

theorem lstdwDisabled_lstdwOf {addr count : BitVec 64} (hc : 1 ≤ count.toNat)
    (hw : addr.toNat + count.toNat ≤ 2 ^ 64) :
    lstdwDisabled (lstdwOf addr count) =
      if addr.toNat % 4 + count.toNat ≤ 4 then 0
      else 3 - (addr.toNat + count.toNat - 1) % 4 :=
  count_lstdwOf (by decide) (by decide) (by decide) hc hw

/-- The bytes the two byte-enable fields take off are those of the DW-aligned span that
    the request does not name. -/
theorem disabled_of_calculated {addr count : BitVec 64} (hc : 1 ≤ count.toNat)
    (hw : addr.toNat + count.toNat ≤ 2 ^ 64) :
    fstdwDisabled (fstdwOf addr count) + lstdwDisabled (lstdwOf addr count) + count.toNat =
      4 * spanDw addr count := by
  rw [fstdwDisabled_fstdwOf hc, lstdwDisabled_lstdwOf hc hw, spanDw]
  split <;> split <;> omega

/-! ## Decoding what was calculated -/

section
variable {b : ByteMem} {mh : Nat} {addr count : BitVec 64}

/-- The byte enables lead the decoder from the DW of a request to its first byte. -/
theorem tlpMrAddr_of_calculated (hc : 1 ≤ count.toNat)
    (field : mrAddrField b mh = (addr >>> 2) <<< 2) (fstdw : mrFstdw b mh = fstdwOf addr count) :
    tlpMrAddr b mh = addr := by
  apply BitVec.eq_of_toNat_eq
  have ha := addr.isLt
  rw [tlpMrAddr, field, fstdw, fstdwSkip_fstdwOf hc, BitVec.toNat_add, toNat_shift_align,
    BitVec.toNat_ofNat]
  omega

theorem tlpMrDataLength_of_calculated (hc : 1 ≤ count.toNat)
    (hw : addr.toNat + count.toNat ≤ 2 ^ 64) (fstdw : mrFstdw b mh = fstdwOf addr count)
    (lstdw : mrLstdw b mh = lstdwOf addr count) (length : mrLengthDw b mh = spanDw addr count) :
    tlpMrDataLength b mh = count.toNat := by
  have disabled := disabled_of_calculated hc hw
  rw [tlpMrDataLength_eq, fstdw, lstdw, length]
  omega

end

end Sdplane
