import Sdplane.Nettlp.PsmemRead
import Mathlib.Tactic.IntervalCases

/-!
# The range test of memory reads

`nettlp_psmem_mrd` tests the byte-granular first address together with the length in double
words, and copies from the double word the first byte lies in. Two questions about that
test: whether it answers exactly the requests whose bytes lie in the region, and whether
every byte an answer copies lies in the memory.
-/

namespace Sdplane

/-- The header at `mh` is a request for the `count` bytes at `addr`, laid out with the
    `tlp_calculate_*` functions. A range does not reach past the end of the address space
    and its span fits the ten bits of the length field. -/
structure MrdRequest (b : ByteMem) (mh : Nat) (addr count : BitVec 64) : Prop where
  field : mrAddrField b mh = (addr >>> 2) <<< 2
  fstdw : mrFstdw b mh = fstdwOf addr count
  lstdw : mrLstdw b mh = lstdwOf addr count
  length : mrLengthDw b mh = (tlpCalculateLength addr count).toNat
  span : spanDw addr count < 1024
  inSpace : addr.toNat + count.toNat ≤ 2 ^ 64

namespace MrdRequest

variable {b : ByteMem} {mh : Nat} {addr count : BitVec 64}

theorem length_eq (h : MrdRequest b mh addr count) : mrLengthDw b mh = spanDw addr count := by
  have span := h.span
  rw [h.length]
  apply toNat_tlpCalculateLength
  rw [spanDw] at span
  omega

/-- The address of a non-empty request is found again. -/
theorem addr_eq (h : MrdRequest b mh addr count) (hc : 1 ≤ count.toNat) :
    tlpMrAddr b mh = addr :=
  tlpMrAddr_of_calculated hc h.field h.fstdw

/-- An empty request enables no byte, and then nothing is skipped. -/
theorem addr_eq_of_empty (h : MrdRequest b mh addr count) (hc : count.toNat = 0) :
    tlpMrAddr b mh = (addr >>> 2) <<< 2 := by
  have none' : fstdwOf addr count = 0 := by
    rw [fstdwOf_eq, hc]
    have ho : addr.toNat % 4 < 4 := Nat.mod_lt _ (by omega)
    generalize addr.toNat % 4 = o at *
    interval_cases o <;> decide
  rw [tlpMrAddr, h.field, h.fstdw, none']
  exact BitVec.add_zero _

theorem disabled_eq (h : MrdRequest b mh addr count) (hc : 1 ≤ count.toNat) :
    fstdwDisabled (mrFstdw b mh) + lstdwDisabled (mrLstdw b mh) + count.toNat =
      4 * mrLengthDw b mh := by
  rw [h.fstdw, h.lstdw, h.length_eq]
  exact disabled_of_calculated hc h.inSpace

/-- The data length of a non-empty request is its byte count. -/
theorem dataLength_eq (h : MrdRequest b mh addr count) (hc : 1 ≤ count.toNat) :
    tlpMrDataLength b mh = count.toNat :=
  tlpMrDataLength_of_calculated hc h.inSpace h.fstdw h.lstdw h.length_eq

end MrdRequest

/-! ## Which requests are answered -/

section
variable (c : NettlpConf) (p : Psmem) (b : ByteMem) (mh : Nat) (residual : Nat → ByteMem)

/-- `nettlp_psmem_mrd` sends completions. -/
def MrdAnswers : Prop := ∃ fuel, (nettlpPsmemMrd c p b mh residual fuel).1 ≠ []

theorem mrdAnswers_iff : MrdAnswers c p b mh residual ↔ mrdOutOfRange p b mh = false := by
  constructor
  · rintro ⟨fuel, sent⟩
    cases rejected : mrdOutOfRange p b mh with
    | false => rfl
    | true =>
        rw [nettlpPsmemMrd_of_rejected c residual fuel rejected] at sent
        exact absurd rfl sent
  · intro accepted
    refine ⟨1, ?_⟩
    rw [nettlpPsmemMrd_of_accepted c residual 1 accepted, DoWhile.run]
    split <;> simp

theorem mrdOutOfRange_eq_false_iff :
    mrdOutOfRange p b mh = false ↔
      p.addr.toNat ≤ (tlpMrAddr b mh).toNat ∧
        ((tlpMrAddr b mh).toNat + 4 * mrLengthDw b mh) % 2 ^ 64 ≤ p.endAddr % 2 ^ 64 := by
  have hl := mrLengthDw_lt b mh
  have len : (BitVec.ofNat 64 ((tlpLength (hdrFalen b mh)).toNat <<< 2)).toNat =
      4 * mrLengthDw b mh := by
    rw [BitVec.toNat_ofNat, Nat.shiftLeft_eq]
    change mrLengthDw b mh * 2 ^ 2 % 2 ^ 64 = _
    omega
  rw [mrdOutOfRange, psmemOutOfRange_eq_false_iff, len]

/-- All `count` bytes at `addr` lie in the region. -/
def Psmem.Covers (addr count : BitVec 64) : Prop :=
  ∀ k < count.toNat, p.addr.toNat ≤ addr.toNat + k ∧ addr.toNat + k < p.endAddr

theorem Psmem.covers_iff (addr : BitVec 64) {count : BitVec 64} (hc : 1 ≤ count.toNat) :
    p.Covers addr count ↔ p.addr.toNat ≤ addr.toNat ∧ addr.toNat + count.toNat ≤ p.endAddr := by
  constructor
  · intro inside
    have first := inside 0 (by omega)
    have last := inside (count.toNat - 1) (by omega)
    omega
  · intro inside k hk
    omega

/-- Where the double words of a request end, if `start` is where the first of them is taken
    to begin. -/
def mrdDwEnd (start addr count : BitVec 64) : Nat := start.toNat + 4 * spanDw addr count

/-- When the test gives a request what its bytes deserve. An empty one deserves an answer,
    which it gets if it does not begin below the region and its double word ends in the
    region or at the end of the address space. A non-empty one below the region is rejected
    as it should be. Elsewhere the bytes end earlier than the double words the test counts
    from the first byte: the end of a region below the end of the address space must not
    lie between the two; if the double words reach past the end of the address space, the
    test sees only what is behind it; and a region that reaches past it is taken for one
    that ends low in the memory, unless the double words do the same. -/
def MrdTestAgrees (addr count : BitVec 64) : Prop :=
  if count = 0 then
    p.addr ≤ (addr >>> 2) <<< 2 ∧
      (mrdDwEnd ((addr >>> 2) <<< 2) addr count = 2 ^ 64 ∨
        p.endAddr < 2 ^ 64 ∧ mrdDwEnd ((addr >>> 2) <<< 2) addr count ≤ p.endAddr)
  else
    addr < p.addr ∨
      if 2 ^ 64 ≤ p.endAddr then
        2 ^ 64 ≤ mrdDwEnd addr addr count ∧ mrdDwEnd addr addr count ≤ p.endAddr
      else if mrdDwEnd addr addr count < 2 ^ 64 then
        p.endAddr < addr.toNat + count.toNat ∨ mrdDwEnd addr addr count ≤ p.endAddr
      else
        addr.toNat + count.toNat ≤ p.endAddr ∨ p.endAddr + 2 ^ 64 < mrdDwEnd addr addr count

variable {p}

/-- The test lets an empty request through that is not below the region exactly if its
    double word ends in the region or at the end of the address space. -/
theorem mrdEmptyEnds_iff {addr count : BitVec 64} (hc : count.toNat = 0)
    (above : p.addr.toNat ≤ ((addr >>> 2) <<< 2).toNat) :
    mrdDwEnd ((addr >>> 2) <<< 2) addr count % 2 ^ 64 ≤ p.endAddr % 2 ^ 64 ↔
      mrdDwEnd ((addr >>> 2) <<< 2) addr count = 2 ^ 64 ∨
        p.endAddr < 2 ^ 64 ∧ mrdDwEnd ((addr >>> 2) <<< 2) addr count ≤ p.endAddr := by
  have start : ((addr >>> 2) <<< 2).toNat = addr.toNat / 4 * 4 := toNat_shift_align addr
  have below := addr.isLt
  have size := p.size.isLt
  rw [mrdDwEnd, spanDw, Psmem.endAddr] at *
  omega

/-- The test against the bytes, for a non-empty request that is not below the region. -/
theorem mrdEnds_iff {addr count : BitVec 64} (hc : 1 ≤ count.toNat)
    (inSpace : addr.toNat + count.toNat ≤ 2 ^ 64) (above : p.addr.toNat ≤ addr.toNat) :
    (mrdDwEnd addr addr count % 2 ^ 64 ≤ p.endAddr % 2 ^ 64 ↔
        addr.toNat + count.toNat ≤ p.endAddr) ↔
      if 2 ^ 64 ≤ p.endAddr then
        2 ^ 64 ≤ mrdDwEnd addr addr count ∧ mrdDwEnd addr addr count ≤ p.endAddr
      else if mrdDwEnd addr addr count < 2 ^ 64 then
        p.endAddr < addr.toNat + count.toNat ∨ mrdDwEnd addr addr count ≤ p.endAddr
      else
        addr.toNat + count.toNat ≤ p.endAddr ∨
          p.endAddr + 2 ^ 64 < mrdDwEnd addr addr count := by
  have below := addr.isLt
  have size := p.size.isLt
  have least : count.toNat ≤ 4 * spanDw addr count := by
    rw [spanDw]
    omega
  have most : 4 * spanDw addr count ≤ count.toNat + 6 := by
    rw [spanDw]
    omega
  rw [mrdDwEnd, Psmem.endAddr] at *
  generalize spanDw addr count = span at *
  split
  · omega
  · split <;> omega

variable (p)

theorem mrdAnswers_iff_covers_iff {b : ByteMem} {mh : Nat} {addr count : BitVec 64}
    (h : MrdRequest b mh addr count) :
    (MrdAnswers c p b mh residual ↔ p.Covers addr count) ↔ MrdTestAgrees p addr count := by
  rw [mrdAnswers_iff, mrdOutOfRange_eq_false_iff, h.length_eq, MrdTestAgrees]
  by_cases zero : count = 0
  · have empty : count.toNat = 0 := by rw [zero]; rfl
    have covered : p.Covers addr count := by
      intro k hk
      omega
    rw [if_pos zero, h.addr_eq_of_empty empty, BitVec.le_def, iff_true_right covered]
    exact and_congr_right fun above => mrdEmptyEnds_iff empty above
  · have pos : 1 ≤ count.toNat := by
      by_contra none'
      exact zero (BitVec.eq_of_toNat_eq (by change _ = 0; omega))
    rw [if_neg zero, h.addr_eq pos, p.covers_iff addr pos, BitVec.lt_def]
    rcases Nat.lt_or_ge addr.toNat p.addr.toNat with low | above
    · have neither : (p.addr.toNat ≤ addr.toNat) = False := by
        rw [eq_iff_iff, iff_false]
        omega
      simp only [neither, false_and, low, true_or]
    · have both : (p.addr.toNat ≤ addr.toNat) = True := eq_true above
      simp only [both, true_and, Nat.not_lt.mpr above, false_or]
      exact mrdEnds_iff pos h.inSpace above

end

/-! ## What the answers read -/

section
variable (c : NettlpConf) (p : Psmem) (b : ByteMem) (mh : Nat) (residual : Nat → ByteMem)

/-- Every byte copied into a completion comes from an offset below `psmem_size`. -/
def MrdReadsInside : Prop :=
  ∀ fuel, ∀ q ∈ (nettlpPsmemMrd c p b mh residual fuel).1,
    ∀ k < q.sendLen, (q.source + BitVec.ofNat 64 k).toNat < p.size.toNat

/-- The number of bytes all completions together copy: the double words of the request.
    Only where the byte enables take off a whole double word beyond the offset of the first
    byte, and that double word would go alone, does the loop end without it. -/
def mrdReadLen : Nat :=
  if 64 < mrLengthDw b mh ∧ 4 * mrLengthDw b mh % 256 = 4 ∧
      mrOffset b mh + 4 ≤ fstdwDisabled (mrFstdw b mh) + lstdwDisabled (mrLstdw b mh)
  then 4 * mrLengthDw b mh - 4
  else 4 * mrLengthDw b mh

/-- The request lies below the region or, counted from its first byte, ends behind it, both
    ends wrapped; or the bytes an answer copies lie in the region as an interval of natural
    numbers. -/
def MrdReadsFit : Prop :=
  (tlpMrAddr b mh).toNat < p.addr.toNat ∨
    p.endAddr % 2 ^ 64 < ((tlpMrAddr b mh).toNat + 4 * mrLengthDw b mh) % 2 ^ 64 ∨
    mrLengthDw b mh = 0 ∨
    p.addr.toNat ≤ (mrAligned b mh).toNat ∧
      (mrAligned b mh).toNat + mrdReadLen b mh ≤ p.endAddr

variable {b mh}

/-- What a round that is reached copies is among the bytes counted. -/
theorem mrd_read_lt {j k : Nat}
    (reached : ∀ i < j, MrdState.again (MrdState.next^[i + 1] (.start b mh)) = true)
    (hk : k < (MrdState.next^[j] (.start b mh)).sendLen) :
    256 * j + k < mrdReadLen b mh := by
  have six := mrdDisabled_le b mh
  rw [(MrdState.iterate_at b mh j).sendLen_eq] at hk
  rw [mrdReadLen]
  split
  · rename_i alone
    rcases Nat.eq_zero_or_pos j with rfl | pos
    · omega
    · have before := (MrdState.again_iff b mh (j - 1)).mp (reached (j - 1) (by omega))
      rw [tlpMrDataLength_eq, mrdThrough] at before
      omega
  · omega

/-- Every byte counted is copied in some round. -/
theorem mrd_read_reached {t : Nat} (ht : t < mrdReadLen b mh) :
    (∀ i < t / 256, MrdState.again (MrdState.next^[i + 1] (.start b mh)) = true) ∧
      t % 256 < (MrdState.next^[t / 256] (.start b mh)).sendLen := by
  have six := mrdDisabled_le b mh
  rw [mrdReadLen] at ht
  constructor
  · intro i hi
    rw [MrdState.again_iff, tlpMrDataLength_eq, mrdThrough]
    split at ht <;> omega
  · rw [(MrdState.iterate_at b mh (t / 256)).sendLen_eq]
    split at ht <;> omega

/-- The `k`-th byte of round `j` is byte `256 * j + k` of the double words. -/
theorem mrdCompletion_source (j k : Nat)
    (hk : k < (MrdState.next^[j] (.start b mh)).sendLen) :
    (MrdState.next^[j] (.start b mh)).source p + BitVec.ofNat 64 k =
      mrAligned b mh - p.addr + BitVec.ofNat 64 (256 * j + k) := by
  have state := MrdState.iterate_at b mh j
  rw [state.sendLen_eq] at hk
  have through := @mrdThrough_of_le b mh j (by omega)
  rw [MrdState.source, state.aligned, through, BitVec.ofNat_add]
  simp only [BitVec.sub_eq_add_neg]
  ac_rfl

theorem mrdReadsInside_iff_offsets (accepted : mrdOutOfRange p b mh = false) :
    MrdReadsInside c p b mh residual ↔ ∀ t < mrdReadLen b mh,
      (mrAligned b mh - p.addr + BitVec.ofNat 64 t).toNat < p.size.toNat := by
  simp only [MrdReadsInside, nettlpPsmemMrd_of_accepted c residual _ accepted,
    DoWhile.mem_run_iff, Nat.zero_add]
  constructor
  · intro inside t ht
    obtain ⟨reached, hk⟩ := mrd_read_reached ht
    have read := inside (t / 256 + 1) _ ⟨t / 256, Nat.lt_succ_self _, reached, rfl⟩ (t % 256) hk
    simp only [mrdCompletion] at read
    rw [mrdCompletion_source p _ _ hk, Nat.div_add_mod] at read
    exact read
  · rintro offsets fuel q ⟨j, -, reached, rfl⟩ k hk
    simp only [mrdCompletion] at hk ⊢
    rw [mrdCompletion_source p _ _ hk]
    exact offsets _ (mrd_read_lt reached hk)

theorem mrdReadsInside_iff_fit :
    MrdReadsInside c p b mh residual ↔ MrdReadsFit p b mh := by
  have passes := mrdOutOfRange_eq_false_iff p b mh
  cases rejected : mrdOutOfRange p b mh with
  | true =>
      have fails : (tlpMrAddr b mh).toNat < p.addr.toNat ∨
          p.endAddr % 2 ^ 64 < ((tlpMrAddr b mh).toNat + 4 * mrLengthDw b mh) % 2 ^ 64 := by
        rw [rejected] at passes
        by_contra both
        exact absurd (passes.mpr (by omega)) (by decide)
      have nothing : MrdReadsInside c p b mh residual := by
        intro fuel q hq
        rw [nettlpPsmemMrd_of_rejected c residual fuel rejected] at hq
        simp at hq
      rw [iff_true_left nothing, MrdReadsFit]
      tauto
  | false =>
      have inTest := passes.mp rejected
      rw [mrdReadsInside_iff_offsets c p residual rejected, MrdReadsFit]
      have above : ¬ (tlpMrAddr b mh).toNat < p.addr.toNat := Nat.not_lt.mpr inTest.1
      have ends : ¬ p.endAddr % 2 ^ 64 <
          ((tlpMrAddr b mh).toNat + 4 * mrLengthDw b mh) % 2 ^ 64 := Nat.not_lt.mpr inTest.2
      simp only [above, ends, false_or]
      have aligned := toNat_mrAligned b mh
      have offset := mrOffset_lt b mh
      rcases Nat.eq_zero_or_pos (mrLengthDw b mh) with zero | pos
      · have nothing : mrdReadLen b mh = 0 := by
          rw [mrdReadLen, zero]
          simp
        simp [nothing, zero]
      · have some' : 0 < mrdReadLen b mh := by
          rw [mrdReadLen]
          split <;> omega
        rw [offsets_inside_iff_of_near some' (by omega)]
        omega

end

/-- What the range test of memory reads is worth, for every region and every header: a
    request is answered exactly when its bytes lie in the region if and only if the test
    agrees with that, and the answers read inside the memory if and only if the double
    words they copy lie in it. -/
theorem nettlpPsmemMrd_range_iff (c : NettlpConf) (p : Psmem) (b : ByteMem) (mh : Nat)
    (residual : Nat → ByteMem) :
    (∀ addr count, MrdRequest b mh addr count →
      ((MrdAnswers c p b mh residual ↔ p.Covers addr count) ↔ MrdTestAgrees p addr count)) ∧
    (MrdReadsInside c p b mh residual ↔ MrdReadsFit p b mh) :=
  ⟨fun _ _ request => mrdAnswers_iff_covers_iff c p residual request,
    mrdReadsInside_iff_fit c p residual⟩

/-- A request for the last two bytes of an 8 KiB memory at 0x1000. -/
def mrdLastTwo : ByteMem := ByteMem.ofList [0x00, 0, 0, 1, 0, 0, 0, 0x0C, 0x00, 0x00, 0x2F, 0xFC]

theorem mrdLastTwo_request : MrdRequest mrdLastTwo 0 0x2FFE 2 where
  field := by decide
  fstdw := by decide
  lstdw := by decide
  length := by decide
  span := by decide
  inSpace := by decide

theorem nettlpPsmemMrd_range_lastTwo :
    (MrdAnswers .initial ⟨0x1000, 0x2000, fun _ => 0⟩ mrdLastTwo 0 (fun _ _ => 0) ↔
      Psmem.Covers ⟨0x1000, 0x2000, fun _ => 0⟩ 0x2FFE 2) ↔
    MrdTestAgrees ⟨0x1000, 0x2000, fun _ => 0⟩ 0x2FFE 2 :=
  (nettlpPsmemMrd_range_iff .initial ⟨0x1000, 0x2000, fun _ => 0⟩ mrdLastTwo 0
    fun _ _ => 0).1 0x2FFE 2 mrdLastTwo_request

/-- `mrdLastTwo` lies in the region, but the test adds a whole double word to the address
    of its first byte and rejects it. -/
theorem nettlpPsmemMrd_rejects_covered :
    ¬ ∀ (c : NettlpConf) (p : Psmem) (b : ByteMem) (mh : Nat) (residual : Nat → ByteMem),
      (∀ addr count, MrdRequest b mh addr count →
        (MrdAnswers c p b mh residual ↔ p.Covers addr count)) ∧
      MrdReadsInside c p b mh residual := by
  intro exact'
  have answered := ((exact' .initial ⟨0x1000, 0x2000, fun _ => 0⟩ mrdLastTwo 0
    fun _ _ => 0).1 _ _ mrdLastTwo_request).mpr ?_
  · rw [mrdAnswers_iff] at answered
    revert answered
    decide
  · rw [Psmem.covers_iff _ _ (by decide)]
    decide

end Sdplane
