import Sdplane.Tlp.Support

/-!
# Byte enables

Which bytes a memory request asks for. Of its double words the first and the last are taken
under their byte enables, those in between whole; a request of one double word goes by the
first byte enables alone.
-/

namespace Sdplane

/-- Byte `i` of the double words of a request is enabled. -/
def byteEnabled (length : Nat) (fstdw lstdw : BitVec 4) (i : Nat) : Bool :=
  i < 4 * length &&
    (if i < 4 then fstdw.getLsbD i
    else if 4 * length ≤ i + 4 then lstdw.getLsbD (i % 4)
    else true)

/-- The request at `mh` enables the byte at address `a`. -/
def mrEnables (b : ByteMem) (mh a : Nat) : Prop :=
  ∃ i, byteEnabled (mrLengthDw b mh) (mrFstdw b mh) (mrLstdw b mh) i = true ∧
    a = (mrAddrField b mh).toNat + i

/-- The enabled bytes of a double word are some of its last ones. -/
def runsToEnd (be : BitVec 4) : Bool := be == 0x8 || be == 0xC || be == 0xE || be == 0xF

/-- The enabled bytes of a double word are some of its first ones. -/
def runsFromStart (be : BitVec 4) : Bool := be == 0x1 || be == 0x3 || be == 0x7 || be == 0xF

/-- The enabled bytes of a double word are one run. -/
def runsOnce (be : BitVec 4) : Bool :=
  runsToEnd be || runsFromStart be || be == 0x2 || be == 0x4 || be == 0x6

/-- The enabled bytes of a request are one run. -/
def EnabledOnce (length : Nat) (fstdw lstdw : BitVec 4) : Prop :=
  if length = 1 then runsOnce fstdw = true
  else runsToEnd fstdw = true ∧ runsFromStart lstdw = true

/-- The byte enables a request may have. Gaps are for one double word, and for two that
    make up a quad word. -/
structure ByteEnablesPermitted (addr : BitVec 64) (length : Nat) (fstdw lstdw : BitVec 4) :
    Prop where
  one : length = 1 → lstdw = 0
  first : 1 < length → fstdw ≠ 0
  last : 1 < length → lstdw ≠ 0
  gaps : 2 < length ∨ length = 2 ∧ addr.toNat % 8 ≠ 0 →
    runsToEnd fstdw = true ∧ runsFromStart lstdw = true

/-- The header at `mh` is one the format permits: the reserved bits of its address are clear and
    its byte enables go with its length. -/
structure MrHeader (b : ByteMem) (mh : Nat) : Prop where
  aligned : (mrAddrField b mh).toNat % 4 = 0
  permitted : ByteEnablesPermitted (mrAddrField b mh) (mrLengthDw b mh) (mrFstdw b mh) (mrLstdw b mh)

/-! ## One double word -/

theorem getLsbD_of_runsToEnd {be : BitVec 4} (run : runsToEnd be = true) {i : Nat} (hi : i < 4) :
    be.getLsbD i = decide (fstdwSkip be ≤ i) := by
  interval_cases i <;> revert be <;> decide

theorem disabled_of_runsToEnd {be : BitVec 4} (run : runsToEnd be = true) :
    fstdwDisabled be = fstdwSkip be := by
  revert be
  decide

theorem getLsbD_of_runsFromStart {be : BitVec 4} (run : runsFromStart be = true) {i : Nat}
    (hi : i < 4) : be.getLsbD i = decide (i + lstdwDisabled be < 4) := by
  interval_cases i <;> revert be <;> decide

theorem getLsbD_of_runsOnce {be : BitVec 4} (run : runsOnce be = true) {i : Nat} (hi : i < 4) :
    be.getLsbD i = decide (fstdwSkip be ≤ i ∧ i + fstdwDisabled be < 4 + fstdwSkip be) := by
  interval_cases i <;> revert be <;> decide

theorem getLsbD_fstdwSkip {be : BitVec 4} (some : be ≠ 0) :
    fstdwSkip be < 4 ∧ be.getLsbD (fstdwSkip be) = true := by
  revert be
  decide

theorem getLsbD_before_fstdwSkip {be : BitVec 4} {i : Nat} (before : i < fstdwSkip be) :
    be.getLsbD i = false := by
  have few := fstdwSkip_le_disabled be
  have disabled := fstdwDisabled_le be
  have inside : i < 4 := by omega
  interval_cases i <;> revert be <;> decide

/-- Where the enabled bytes of a double word are no run, as many bytes from the first of them on
    take in one that is not enabled. -/
theorem exists_gap_of_not_runsOnce {be : BitVec 4} (gap : runsOnce be = false) :
    ∃ i < 4, fstdwSkip be ≤ i ∧ i + fstdwDisabled be < 4 + fstdwSkip be ∧
      be.getLsbD i = false := by
  revert be
  decide

/-! ## Requests -/

section
variable {addr : BitVec 64} {length : Nat} {fstdw lstdw : BitVec 4}

theorem byteEnabled_lt {i : Nat} (enabled : byteEnabled length fstdw lstdw i = true) :
    i < 4 * length := by
  rw [byteEnabled, Bool.and_eq_true, decide_eq_true_eq] at enabled
  exact enabled.1

/-- The byte the decoder goes to is enabled if any of the first double word is. -/
theorem byteEnabled_fstdwSkip (pos : 1 ≤ length) (some : fstdw ≠ 0) :
    byteEnabled length fstdw lstdw (fstdwSkip fstdw) = true := by
  obtain ⟨inside, on⟩ := getLsbD_fstdwSkip some
  rw [byteEnabled, if_pos inside, on, decide_eq_true (by omega), Bool.and_self]

theorem byteEnabled_before_fstdwSkip {i : Nat} (before : i < fstdwSkip fstdw) :
    byteEnabled length fstdw lstdw i = false := by
  have few := fstdwSkip_le_disabled fstdw
  have disabled := fstdwDisabled_le fstdw
  rw [byteEnabled, if_pos (by omega), getLsbD_before_fstdwSkip before, Bool.and_false]

/-- The enabled bytes that are one run are as many as the decoder counts, from the first one it
    finds. -/
theorem EnabledOnce.byteEnabled_iff (once : EnabledOnce length fstdw lstdw) (pos : 1 ≤ length)
    (one : length = 1 → lstdw = 0) (i : Nat) :
    byteEnabled length fstdw lstdw i = true ↔
      fstdwSkip fstdw ≤ i ∧
        i + fstdwDisabled fstdw + lstdwDisabled lstdw < 4 * length + fstdwSkip fstdw := by
  have skip := fstdwSkip_le_disabled fstdw
  have few := fstdwDisabled_le fstdw
  by_cases single : length = 1
  · rw [EnabledOnce, if_pos single] at once
    subst single
    have none : lstdwDisabled lstdw = 0 := by rw [one rfl]; rfl
    rw [byteEnabled, Bool.and_eq_true, decide_eq_true_eq, none]
    by_cases inside : i < 4
    · rw [if_pos inside, getLsbD_of_runsOnce once inside, decide_eq_true_eq]
      omega
    · omega
  · rw [EnabledOnce, if_neg single] at once
    obtain ⟨first, last⟩ := once
    have lead := disabled_of_runsToEnd first
    have tail := lstdwDisabled_le lstdw
    rw [byteEnabled, Bool.and_eq_true, decide_eq_true_eq]
    by_cases low : i < 4
    · rw [if_pos low, getLsbD_of_runsToEnd first low, decide_eq_true_eq]
      omega
    · rw [if_neg low]
      by_cases high : 4 * length ≤ i + 4
      · rw [if_pos high, getLsbD_of_runsFromStart last (Nat.mod_lt _ (by omega)), decide_eq_true_eq]
        omega
      · rw [if_neg high, eq_self_iff_true, and_true]
        omega

/-- Two double words whose enabled bytes are no run. -/
theorem exists_gap_of_two {fstdw lstdw : BitVec 4} (first : fstdw ≠ 0) (last : lstdw ≠ 0)
    (gap : (runsToEnd fstdw && runsFromStart lstdw) = false) :
    ∃ i < 8, fstdwSkip fstdw ≤ i ∧
      i + fstdwDisabled fstdw + lstdwDisabled lstdw < 8 + fstdwSkip fstdw ∧
      byteEnabled 2 fstdw lstdw i = false := by
  revert fstdw lstdw
  decide +kernel

/-- All bytes from the first one on, as many as the decoder counts, are enabled just if the
    enabled bytes are one run. -/
theorem ByteEnablesPermitted.enabledOnce_iff
    (permitted : ByteEnablesPermitted addr length fstdw lstdw) (pos : 1 ≤ length) :
    EnabledOnce length fstdw lstdw ↔
      ∀ i, fstdwSkip fstdw ≤ i →
        i + fstdwDisabled fstdw + lstdwDisabled lstdw < 4 * length + fstdwSkip fstdw →
          byteEnabled length fstdw lstdw i = true := by
  constructor
  · intro once i low high
    exact (once.byteEnabled_iff pos permitted.one i).mpr ⟨low, high⟩
  · intro all
    by_contra gap
    by_cases single : length = 1
    · rw [EnabledOnce, if_pos single, Bool.not_eq_true] at gap
      obtain ⟨i, inside, low, high, off⟩ := exists_gap_of_not_runsOnce gap
      subst single
      have none : lstdwDisabled lstdw = 0 := by rw [permitted.one rfl]; rfl
      have on := all i low (by omega)
      rw [byteEnabled, if_pos inside, off, Bool.and_false] at on
      cases on
    · rw [EnabledOnce, if_neg single] at gap
      by_cases two : length = 2
      · subst two
        have apart : (runsToEnd fstdw && runsFromStart lstdw) = false := by
          rw [Bool.eq_false_iff]
          exact fun both => gap (Bool.and_eq_true_iff.mp both)
        obtain ⟨i, -, low, high, off⟩ :=
          exists_gap_of_two (permitted.first (by omega)) (permitted.last (by omega)) apart
        have on := all i low (by omega)
        rw [off] at on
        cases on
      · exact gap (permitted.gaps (.inl (by omega)))

end

/-- A byte of the double words, by its address. -/
theorem mrEnables_add {b : ByteMem} {mh j : Nat} :
    mrEnables b mh ((mrAddrField b mh).toNat + j) ↔
      byteEnabled (mrLengthDw b mh) (mrFstdw b mh) (mrLstdw b mh) j = true := by
  constructor
  · rintro ⟨i, enabled, same⟩
    rwa [Nat.add_left_cancel same]
  · intro enabled
    exact ⟨j, enabled, rfl⟩

namespace MrHeader

variable {b : ByteMem} {mh : Nat}

theorem toNat_tlpMrAddr (h : MrHeader b mh) :
    (tlpMrAddr b mh).toNat = (mrAddrField b mh).toNat + fstdwSkip (mrFstdw b mh) := by
  have aligned := h.aligned
  have skip := fstdwSkip_le_disabled (mrFstdw b mh)
  have few := fstdwDisabled_le (mrFstdw b mh)
  have field := (mrAddrField b mh).isLt
  rw [tlpMrAddr, BitVec.toNat_add, BitVec.toNat_ofNat]
  omega

/-- The bytes counted are not fewer than the first enabled one. -/
theorem dataLength_pos (h : MrHeader b mh) (pos : 1 ≤ mrLengthDw b mh) :
    1 ≤ tlpMrDataLength b mh := by
  have few := fstdwDisabled_le (mrFstdw b mh)
  have last := lstdwDisabled_le (mrLstdw b mh)
  rw [tlpMrDataLength_eq]
  by_cases single : mrLengthDw b mh = 1
  · have none : lstdwDisabled (mrLstdw b mh) = 0 := by rw [h.permitted.one single]; rfl
    omega
  · omega

theorem fstdw_ne_zero (h : MrHeader b mh) (pos : 1 ≤ mrLengthDw b mh)
    (some : ¬ (mrLengthDw b mh = 1 ∧ mrFstdw b mh = 0)) : mrFstdw b mh ≠ 0 := by
  by_cases single : mrLengthDw b mh = 1
  · exact fun zero => some ⟨single, zero⟩
  · exact h.permitted.first (by omega)

/-- Without an enabled byte there is one double word. -/
theorem none_enabled_iff (h : MrHeader b mh) (pos : 1 ≤ mrLengthDw b mh) :
    (∀ j, byteEnabled (mrLengthDw b mh) (mrFstdw b mh) (mrLstdw b mh) j = false) ↔
      mrLengthDw b mh = 1 ∧ mrFstdw b mh = 0 := by
  constructor
  · intro none
    by_contra some
    have first := @byteEnabled_fstdwSkip _ _ (mrLstdw b mh) pos (h.fstdw_ne_zero pos some)
    rw [none] at first
    cases first
  · rintro ⟨single, zero⟩ j
    rw [byteEnabled, single, zero]
    by_cases inside : j < 4
    · simp [inside]
    · simp [inside]

end MrHeader

/-! ## What the calculators enable -/

section
variable {addr count : BitVec 64}

theorem lstdwOf_of_one_dw (hc : 1 ≤ count.toNat) (hw : addr.toNat + count.toNat + 4 < 2 ^ 64)
    (one : addr.toNat % 4 + count.toNat ≤ 4) : lstdwOf addr count = 0 := by
  rcases lstdwOf_of_one hc (by omega) one with none | ⟨top, -⟩
  · exact none
  · omega

/-- A request that goes on behind its first double word takes that one to its end. -/
theorem runsToEnd_fstdwOf (more : 4 < addr.toNat % 4 + count.toNat) :
    runsToEnd (fstdwOf addr count) = true := by
  have ho : addr.toNat % 4 < 4 := Nat.mod_lt _ (by omega)
  rw [fstdwOf_eq]
  generalize addr.toNat % 4 = o at *
  generalize count.toNat = n at *
  by_cases small : n < 4
  · rw [if_pos small]
    interval_cases n <;> interval_cases o <;> first | omega | decide
  · rw [if_neg small]
    interval_cases o <;> decide

theorem runsOnce_fstdwOf (hc : 1 ≤ count.toNat) (one : addr.toNat % 4 + count.toNat ≤ 4) :
    runsOnce (fstdwOf addr count) = true := by
  have ho : addr.toNat % 4 < 4 := Nat.mod_lt _ (by omega)
  rw [fstdwOf_eq]
  generalize addr.toNat % 4 = o at *
  generalize count.toNat = n at *
  have small : n ≤ 4 := by omega
  interval_cases n <;> interval_cases o <;> first | omega | decide

theorem runsFromStart_lstdwOf (hw : addr.toNat + count.toNat + 4 < 2 ^ 64)
    (more : 4 < addr.toNat % 4 + count.toNat) : runsFromStart (lstdwOf addr count) = true := by
  rw [lstdwOf_of_more (by omega) (by omega) more, if_neg (by omega)]
  have hk : (addr.toNat + count.toNat - 1) % 4 < 4 := Nat.mod_lt _ (by omega)
  generalize (addr.toNat + count.toNat - 1) % 4 = k at *
  interval_cases k <;> rfl

theorem enabledOnce_of_calculated (hc : 1 ≤ count.toNat)
    (hw : addr.toNat + count.toNat + 4 < 2 ^ 64) :
    EnabledOnce (spanDw addr count) (fstdwOf addr count) (lstdwOf addr count) := by
  rw [EnabledOnce]
  by_cases one : addr.toNat % 4 + count.toNat ≤ 4
  · rw [if_pos (by rw [spanDw]; omega)]
    exact runsOnce_fstdwOf hc one
  · rw [if_neg (by rw [spanDw]; omega)]
    exact ⟨runsToEnd_fstdwOf (by omega), runsFromStart_lstdwOf hw (by omega)⟩

/-- The enabled bytes are the requested ones. -/
theorem byteEnabled_of_calculated (hc : 1 ≤ count.toNat)
    (hw : addr.toNat + count.toNat + 4 < 2 ^ 64) (i : Nat) :
    byteEnabled (spanDw addr count) (fstdwOf addr count) (lstdwOf addr count) i = true ↔
      addr.toNat % 4 ≤ i ∧ i < addr.toNat % 4 + count.toNat := by
  have sum := disabled_of_calculated hc (show addr.toNat + count.toNat ≤ 2 ^ 64 by omega)
  have one : spanDw addr count = 1 → lstdwOf addr count = 0 := by
    intro single
    rw [spanDw] at single
    exact lstdwOf_of_one_dw hc hw (by omega)
  rw [(enabledOnce_of_calculated hc hw).byteEnabled_iff (by rw [spanDw]; omega) one,
    fstdwSkip_fstdwOf hc]
  omega

end

end Sdplane
