import Sdplane.Nettlp.Psmem
import Sdplane.Tlp.ByteEnables

/-!
# Byte enables of memory writes

`nettlp_psmem_mwr` (`nettlp.c:600-620`) makes one copy, from the first enabled byte on and as
long as it counts enabled bytes. That is what the byte enables say as long as these have no
gaps.
-/

namespace Sdplane

open ByteMem

/-- The data area behind a request header. -/
def mwrDataArea (b : ByteMem) (mh : Nat) : Nat :=
  mh + sizeofTlpMrHdr + (if tlpIs3dw (hdrFmtType b mh) then 4 else 8)

theorem tlpMwrData_eq (b : ByteMem) (mh : Nat) :
    tlpMwrData b mh = mwrDataArea b mh + fstdwSkip (mrFstdw b mh) := rfl

/-- The bytes from the first enabled one on, as many as are counted, lie in the memory, and the
    address space does not end among them. -/
structure MwrInRange (p : Psmem) (b : ByteMem) (mh : Nat) : Prop where
  start : p.addr.toNat ≤ (tlpMrAddr b mh).toNat
  stop : (tlpMrAddr b mh).toNat + tlpMrDataLength b mh ≤ p.endAddr
  inSpace : (tlpMrAddr b mh).toNat + tlpMrDataLength b mh ≤ 2 ^ 64

/-- The memory with other content. -/
def Psmem.withMemory (p : Psmem) (memory : ByteMem) : Psmem := { p with memory := memory }

/-- Whatever the memory holds, the write puts the payload byte where a byte is enabled and
    leaves all other bytes. -/
structure MwrByByteEnables (p : Psmem) (b : ByteMem) (mh : Nat) : Prop where
  enabled : ∀ memory, ∀ i < p.size.toNat, ∀ j,
    byteEnabled (mrLengthDw b mh) (mrFstdw b mh) (mrLstdw b mh) j = true →
      p.addr.toNat + i = (mrAddrField b mh).toNat + j →
        (psmemAfterMwr (p.withMemory memory) b mh).memory i = b (mwrDataArea b mh + j)
  other : ∀ memory, ∀ i < p.size.toNat, ¬ mrEnables b mh (p.addr.toNat + i) →
    (psmemAfterMwr (p.withMemory memory) b mh).memory i = memory i

/-- The memory does not reach the end of the address space, or the write does. -/
def MwrEndSeen (p : Psmem) (b : ByteMem) (mh : Nat) : Prop :=
  p.endAddr < 2 ^ 64 ∨ (tlpMrAddr b mh).toNat + tlpMrDataLength b mh = 2 ^ 64

/-- When a write goes by its byte enables. -/
def MwrTakesByteEnables (p : Psmem) (b : ByteMem) (mh : Nat) : Prop :=
  MwrEndSeen p b mh ∧ EnabledOnce (mrLengthDw b mh) (mrFstdw b mh) (mrLstdw b mh) ∨
    ¬ MwrEndSeen p b mh ∧ mrLengthDw b mh = 1 ∧ mrFstdw b mh = 0

section
variable {p : Psmem} {b : ByteMem} {mh : Nat}

/-- The copy of an accepted write, byte by byte. -/
theorem psmemAfterMwr_memory (range : MwrInRange p b mh) (pos : 0 ≤ tlpMrDataLength b mh)
    (accepted : psmemOutOfRange p (tlpMrAddr b mh) (BitVec.ofInt 64 (tlpMrDataLength b mh)) = false)
    (memory : ByteMem) {i : Nat} (hi : i < p.size.toNat) :
    (psmemAfterMwr (p.withMemory memory) b mh).memory i =
      if (tlpMrAddr b mh).toNat ≤ p.addr.toNat + i ∧
          p.addr.toNat + i < (tlpMrAddr b mh).toNat + tlpMrDataLength b mh then
        b (tlpMwrData b mh + (p.addr.toNat + i - (tlpMrAddr b mh).toNat))
      else memory i := by
  have size := p.size.isLt
  have top := (tlpMrAddr b mh).isLt
  have start := range.start
  have stop := range.stop
  have ends : p.endAddr = p.addr.toNat + p.size.toNat := rfl
  obtain ⟨-, upper⟩ := tlpMrDataLength_bounds b mh
  have count := toNat_ofInt_of_nonneg pos (by omega)
  have accepted' : psmemOutOfRange (p.withMemory memory) (tlpMrAddr b mh)
      (BitVec.ofInt 64 (tlpMrDataLength b mh)) = false := accepted
  rw [psmemAfterMwr, nettlpPsmemMwr, accepted']
  have place : (BitVec.ofNat 64 i - (tlpMrAddr b mh - (p.withMemory memory).addr)).toNat =
      (2 ^ 64 + p.addr.toNat + i - (tlpMrAddr b mh).toNat) % 2 ^ 64 := by
    change (BitVec.ofNat 64 i - (tlpMrAddr b mh - p.addr)).toNat = _
    rw [BitVec.toNat_sub, BitVec.toNat_sub, BitVec.toNat_ofNat]
    omega
  simp only [Bool.false_eq_true, if_false, Memcpy.run, place, count]
  by_cases inside : (tlpMrAddr b mh).toNat ≤ p.addr.toNat + i ∧
      p.addr.toNat + i < (tlpMrAddr b mh).toNat + tlpMrDataLength b mh
  · rw [if_pos inside, if_pos (by omega)]
    congr 2
    omega
  · rw [if_neg inside, if_neg (by omega)]
    rfl

theorem psmemAfterMwr_of_outOfRange
    (rejected : psmemOutOfRange p (tlpMrAddr b mh) (BitVec.ofInt 64 (tlpMrDataLength b mh)) = true)
    (memory : ByteMem) : psmemAfterMwr (p.withMemory memory) b mh = p.withMemory memory := by
  have rejected' : psmemOutOfRange (p.withMemory memory) (tlpMrAddr b mh)
      (BitVec.ofInt 64 (tlpMrDataLength b mh)) = true := rejected
  rw [psmemAfterMwr, nettlpPsmemMwr, rejected']
  rfl

/-- The range test lets a write in range through unless the end of the memory wraps and that of
    the write does not. -/
theorem MwrInRange.accepted_iff (range : MwrInRange p b mh) (h : MrHeader b mh)
    (pos : 1 ≤ mrLengthDw b mh) :
    psmemOutOfRange p (tlpMrAddr b mh) (BitVec.ofInt 64 (tlpMrDataLength b mh)) = false ↔
      MwrEndSeen p b mh := by
  have count_pos := h.dataLength_pos pos
  obtain ⟨-, upper⟩ := tlpMrDataLength_bounds b mh
  have count := toNat_ofInt_of_nonneg (n := tlpMrDataLength b mh) (by omega) (by omega)
  have size := p.size.isLt
  have base := p.addr.isLt
  have start := range.start
  have stop := range.stop
  have inSpace := range.inSpace
  have ends : p.endAddr = p.addr.toNat + p.size.toNat := rfl
  rw [psmemOutOfRange_eq_false_iff, count, MwrEndSeen]
  omega

/-- Memory that the payload byte would change. -/
theorem exists_other_byte (x : Byte) : ∃ memory : ByteMem, ∀ i, memory i ≠ x := by
  refine ⟨fun _ => x + 1#8, fun _ => ?_⟩
  change x + 1#8 ≠ x
  revert x
  decide +kernel

/-- An accepted write goes by its byte enables just if these are one run. -/
theorem mwrByByteEnables_of_accepted (h : MrHeader b mh) (pos : 1 ≤ mrLengthDw b mh)
    (range : MwrInRange p b mh)
    (accepted : psmemOutOfRange p (tlpMrAddr b mh) (BitVec.ofInt 64 (tlpMrDataLength b mh)) = false) :
    MwrByByteEnables p b mh ↔
      EnabledOnce (mrLengthDw b mh) (mrFstdw b mh) (mrLstdw b mh) := by
  have count_pos := h.dataLength_pos pos
  have start := h.toNat_tlpMrAddr
  have low := range.start
  have stop := range.stop
  have ends : p.endAddr = p.addr.toNat + p.size.toNat := rfl
  have length := tlpMrDataLength_eq b mh
  have after := @psmemAfterMwr_memory p b mh range (by omega) accepted
  constructor
  · intro by'
    refine (h.permitted.enabledOnce_iff pos).mpr ?_
    intro j first last
    by_contra off
    obtain ⟨memory, other⟩ := exists_other_byte (b (tlpMwrData b mh +
      ((mrAddrField b mh).toNat + j - (tlpMrAddr b mh).toNat)))
    obtain ⟨i, place⟩ : ∃ i, p.addr.toNat + i = (mrAddrField b mh).toNat + j :=
      ⟨(mrAddrField b mh).toNat + j - p.addr.toNat, by omega⟩
    have kept := by'.other memory i (by omega) (by rwa [place, mrEnables_add])
    rw [after memory (by omega), if_pos (by omega), place] at kept
    exact other i kept.symm
  · intro once
    have iff' := once.byteEnabled_iff pos h.permitted.one
    refine ⟨?_, ?_⟩
    · intro memory i hi j enabled place
      have run := (iff' j).mp enabled
      rw [after memory hi, if_pos (by omega), tlpMwrData_eq]
      congr 1
      omega
    · intro memory i hi off
      rw [after memory hi, if_neg]
      rintro ⟨first, last⟩
      obtain ⟨j, place⟩ : ∃ j, p.addr.toNat + i = (mrAddrField b mh).toNat + j :=
        ⟨p.addr.toNat + i - (mrAddrField b mh).toNat, by omega⟩
      rw [place, mrEnables_add, iff'] at off
      omega

/-- A rejected write goes by its byte enables just if it has none. -/
theorem mwrByByteEnables_of_rejected (h : MrHeader b mh) (pos : 1 ≤ mrLengthDw b mh)
    (range : MwrInRange p b mh)
    (rejected : psmemOutOfRange p (tlpMrAddr b mh) (BitVec.ofInt 64 (tlpMrDataLength b mh)) = true) :
    MwrByByteEnables p b mh ↔ mrLengthDw b mh = 1 ∧ mrFstdw b mh = 0 := by
  have after := psmemAfterMwr_of_outOfRange (p := p) rejected
  have count_pos := h.dataLength_pos pos
  have start := h.toNat_tlpMrAddr
  have low := range.start
  have stop := range.stop
  have ends : p.endAddr = p.addr.toNat + p.size.toNat := rfl
  constructor
  · intro by'
    by_contra some
    have first := @byteEnabled_fstdwSkip _ _ (mrLstdw b mh) pos (h.fstdw_ne_zero pos some)
    obtain ⟨memory, other⟩ := exists_other_byte (b (mwrDataArea b mh + fstdwSkip (mrFstdw b mh)))
    obtain ⟨i, place⟩ : ∃ i, p.addr.toNat + i =
        (mrAddrField b mh).toNat + fstdwSkip (mrFstdw b mh) :=
      ⟨(mrAddrField b mh).toNat + fstdwSkip (mrFstdw b mh) - p.addr.toNat, by omega⟩
    have stored := by'.enabled memory i (by omega) _ first place
    rw [after] at stored
    exact other i stored
  · intro none
    have off := (h.none_enabled_iff pos).mpr none
    refine ⟨?_, ?_⟩
    · intro memory i _ j on
      rw [off j] at on
      cases on
    · intro memory i _ _
      rw [after]
      rfl

/-- A write in range goes by its byte enables exactly if these are one run and the range test
    sees where the memory ends, or if no byte is enabled and the test does not. -/
theorem mwrByByteEnables_iff (h : MrHeader b mh) (pos : 1 ≤ mrLengthDw b mh)
    (range : MwrInRange p b mh) :
    MwrByByteEnables p b mh ↔ MwrTakesByteEnables p b mh := by
  have seen := range.accepted_iff h pos
  rw [MwrTakesByteEnables, ← seen]
  cases rejected : psmemOutOfRange p (tlpMrAddr b mh)
      (BitVec.ofInt 64 (tlpMrDataLength b mh)) with
  | false =>
      rw [mwrByByteEnables_of_accepted h pos range rejected]
      simp
  | true =>
      rw [mwrByByteEnables_of_rejected h pos range rejected]
      simp

end

/-- Writes of one double word to 0x1000: a whole one, and one without an enabled byte. -/
def mwrFirstDw : ByteMem := ByteMem.ofList
  [0x40, 0, 0, 1, 0, 0, 0, 0x0F, 0x00, 0x00, 0x10, 0x00, 1, 2, 3, 4]
def mwrNoByte : ByteMem := ByteMem.ofList
  [0x40, 0, 0, 1, 0, 0, 0, 0x00, 0x00, 0x00, 0x10, 0x00, 1, 2, 3, 4]

/-- An 8 KiB memory at 0x1000. -/
def zeroPsmem : Psmem := ⟨0x1000, 0x2000, fun _ => 0⟩

theorem mwrByByteEnables_firstDw :
    MwrByByteEnables zeroPsmem mwrFirstDw 0 ↔ MwrTakesByteEnables zeroPsmem mwrFirstDw 0 :=
  mwrByByteEnables_iff ⟨by decide, by decide, by decide, by decide, by decide⟩ (by decide)
    ⟨by decide, by decide, by decide⟩

/-- The decoders take no enabled byte for four. -/
theorem mwrByByteEnables_not :
    ¬ ∀ (p : Psmem) (b : ByteMem) (mh : Nat), MrHeader b mh → 1 ≤ mrLengthDw b mh →
      MwrInRange p b mh → MwrByByteEnables p b mh := by
  intro all
  have header : MrHeader mwrNoByte 0 :=
    ⟨by decide, by decide, by decide, by decide, by decide⟩
  have one : mrLengthDw mwrNoByte 0 = 1 := by decide
  have by' := all zeroPsmem mwrNoByte 0 header (by omega) ⟨by decide, by decide, by decide⟩
  have off : ¬ mrEnables mwrNoByte 0 (zeroPsmem.addr.toNat + 0) := by
    rintro ⟨j, on, -⟩
    rw [(header.none_enabled_iff (by omega)).mpr ⟨one, by decide⟩ j] at on
    cases on
  have kept := by'.other (fun _ => 0) 0 (by decide) off
  revert kept
  decide

end Sdplane
