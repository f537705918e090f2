import Sdplane.Misc.WrapRange
import Sdplane.Tlp.Support

/-!
# Pseudo memory and memory writes

The pseudo memory of `sdplane/nettlp.c` and `nettlp_psmem_mwr` (`nettlp.c:600-620`), which
copies the payload of a memory write into it after a range test.
-/

namespace Sdplane

open ByteMem

/-- The globals `psmem_addr`, `psmem_size` and `psmem_memory` (`nettlp.c:93-96`), the last
    as the bytes at each offset from the pointer; those from `psmem_size` on belong to
    somebody else. -/
structure Psmem where
  addr : BitVec 64
  size : BitVec 32
  memory : ByteMem

/-- `addr < psmem_addr || addr + len > psmem_addr + psmem_size`, the test both request
    handlers make before they touch the memory. -/
def psmemOutOfRange (p : Psmem) (addr len : BitVec 64) : Bool :=
  addr < p.addr || addr + len > p.addr + p.size.setWidth 64

/-- A `memcpy (psmem_memory + dst, src, n)`; `src` is an offset in the received frame. -/
structure Memcpy where
  dst : BitVec 64
  src : Nat
  n : BitVec 64

/-- The offset the `k`-th byte of the copy is stored at. -/
def Memcpy.offset (c : Memcpy) (k : Nat) : Nat := (c.dst + BitVec.ofNat 64 k).toNat

/-- The memory after the copy out of `b`. -/
def Memcpy.run (c : Memcpy) (b memory : ByteMem) : ByteMem := fun i =>
  let k := (BitVec.ofNat 64 i - c.dst).toNat
  if k < c.n.toNat then b (c.src + k) else memory i

/-- `nettlp_psmem_mwr`: the copy it makes, if the range test lets it. The `int` length is
    sign-extended in the test and in the size of the copy. -/
def nettlpPsmemMwr (p : Psmem) (b : ByteMem) (mh : Nat) : Option Memcpy :=
  let addr := tlpMrAddr b mh
  let ptr := tlpMwrData b mh
  let len := BitVec.ofInt 64 (tlpMrDataLength b mh)
  if psmemOutOfRange p addr len then none
  else some { dst := addr - p.addr, src := ptr, n := len }

/-- The pseudo memory after `nettlp_psmem_mwr`. -/
def psmemAfterMwr (p : Psmem) (b : ByteMem) (mh : Nat) : Psmem :=
  match nettlpPsmemMwr p b mh with
  | none => p
  | some c => { p with memory := c.run b p.memory }

@[simp] theorem psmemAfterMwr_addr (p : Psmem) (b : ByteMem) (mh : Nat) :
    (psmemAfterMwr p b mh).addr = p.addr := by
  unfold psmemAfterMwr
  split <;> rfl

@[simp] theorem psmemAfterMwr_size (p : Psmem) (b : ByteMem) (mh : Nat) :
    (psmemAfterMwr p b mh).size = p.size := by
  unfold psmemAfterMwr
  split <;> rfl

namespace Memcpy

variable (c : Memcpy) (b memory : ByteMem)

/-- The `k`-th byte of the copy is the `k`-th of the source. -/
theorem run_offset {k : Nat} (hk : k < c.n.toNat) : c.run b memory (c.offset k) = b (c.src + k) := by
  have hn := c.n.isLt
  have back : (BitVec.ofNat 64 (c.offset k) - c.dst).toNat = k := by
    rw [offset, BitVec.ofNat_toNat, BitVec.setWidth_eq, BitVec.add_comm, BitVec.add_sub_cancel,
      BitVec.toNat_ofNat, Nat.mod_eq_of_lt (by omega)]
  simp only [run, back, hk, if_true]

/-- What the copy does not store to stays. -/
theorem run_of_not_offset {i : Nat} (hi : i < 2 ^ 64) (other : ∀ k < c.n.toNat, c.offset k ≠ i) :
    c.run b memory i = memory i := by
  have here : c.offset (BitVec.ofNat 64 i - c.dst).toNat = i := by
    rw [offset, BitVec.ofNat_toNat, BitVec.setWidth_eq, BitVec.add_comm, BitVec.sub_add_cancel,
      BitVec.toNat_ofNat, Nat.mod_eq_of_lt hi]
  have untouched : ¬ (BitVec.ofNat 64 i - c.dst).toNat < c.n.toNat := fun hk => other _ hk here
  simp only [run, untouched, if_false]

end Memcpy

/-! ## The range test -/

/-- The 64-bit end of the region, before it wraps. -/
def Psmem.endAddr (p : Psmem) : Nat := p.addr.toNat + p.size.toNat

theorem psmemOutOfRange_eq_false_iff (p : Psmem) (addr len : BitVec 64) :
    psmemOutOfRange p addr len = false ↔
      p.addr.toNat ≤ addr.toNat ∧
        (addr.toNat + len.toNat) % 2 ^ 64 ≤ p.endAddr % 2 ^ 64 := by
  have hsize : (p.size.setWidth 64).toNat = p.size.toNat := by
    have := p.size.isLt
    rw [BitVec.toNat_setWidth, Nat.mod_eq_of_lt (by omega)]
  simp only [psmemOutOfRange, Bool.or_eq_false_iff, decide_eq_false_iff_not, GT.gt,
    BitVec.lt_def, BitVec.toNat_add, hsize, Nat.not_lt, Psmem.endAddr]

/-- A passed test on an access of `len` bytes is good for the interval of naturals unless
    only the access wrapped. -/
theorem le_endAddr_iff_of_passed {p : Psmem} {addr len : BitVec 64}
    (passed : psmemOutOfRange p addr len = false) :
    addr.toNat + len.toNat ≤ p.endAddr ↔
      addr.toNat + len.toNat < 2 ^ 64 ∨ 2 ^ 64 ≤ p.endAddr := by
  have hsize := p.size.isLt
  exact WrapRange.sum_le_of_wrapped_le_iff addr.isLt len.isLt p.addr.isLt (by omega)
    ((psmemOutOfRange_eq_false_iff p addr len).mp passed).2

/-- Every byte of a copy to `psmem_memory + (start - psmem_addr)` lands in the allocation
    exactly when the interval it stands for lies in the region. -/
theorem offsets_inside_iff_of_near {p : Psmem} {start : BitVec 64} {n : Nat} (hn : 0 < n)
    (near : p.addr.toNat ≤ start.toNat + 3) :
    (∀ k < n, (start - p.addr + BitVec.ofNat 64 k).toNat < p.size.toNat) ↔
      p.addr.toNat ≤ start.toNat ∧ start.toNat + n ≤ p.endAddr := by
  have hsize := p.size.isLt
  exact WrapRange.offsets_inside_iff hn (by omega) (by omega)

/-! ## Memory writes -/

/-- Whenever the test passes, every byte the copy stores goes to an offset below
    `psmem_size`. -/
def MwrStoresInside (p : Psmem) (b : ByteMem) (mh : Nat) : Prop :=
  ∀ c, nettlpPsmemMwr p b mh = some c → ∀ k < c.n.toNat, c.offset k < p.size.toNat

theorem toNat_ofInt_of_nonneg {n : Int} (h : 0 ≤ n) (hn : n < 2 ^ 64) :
    (BitVec.ofInt 64 n).toNat = n.toNat := by
  rw [BitVec.toNat_ofInt]
  omega

/-- A negative length becomes a copy of almost the whole address space. -/
theorem toNat_ofInt_of_neg {n : Int} (h : n < 0) (hn : -6 ≤ n) :
    2 ^ 64 - 6 ≤ (BitVec.ofInt 64 n).toNat := by
  rw [BitVec.toNat_ofInt]
  omega

/-- The data length of a header is at most the whole 10-bit span and at least minus six. -/
theorem tlpMrDataLength_bounds (b : ByteMem) (mh : Nat) :
    -6 ≤ tlpMrDataLength b mh ∧ tlpMrDataLength b mh ≤ 4092 := by
  have hl := mrLengthDw_lt b mh
  have hf := fstdwDisabled_le (mrFstdw b mh)
  have hs := lstdwDisabled_le (mrLstdw b mh)
  rw [tlpMrDataLength_eq]
  omega

/-- The copy of a memory write stays inside the pseudo memory exactly when the test
    rejects it, or its length is not negative and the test did not compare a wrapped end
    of the access with an unwrapped end of the region. -/
theorem nettlpPsmemMwr_storesInside_iff (p : Psmem) (b : ByteMem) (mh : Nat) :
    MwrStoresInside p b mh ↔
      psmemOutOfRange p (tlpMrAddr b mh) (BitVec.ofInt 64 (tlpMrDataLength b mh)) = true ∨
      0 ≤ tlpMrDataLength b mh ∧
        ((tlpMrAddr b mh).toNat + (tlpMrDataLength b mh).toNat < 2 ^ 64 ∨
          2 ^ 64 ≤ p.endAddr) := by
  obtain ⟨lower, upper⟩ := tlpMrDataLength_bounds b mh
  simp only [MwrStoresInside, nettlpPsmemMwr, Memcpy.offset]
  generalize tlpMrAddr b mh = addr
  generalize tlpMrDataLength b mh = len at *
  cases rejected : psmemOutOfRange p addr (BitVec.ofInt 64 len) with
  | true => simp
  | false =>
      obtain ⟨above, -⟩ := (psmemOutOfRange_eq_false_iff p addr _).mp rejected
      have exact' := le_endAddr_iff_of_passed rejected
      have hsize := p.size.isLt
      have hend : p.endAddr = p.addr.toNat + p.size.toNat := rfl
      simp only [Bool.false_eq_true, if_false, Option.some.injEq, forall_eq', false_or]
      by_cases neg : len < 0
      · -- the copy is longer than any region
        have huge := toNat_ofInt_of_neg neg lower
        rw [offsets_inside_iff_of_near (by omega) (by omega)]
        omega
      · have count := toNat_ofInt_of_nonneg (not_lt.mp neg) (by omega)
        rw [count] at exact' ⊢
        rcases Nat.eq_zero_or_pos len.toNat with zero | pos
        · have haddr := addr.isLt
          simp [zero, haddr, not_lt.mp neg]
        · rw [offsets_inside_iff_of_near pos (by omega), ← exact']
          omega

/-- A well-formed 8-byte write to the last DW of the address space, 64-bit format. -/
def mwrAtTop : ByteMem := ByteMem.ofList
  [0x60, 0, 0, 2, 0, 0, 0, 0xFF, 0xFF, 0xFF, 0xFF, 0xFF, 0xFF, 0xFF, 0xFF, 0xFC]

/-- The end of `mwrAtTop` wraps to 4, so it passes the test of an 8 KiB memory at 0x1000
    although its first byte is stored far outside. -/
theorem nettlpPsmemMwr_stores_outside :
    ¬ ∀ (p : Psmem) (b : ByteMem) (mh : Nat), MwrStoresInside p b mh := by
  intro inside
  have stored := inside ⟨0x1000, 0x2000, fun _ => 0⟩ mwrAtTop 0
    ⟨0xFFFFFFFFFFFFEFFC, 16, 8⟩ (by rfl) 0 (by decide)
  revert stored
  decide

end Sdplane
