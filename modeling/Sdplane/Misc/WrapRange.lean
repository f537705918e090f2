import Mathlib.Data.BitVec

/-!
# Range checks with wrapping addresses

An access of `n` bytes at `start` to an allocation of `size` bytes that stands for the
addresses from `base` on touches the offsets `start - base + k`, computed modulo `2 ^ w`.
`offsets_inside_iff` says when all of them lie in the allocation, and
`sum_le_of_wrapped_le_iff` what the usual test `addr + len <= base + size` on wrapped sums
is worth. All of it holds at any word width.
-/

namespace Sdplane.WrapRange

variable {w : Nat}

theorem toNat_offset (start base : BitVec w) (k : Nat) :
    (start - base + BitVec.ofNat w k).toNat = (start.toNat + (2 ^ w - base.toNat) + k) % 2 ^ w := by
  rw [BitVec.toNat_add, BitVec.toNat_sub, BitVec.toNat_ofNat, ← Nat.add_mod,
    Nat.add_comm (2 ^ w - base.toNat)]

/-- An offset above the base that stays within the word is the plain difference. -/
theorem toNat_offset_of_le {start base : BitVec w} {k : Nat} (above : base.toNat ≤ start.toNat)
    (small : start.toNat - base.toNat + k < 2 ^ w) :
    (start - base + BitVec.ofNat w k).toNat = start.toNat - base.toNat + k := by
  have hb := base.isLt
  have shifted : start.toNat + (2 ^ w - base.toNat) + k =
      start.toNat - base.toNat + k + 2 ^ w := by omega
  rw [toNat_offset, shifted, Nat.add_mod_right, Nat.mod_eq_of_lt small]

/-- Every offset of a non-empty access lies in the allocation exactly when the access,
    read as an interval of natural numbers, lies in the region. `near` excludes the case
    that an access far below `base` wraps round into the allocation. -/
theorem offsets_inside_iff {start base : BitVec w} {n size : Nat} (hn : 0 < n)
    (hsize : size < 2 ^ w) (near : base.toNat + size ≤ start.toNat + 2 ^ w) :
    (∀ k < n, (start - base + BitVec.ofNat w k).toNat < size) ↔
      base.toNat ≤ start.toNat ∧ start.toNat + n ≤ base.toNat + size := by
  have hs := start.isLt
  have hb := base.isLt
  constructor
  · intro inside
    have first := inside 0 hn
    have above : base.toNat ≤ start.toNat := by
      by_contra below
      rw [toNat_offset, Nat.mod_eq_of_lt (by omega)] at first
      omega
    rw [toNat_offset_of_le above (by omega)] at first
    refine ⟨above, ?_⟩
    by_contra beyond
    -- the byte at offset `size` is one of those the access touches
    have last := inside (base.toNat + size - start.toNat) (by omega)
    rw [toNat_offset_of_le above (by omega)] at last
    omega
  · rintro ⟨above, fits⟩ k hk
    rw [toNat_offset_of_le above (by omega)]
    omega

/-- Where the wrapped end of an access is not past the wrapped end of the region, the
    access ends inside the region unless only the access wrapped. -/
theorem sum_le_of_wrapped_le_iff {M addr len base size : Nat} (ha : addr < M) (hl : len < M)
    (hb : base < M) (hs : size < M)
    (passed : (addr + len) % M ≤ (base + size) % M) :
    addr + len ≤ base + size ↔ addr + len < M ∨ M ≤ base + size := by
  by_cases wrapA : addr + len < M
  · rw [Nat.mod_eq_of_lt wrapA] at passed
    have le_self := Nat.mod_le (base + size) M
    omega
  · by_cases wrapB : base + size < M
    · omega
    · rw [Nat.mod_eq_sub_mod (by omega), Nat.mod_eq_of_lt (by omega),
        Nat.mod_eq_sub_mod (by omega), Nat.mod_eq_of_lt (by omega)] at passed
      omega

end Sdplane.WrapRange
