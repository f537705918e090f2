import Sdplane.Misc.ByteMem
import Mathlib.Algebra.BigOperators.Group.List.Basic

/-!
# One's-complement sums

The 16-bit one's-complement sum of the Internet checksum, its characterisation modulo
65535, its independence of byte order, and the folding of a wide accumulator.
-/

namespace Sdplane.OnesSum

/-- One's-complement addition: the carry out of bit 15 is added back in. -/
def add (a b : Nat) : Nat := (a + b) % 65536 + (a + b) / 65536

/-- The one's-complement sum of 16-bit words. -/
def onesSum (ws : List Nat) : Nat := ws.foldr add 0

theorem onesSum_le {ws : List Nat} (h : ∀ w ∈ ws, w < 65536) : onesSum ws ≤ 65535 := by
  induction ws with
  | nil => simp [onesSum]
  | cons w ws ih =>
      have hw := h w (by simp)
      have hs := ih fun v hv => h v (List.mem_cons_of_mem w hv)
      change add w (onesSum ws) ≤ 65535
      unfold add
      omega

/-- The one's-complement sum is the plain sum modulo 65535, with 65535 and 0 told apart
    by whether anything was summed. -/
theorem onesSum_mod {ws : List Nat} (h : ∀ w ∈ ws, w < 65536) :
    onesSum ws % 65535 = ws.sum % 65535 ∧ (onesSum ws = 0 ↔ ws.sum = 0) := by
  induction ws with
  | nil => simp [onesSum]
  | cons w ws ih =>
      have hw := h w (by simp)
      have tail := fun v hv => h v (List.mem_cons_of_mem w hv)
      have hs := onesSum_le tail
      obtain ⟨modEq, zeroIff⟩ := ih tail
      change add w (onesSum ws) % 65535 = _ ∧ (add w (onesSum ws) = 0 ↔ _)
      rw [List.sum_cons]
      unfold add
      omega

/-- All ones is the value of a non-empty sum that 65535 divides. -/
theorem onesSum_eq_allOnes_iff {ws : List Nat} (h : ∀ w ∈ ws, w < 65536) :
    onesSum ws = 0xFFFF ↔ 0 < ws.sum ∧ ws.sum % 65535 = 0 := by
  have hs := onesSum_le h
  obtain ⟨modEq, zeroIff⟩ := onesSum_mod h
  omega

/-! ## Byte order -/

/-- The sum of the words whose octets in memory order are given, read big-endian. -/
def beSum (ps : List (Nat × Nat)) : Nat := (ps.map fun p => 256 * p.1 + p.2).sum

/-- The same octets read little-endian. -/
def leSum (ps : List (Nat × Nat)) : Nat := (ps.map fun p => p.1 + 256 * p.2).sum

theorem beSum_eq (ps : List (Nat × Nat)) : ∃ k, 256 * leSum ps = beSum ps + 65535 * k := by
  induction ps with
  | nil => exact ⟨0, by simp [beSum, leSum]⟩
  | cons p ps ih =>
      obtain ⟨k, hk⟩ := ih
      refine ⟨k + p.2, ?_⟩
      simp only [beSum, leSum, List.map_cons, List.sum_cons] at hk ⊢
      omega

/-- Swapping the octets of every word changes neither whether the sum vanishes modulo
    65535 nor whether it vanishes. -/
theorem beSum_mod_iff (ps : List (Nat × Nat)) : beSum ps % 65535 = 0 ↔ leSum ps % 65535 = 0 := by
  obtain ⟨k, hk⟩ := beSum_eq ps
  omega

theorem beSum_pos_iff (ps : List (Nat × Nat)) : 0 < beSum ps ↔ 0 < leSum ps := by
  induction ps with
  | nil => simp [beSum, leSum]
  | cons p ps ih =>
      simp only [beSum, leSum, List.map_cons, List.sum_cons] at ih ⊢
      omega

/-! ## Folding -/

/-- One round of folding the high half into the low half. -/
def fold (n : Nat) : Nat := n / 65536 + n % 65536

/-- Two rounds are enough for a 32-bit accumulator. -/
def reduce (n : Nat) : Nat := fold (fold n)

theorem reduce_le {n : Nat} (h : n < 2 ^ 32) : reduce n ≤ 65535 := by
  unfold reduce fold
  omega

theorem reduce_mod (n : Nat) : reduce n % 65535 = n % 65535 := by
  unfold reduce fold
  omega

end Sdplane.OnesSum
