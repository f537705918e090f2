import Sdplane.Misc.Strtoul

/-!
# `strtol` beside `strtoul`

Both read the same digits, and differ in what they make of a sign and of a number that does
not fit: for a number without a minus sign `strtol` is the smaller of what `strtoul` gives and
`LONG_MAX`; with one it is not positive.
-/

namespace Sdplane

/-- The number has a minus sign. -/
def hasMinus (s : List Byte) : Bool := (scanSign (s.dropWhile isSpace)).1

/-- What both functions read: the value of the digits, and what follows them. -/
def readDigits (base : Nat) (s : List Byte) : Nat × List Byte :=
  let (radix, digits) := scanBase base (scanSign (s.dropWhile isSpace)).2
  scanDigits radix 0 digits

theorem strtoul_strtol_cases (base : Nat) (s : List Byte) :
    (strtoul base s = (0, s) ∧ strtol base s = (0, s)) ∨
      strtoul base s = (if 2 ^ 64 ≤ (readDigits base s).1 then BitVec.allOnes 64
        else if hasMinus s then -BitVec.ofNat 64 (readDigits base s).1
        else BitVec.ofNat 64 (readDigits base s).1, (readDigits base s).2) ∧
      strtol base s = (if hasMinus s then
          if 2 ^ 63 < (readDigits base s).1 then BitVec.intMin 64
          else -BitVec.ofNat 64 (readDigits base s).1
        else if 2 ^ 63 ≤ (readDigits base s).1 then BitVec.intMax 64
        else BitVec.ofNat 64 (readDigits base s).1, (readDigits base s).2) := by
  obtain ⟨negative, t, scanned⟩ : ∃ negative t, scanSign (s.dropWhile isSpace) = (negative, t) :=
    ⟨_, _, rfl⟩
  obtain ⟨radix, digits, based⟩ : ∃ radix digits, scanBase base t = (radix, digits) := ⟨_, _, rfl⟩
  obtain ⟨value, rest, read⟩ : ∃ value rest, scanDigits radix 0 digits = (value, rest) :=
    ⟨_, _, rfl⟩
  have minus : hasMinus s = negative := by rw [hasMinus, scanned]
  have number : readDigits base s = (value, rest) := by
    simp only [readDigits, scanned, based, read]
  rw [minus, number]
  simp only [strtoul, strtol, scanned, based, read]
  split
  · exact .inl ⟨rfl, rfl⟩
  · refine .inr ⟨?_, ?_⟩
    · by_cases huge : 2 ^ 64 ≤ value
      · rw [if_pos huge, if_pos huge]
      · rw [if_neg huge, if_neg huge]
    · cases negative <;> rfl

theorem strtol_of_plus (base : Nat) {s : List Byte} (plus : hasMinus s = false) :
    (strtol base s).1.toInt = min (strtoul base s).1.toNat (2 ^ 63 - 1) := by
  rcases strtoul_strtol_cases base s with ⟨unsigned, signed⟩ | ⟨unsigned, signed⟩
  · rw [unsigned, signed]
    dsimp only
    decide
  · rw [unsigned, signed, plus]
    generalize (readDigits base s).1 = v
    simp only [Bool.false_eq_true, if_false]
    by_cases huge : 2 ^ 64 ≤ v
    · rw [if_pos huge, if_pos (by omega)]
      decide
    · rw [if_neg huge]
      have toNat : (BitVec.ofNat 64 v).toNat = v := by
        rw [BitVec.toNat_ofNat, Nat.mod_eq_of_lt (by omega)]
      by_cases large : 2 ^ 63 ≤ v
      · rw [if_pos large, toNat, BitVec.toInt_intMax]
        omega
      · rw [if_neg large, BitVec.toInt_eq_toNat_of_lt (by omega), toNat]
        omega

theorem strtol_of_minus (base : Nat) {s : List Byte} (minus : hasMinus s = true) :
    (strtol base s).1.toInt ≤ 0 ∧
      ((strtol base s).1.toInt = 0 ↔ (strtoul base s).1.toNat = 0) := by
  rcases strtoul_strtol_cases base s with ⟨unsigned, signed⟩ | ⟨unsigned, signed⟩
  · rw [unsigned, signed]
    dsimp only
    decide
  · rw [unsigned, signed, minus]
    generalize (readDigits base s).1 = v
    simp only [if_true]
    by_cases huge : 2 ^ 64 ≤ v
    · rw [if_pos huge, if_pos (by omega)]
      decide
    · rw [if_neg huge, BitVec.toNat_neg, BitVec.toNat_ofNat, Nat.mod_eq_of_lt (by omega : v < 2 ^ 64)]
      by_cases large : 2 ^ 63 < v
      · rw [if_pos large, BitVec.toInt_intMin]
        omega
      · rw [if_neg large, BitVec.toInt_eq_toNat_bmod, BitVec.toNat_neg, BitVec.toNat_ofNat,
          Nat.mod_eq_of_lt (by omega : v < 2 ^ 64)]
        by_cases zero : v = 0
        · subst zero
          decide
        · rw [Nat.mod_eq_of_lt (by omega), Int.bmod_def]
          omega

/-! ## How large a short number is -/

theorem scanDigits_lt {base : Nat} (positive : 0 < base) (acc : Nat) (s : List Byte) :
    (scanDigits base acc s).1 < (acc + 1) * base ^ s.length := by
  induction s generalizing acc with
  | nil => simp [scanDigits]
  | cons c s ih =>
      rw [scanDigits, List.length_cons]
      split
      · next digit =>
          calc (scanDigits base (acc * base + digitValue c) s).1
              < (acc * base + digitValue c + 1) * base ^ s.length := ih _
            _ ≤ ((acc + 1) * base) * base ^ s.length := by
                refine Nat.mul_le_mul_right _ ?_
                rw [Nat.add_mul]
                omega
            _ = (acc + 1) * base ^ (s.length + 1) := by rw [Nat.pow_succ', Nat.mul_assoc]
      · have : 0 < base ^ (s.length + 1) := Nat.pow_pos positive
        exact Nat.lt_of_lt_of_le (Nat.lt_succ_self acc) (Nat.le_mul_of_pos_right _ this)

theorem scanSign_length (s : List Byte) : (scanSign s).2.length ≤ s.length := by
  cases s with
  | nil => exact Nat.le_refl _
  | cons c s =>
      rw [scanSign]
      split_ifs
      · exact Nat.le_succ _
      · exact Nat.le_succ _
      · exact Nat.le_refl _

/-- In base 0 the digits are at most hexadecimal ones. -/
theorem scanBase_zero (s : List Byte) :
    0 < (scanBase 0 s).1 ∧ (scanBase 0 s).1 ≤ 16 ∧ (scanBase 0 s).2.length ≤ s.length := by
  have plain : ∀ t, 0 < plainBase 0 t ∧ plainBase 0 t ≤ 16 := by
    intro t
    simp only [plainBase]
    split_ifs <;> omega
  rw [scanBase.eq_def]
  split
  · split
    · simp only [List.length_cons]
      omega
    · exact ⟨(plain _).1, (plain _).2, Nat.le_refl _⟩
  · exact ⟨(plain _).1, (plain _).2, Nat.le_refl _⟩

theorem strtoul_zero_lt {s : List Byte} (plus : hasMinus s = false) :
    (strtoul 0 s).1.toNat < 16 ^ s.length := by
  have one : 0 < 16 ^ s.length := Nat.pow_pos (by omega)
  rcases strtoul_strtol_cases 0 s with ⟨unsigned, -⟩ | ⟨unsigned, -⟩
  · rw [unsigned]
    exact one
  · obtain ⟨positive, radix, length⟩ := scanBase_zero (scanSign (s.dropWhile isSpace)).2
    have shorter := scanSign_length (s.dropWhile isSpace)
    have dropped : (s.dropWhile isSpace).length ≤ s.length := (List.dropWhile_suffix isSpace).length_le
    have small : (readDigits 0 s).1 < 16 ^ s.length := by
      refine Nat.lt_of_lt_of_le (scanDigits_lt positive 0 _) ?_
      rw [Nat.zero_add, Nat.one_mul]
      exact (Nat.pow_le_pow_left radix _).trans (Nat.pow_le_pow_right (by omega)
        (length.trans (shorter.trans dropped)))
    rw [unsigned, plus]
    simp only [Bool.false_eq_true, if_false]
    split
    · next huge =>
        rw [BitVec.toNat_allOnes]
        omega
    · rw [BitVec.toNat_ofNat]
      exact Nat.lt_of_le_of_lt (Nat.mod_le _ _) small

/-- A string without a minus sign has none in front. -/
theorem hasMinus_of_not_mem {s : List Byte} (h : (0x2D : Byte) ∉ s) : hasMinus s = false := by
  rw [hasMinus]
  cases rest : s.dropWhile isSpace with
  | nil => rfl
  | cons c t =>
      have mem : c ∈ s := (List.dropWhile_suffix isSpace).subset (rest ▸ List.mem_cons_self)
      have other : c ≠ 0x2D := fun minus => h (minus ▸ mem)
      rw [scanSign, if_neg other]
      split <;> rfl

end Sdplane
