import Sdplane.Misc.Strtol

/-!
# Numerals

The integer constants of C, as `strtoul` and `strtol` read them in base 0: the two read a numeral
to its end, and give its value where it fits.
-/

namespace Sdplane

inductive Radix where
  | octal | decimal | hexadecimal
deriving DecidableEq

def Radix.base : Radix → Nat
  | octal => 8
  | decimal => 10
  | hexadecimal => 16

/-- What stands before the digits. -/
def Radix.mark : Radix → List Byte
  | octal => [0x30]
  | decimal => []
  | hexadecimal => [0x30, 0x78]

/-- An integer constant, zero being octal. -/
structure Numeral where
  radix : Radix
  digits : List Byte
  inBase : ∀ d ∈ digits, digitValue d < radix.base
  decimal : radix = .decimal → digits ≠ [] ∧ digits.head? ≠ some 0x30
  hexadecimal : radix = .hexadecimal → digits ≠ []

/-- The value of digits behind others. -/
def digitsValue (base acc : Nat) (digits : List Byte) : Nat :=
  digits.foldl (fun n d => n * base + digitValue d) acc

theorem scanDigits_digits {base : Nat} (acc : Nat) {digits : List Byte}
    (inBase : ∀ d ∈ digits, digitValue d < base) :
    scanDigits base acc digits = (digitsValue base acc digits, []) := by
  induction digits generalizing acc with
  | nil => rfl
  | cons d digits ih =>
      obtain ⟨here, later⟩ := List.forall_mem_cons.mp inBase
      rw [scanDigits, if_pos here, ih _ later]
      rfl

/-- A digit is none of what can stand before a number. -/
theorem digit_plain : ∀ d : Byte, digitValue d < 16 →
    isSpace d = false ∧ d ≠ 0x2D ∧ d ≠ 0x2B := by
  decide +kernel

theorem octalDigit_plain : ∀ d : Byte, digitValue d < 8 → d ≠ 0x78 ∧ d ≠ 0x58 := by
  decide +kernel

namespace Numeral

variable (m : Numeral)

def text : List Byte := m.radix.mark ++ m.digits

def value : Nat := digitsValue m.radix.base 0 m.digits

theorem base_le : m.radix.base ≤ 16 := by
  cases m.radix <;> decide

theorem text_ne_nil : m.text ≠ [] := by
  rw [text]
  cases radix : m.radix with
  | octal | hexadecimal => exact List.cons_ne_nil _ _
  | decimal => exact (m.decimal radix).1

/-- What a numeral is made of. -/
theorem mem_text {b : Byte} (mem : b ∈ m.text) : b = 0x78 ∨ digitValue b < 16 := by
  rcases List.mem_append.mp mem with mem | mem
  · have marks : ∀ radix : Radix, ∀ b ∈ radix.mark, b = 0x78 ∨ digitValue b < 16 := by
      intro radix
      cases radix <;> decide
    exact marks _ b mem
  · exact .inr ((m.inBase b mem).trans_le m.base_le)

/-- A digit is what it begins with. -/
theorem exists_first : ∃ d rest, m.text = d :: rest ∧ digitValue d < 16 := by
  rw [text]
  cases radix : m.radix with
  | octal | hexadecimal => exact ⟨_, _, rfl, by decide⟩
  | decimal =>
      obtain ⟨d, rest, digits⟩ := List.exists_cons_of_ne_nil (m.decimal radix).1
      have inBase := (m.inBase d (by rw [digits]; exact List.mem_cons_self)).trans_le m.base_le
      exact ⟨d, rest, digits, inBase⟩

theorem dropWhile_isSpace : m.text.dropWhile isSpace = m.text := by
  obtain ⟨d, rest, text, digit⟩ := m.exists_first
  rw [text, List.dropWhile_cons_of_neg (by simp [(digit_plain d digit).1])]

theorem scanSign_text : scanSign m.text = (false, m.text) := by
  obtain ⟨d, rest, text, digit⟩ := m.exists_first
  obtain ⟨-, minus, plus⟩ := digit_plain d digit
  rw [text, scanSign, if_neg minus, if_neg plus]

/-- A string that does not begin with `0x` and a digit. -/
theorem scanBase_of_plain {base : Nat} {s : List Byte}
    (plain : ∀ x d t, s = 0x30 :: x :: d :: t → x ≠ 0x78 ∧ x ≠ 0x58) :
    scanBase base s = (plainBase base s, s) := by
  rw [scanBase.eq_def]
  split
  · rename_i z x d t
    rw [if_neg]
    rintro ⟨-, rfl, marked, -⟩
    have other := plain x d t rfl
    exact marked.elim other.1 other.2
  · rfl

/-- The digits are read in their base; a zero before octal ones is one of them. -/
theorem scanBase_text : ∃ digits, scanBase 0 m.text = (m.radix.base, digits) ∧ digits ≠ [] ∧
    scanDigits m.radix.base 0 digits = (m.value, []) := by
  rw [text, value]
  have inBase := m.inBase
  cases radix : m.radix with
  | octal =>
      rw [radix] at inBase
      refine ⟨0x30 :: m.digits, ?_, List.cons_ne_nil _ _, ?_⟩
      · change scanBase 0 (0x30 :: m.digits) = _
        refine scanBase_of_plain fun x d t digits => ?_
        rw [List.cons.injEq] at digits
        exact octalDigit_plain x (inBase x (digits.2 ▸ List.mem_cons_self))
      · rw [scanDigits, if_pos (by decide)]
        exact scanDigits_digits _ inBase
  | decimal =>
      rw [radix] at inBase
      obtain ⟨some_digit, first⟩ := m.decimal radix
      refine ⟨m.digits, ?_, some_digit, scanDigits_digits 0 inBase⟩
      have plain : scanBase 0 m.digits = (plainBase 0 m.digits, m.digits) := by
        refine scanBase_of_plain fun x d t digits => ?_
        exact absurd (congrArg List.head? digits) first
      change scanBase 0 m.digits = _
      rw [plain, plainBase, if_neg (by simp), if_neg first]
      rfl
  | hexadecimal =>
      rw [radix] at inBase
      obtain ⟨d, t, digits⟩ := List.exists_cons_of_ne_nil (m.hexadecimal radix)
      refine ⟨m.digits, ?_, m.hexadecimal radix, scanDigits_digits 0 inBase⟩
      have here : digitValue d < 16 := inBase d (by rw [digits]; exact List.mem_cons_self)
      rw [digits]
      change scanBase 0 (0x30 :: 0x78 :: d :: t) = _
      rw [scanBase, if_pos ⟨.inl rfl, rfl, .inl rfl, here⟩]
      rfl

theorem strtoul_text : strtoul 0 m.text =
    (if 2 ^ 64 ≤ m.value then BitVec.allOnes 64 else BitVec.ofNat 64 m.value, []) := by
  obtain ⟨digits, based, some_digit, read⟩ := m.scanBase_text
  have length : 0 ≠ digits.length := (List.length_pos_iff.mpr some_digit).ne
  simp only [strtoul, m.dropWhile_isSpace, m.scanSign_text, based, read, List.length_nil,
    if_neg length, Bool.false_eq_true, if_false]
  split <;> rfl

theorem strtol_text : strtol 0 m.text =
    (if 2 ^ 63 ≤ m.value then BitVec.intMax 64 else BitVec.ofNat 64 m.value, []) := by
  obtain ⟨digits, based, some_digit, read⟩ := m.scanBase_text
  have length : 0 ≠ digits.length := (List.length_pos_iff.mpr some_digit).ne
  simp only [strtol, m.dropWhile_isSpace, m.scanSign_text, based, read, List.length_nil,
    if_neg length, Bool.false_eq_true, if_false]

/-- A numeral compared with a bound. -/
theorem strtoul_text_toNat : (strtoul 0 m.text).1.toNat = min m.value (2 ^ 64 - 1) := by
  rw [m.strtoul_text]
  split
  · rw [BitVec.toNat_allOnes]
    omega
  · rw [BitVec.toNat_ofNat, Nat.mod_eq_of_lt (by omega)]
    omega

end Numeral

end Sdplane
