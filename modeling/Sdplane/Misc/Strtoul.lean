import Sdplane.Misc.ByteMem

/-!
# `strtoul`

`strtoul (s, &endptr, base)` of the C library in the "C" locale, with `unsigned long` of 64
bits. A string is the list of its octets before the terminating NUL.
-/

namespace Sdplane

/-- `isspace`. -/
def isSpace (c : Byte) : Bool := c == 0x20 || (0x09 ≤ c && c ≤ 0x0D)

/-- The value of a digit or letter as a digit of some base. -/
def digitValue (c : Byte) : Nat :=
  if 0x30 ≤ c ∧ c ≤ 0x39 then c.toNat - 0x30
  else if 0x41 ≤ c ∧ c ≤ 0x5A then c.toNat - 0x41 + 10
  else if 0x61 ≤ c ∧ c ≤ 0x7A then c.toNat - 0x61 + 10
  else 36

/-- The longest prefix of digits of the base, as a value, and what follows it. -/
def scanDigits (base : Nat) : Nat → List Byte → Nat × List Byte
  | acc, [] => (acc, [])
  | acc, c :: s =>
      if digitValue c < base then scanDigits base (acc * base + digitValue c) s
      else (acc, c :: s)

/-- An optional sign: whether it is `-`, and what follows it. -/
def scanSign : List Byte → Bool × List Byte
  | [] => (false, [])
  | c :: s => if c = 0x2D then (true, s) else if c = 0x2B then (false, s) else (false, c :: s)

/-- The base of a number without a `0x`. -/
def plainBase (base : Nat) (s : List Byte) : Nat :=
  if base ≠ 0 then base else if s.head? = some 0x30 then 8 else 10

/-- The base the digits are in and the digits, behind a `0x` where the base allows one. A
    `0x` with no digit behind it is the number 0, and `x` is what follows it. -/
def scanBase (base : Nat) (s : List Byte) : Nat × List Byte :=
  match s with
  | z :: x :: d :: t =>
      if (base = 0 ∨ base = 16) ∧ z = 0x30 ∧ (x = 0x78 ∨ x = 0x58) ∧ digitValue d < 16 then
        (16, d :: t)
      else (plainBase base s, s)
  | _ => (plainBase base s, s)

/-- `strtoul`: the value, and what `endptr` points at. A value that does not fit is
    `ULONG_MAX`; a negated one wraps. -/
def strtoul (base : Nat) (s : List Byte) : BitVec 64 × List Byte :=
  let (negative, t) := scanSign (s.dropWhile isSpace)
  let (radix, digits) := scanBase base t
  let (value, rest) := scanDigits radix 0 digits
  if rest.length = digits.length then (0, s)
  else if 2 ^ 64 ≤ value then (BitVec.allOnes 64, rest)
  else (if negative then -BitVec.ofNat 64 value else BitVec.ofNat 64 value, rest)

/-- `strtol`, with the `long` in two's complement. A value that does not fit is `LONG_MAX` or
    `LONG_MIN`. -/
def strtol (base : Nat) (s : List Byte) : BitVec 64 × List Byte :=
  let (negative, t) := scanSign (s.dropWhile isSpace)
  let (radix, digits) := scanBase base t
  let (value, rest) := scanDigits radix 0 digits
  if rest.length = digits.length then (0, s)
  else if negative then (if 2 ^ 63 < value then BitVec.intMin 64 else -BitVec.ofNat 64 value, rest)
  else (if 2 ^ 63 ≤ value then BitVec.intMax 64 else BitVec.ofNat 64 value, rest)

/-- `0x2000`, `010` and `12z` in base 0. -/
example :
    strtoul 0 [0x30, 0x78, 0x32, 0x30, 0x30, 0x30] = (0x2000, []) ∧
    strtoul 0 [0x30, 0x31, 0x30] = (8, []) ∧ strtoul 0 [0x31, 0x32, 0x7A] = (12, [0x7A]) := by
  decide

end Sdplane
