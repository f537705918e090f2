import Sdplane.Misc.Strtol
import Sdplane.Zcmdsh.VariableMatch

/-!
# Validated words

What a handler may rely on when a word found an address, an address with prefix or a range:
that the matcher took the word, and that `strtol`, with which the handlers read numbers, gives
a number of the range. A word that begins the string of the node needs no matcher, and the
matcher of a range reads numbers with `strtoul`.
-/

namespace Sdplane

variable {φ : Type}

section
variable (libc : Libc)

/-- A range `<lo-hi>`; the string of `double_spec` has the form of one. -/
def IsRange (spec : List Byte) : Prop := rangeSpec libc spec = true ∧ doubleSpec spec = false

/-- A spec whose matcher looks at the word. -/
def ValidatedSpec (spec : List Byte) : Prop :=
  ipv4Spec spec = true ∨ ipv4PrefixSpec spec = true ∨ IsRange libc spec

/-- An integer, written down. -/
def decimal (n : Int) : List Byte := litString (toString n)

/-- What `strtol (word, NULL, 0)` gives is a number of the range; its bounds are read as
    `range_match` reads them. -/
def StrtolInRange (spec word : List Byte) : Prop :=
  if rangeDouble spec then
    libc.strtodLt (decimal (strtol 0 word).1.toInt) (rangeMin spec) = false ∧
      libc.strtodLt (rangeMax spec) (decimal (strtol 0 word).1.toInt) = false
  else
    (strtoul 0 (rangeMin spec)).1.toNat ≤ (strtol 0 word).1.toInt ∧
      (strtol 0 word).1.toInt ≤ (strtoul 0 (rangeMax spec)).1.toNat

/-- The word satisfies the matcher of the spec, and its number is in the range. -/
structure WordValid (spec word : List Byte) : Prop where
  ipv4 : ipv4Spec spec = true → ipv4Match libc word = true
  ipv4Prefix : ipv4PrefixSpec spec = true → ipv4PrefixMatch libc word = true
  range : IsRange libc spec → rangeMatch libc spec word = true ∧ StrtolInRange libc spec word

/-- For a range of integers: the word has no minus sign, or is zero. For one with a decimal
    point: the integer the word begins with is in the range, too. The matcher reads such a word
    with `strtod`, which goes on where `strtol` stops, at the decimal point or an exponent, and
    reads a leading 0 otherwise, so that what it found says nothing about that integer. -/
def NumberKept (spec word : List Byte) : Prop :=
  if rangeDouble spec then StrtolInRange libc spec word
  else hasMinus word = true → (strtoul 0 word).1 = 0

end

variable {libc : Libc}

/-! ## Ranges -/

theorem rangeSpec_spec {spec : List Byte} (range : rangeSpec libc spec = true) :
    spec.head? = some (charByte '<') ∧ charByte '-' ∈ spec ∧
      (rangeMin spec).length ≤ maxRangeSpecStr := by
  rw [rangeSpec] at range
  split at range
  · cases range
  · next opened =>
      split at range
      · cases range
      · next dash =>
          split at range
          · cases range
          · next short => exact ⟨not_not.mp opened, not_not.mp dash, Nat.le_of_not_lt short⟩

/-- The lower bound is no larger than ten digits make it. -/
theorem rangeMin_lt {spec : List Byte} (range : rangeSpec libc spec = true) :
    (strtoul 0 (rangeMin spec)).1.toNat < 2 ^ 40 := by
  have noDash : (0x2D : Byte) ∉ rangeMin spec := fun mem => by
    have := List.mem_takeWhile_imp mem
    revert this
    decide
  have length := (rangeSpec_spec range).2.2
  refine Nat.lt_of_lt_of_le (strtoul_zero_lt (hasMinus_of_not_mem noDash)) ?_
  exact (Nat.pow_le_pow_right (by omega) length).trans (by decide)

/-- The matcher's number is the handler's unless a minus sign makes it negative. -/
theorem strtolInRange_iff {spec word : List Byte} (range : rangeSpec libc spec = true)
    (taken : rangeMatch libc spec word = true) :
    StrtolInRange libc spec word ↔ NumberKept libc spec word := by
  rw [NumberKept]
  by_cases double : rangeDouble spec = true
  · rw [if_pos double]
  · rw [if_neg double, StrtolInRange, if_neg double]
    have small := rangeMin_lt range
    rw [rangeMatch, if_neg double, decide_eq_true_eq, not_or, BitVec.not_lt, BitVec.not_lt,
      BitVec.le_def, BitVec.le_def] at taken
    obtain ⟨-, lo, hi⟩ := taken
    have zero : (strtoul 0 word).1 = 0 ↔ (strtoul 0 word).1.toNat = 0 :=
      ⟨fun h => by rw [h]; rfl, fun h => BitVec.eq_of_toNat_eq h⟩
    cases sign : hasMinus word with
    | false =>
        have value := strtol_of_plus 0 sign
        refine iff_of_true ⟨?_, ?_⟩ (by simp) <;> omega
    | true =>
        obtain ⟨negative, same⟩ := strtol_of_minus 0 sign
        rw [zero, ← same]
        constructor
        · rintro ⟨above, -⟩ _
          omega
        · intro kept
          have value := kept rfl
          have unsigned := same.mp value
          rw [value]
          omega

/-! ## The matchers -/

theorem litString_ne_of_head {spec : List Byte} {s : String}
    (opened : spec.head? = some (charByte '<')) (other : (litString s).head? ≠ some (charByte '<')) :
    spec ≠ litString s := fun same => other (same ▸ opened)

theorem litString_ne_of_dash {spec : List Byte} {s : String} (dash : charByte '-' ∈ spec)
    (other : charByte '-' ∉ litString s) : spec ≠ litString s := fun same => other (same ▸ dash)

/-- A range is none of the other variables. -/
theorem isCommandMatchVariable_range {spec word : List Byte} (range : IsRange libc spec) :
    isCommandMatchVariable libc spec word = rangeMatch libc spec word := by
  obtain ⟨is_, noDouble⟩ := range
  obtain ⟨opened, dash, -⟩ := rangeSpec_spec is_
  have ipv4 : ipv4Spec spec = false :=
    decide_eq_false (litString_ne_of_head opened (by decide))
  have ipv4Prefix : ipv4PrefixSpec spec = false :=
    decide_eq_false (litString_ne_of_head opened (by decide))
  have file : fileSpec spec = false := decide_eq_false (not_or.mpr
    ⟨litString_ne_of_dash dash (by decide), litString_ne_of_dash dash (by decide)⟩)
  have line : lineSpec spec = false := decide_eq_false (litString_ne_of_dash dash (by decide))
  have word_ : wordSpec spec = false := decide_eq_false (litString_ne_of_dash dash (by decide))
  have var : varSpec spec = false := decide_eq_false (litString_ne_of_dash dash (by decide))
  simp [isCommandMatchVariable, is_, noDouble, ipv4, ipv4Prefix, file, line, word_, var]

theorem isCommandMatchVariable_ipv4 (libc : Libc) (word : List Byte) :
    isCommandMatchVariable libc (litString "A.B.C.D") word = ipv4Match libc word := by
  have others : rangeSpec libc (litString "A.B.C.D") = false := rfl
  simp only [isCommandMatchVariable, others]
  cases ipv4Match libc word <;> rfl

theorem isCommandMatchVariable_ipv4Prefix (libc : Libc) (word : List Byte) :
    isCommandMatchVariable libc (litString "A.B.C.D/M") word = ipv4PrefixMatch libc word := by
  have others : rangeSpec libc (litString "A.B.C.D/M") = false := rfl
  simp only [isCommandMatchVariable, others]
  cases ipv4PrefixMatch libc word <;> rfl

/-- A word is valid for a spec when the matcher took it and its number is kept. -/
theorem wordValid_iff {spec word : List Byte} : WordValid libc spec word ↔
    (ValidatedSpec libc spec → isCommandMatchVariable libc spec word = true ∧
      (IsRange libc spec → NumberKept libc spec word)) := by
  by_cases range : IsRange libc spec
  · obtain ⟨opened, -, -⟩ := rangeSpec_spec range.1
    rw [isCommandMatchVariable_range range]
    constructor
    · intro valid _
      obtain ⟨taken, inRange⟩ := valid.range range
      exact ⟨taken, fun _ => (strtolInRange_iff range.1 taken).mp inRange⟩
    · intro valid
      obtain ⟨taken, kept⟩ := valid (.inr (.inr range))
      refine ⟨fun is_ => ?_, fun is_ => ?_, fun _ =>
        ⟨taken, (strtolInRange_iff range.1 taken).mpr (kept range)⟩⟩
      · exact absurd (of_decide_eq_true is_) (litString_ne_of_head opened (by decide))
      · exact absurd (of_decide_eq_true is_) (litString_ne_of_head opened (by decide))
  · by_cases ipv4 : ipv4Spec spec = true
    · obtain rfl : spec = litString "A.B.C.D" := of_decide_eq_true ipv4
      rw [isCommandMatchVariable_ipv4]
      constructor
      · exact fun valid _ => ⟨valid.ipv4 ipv4, fun is_ => absurd is_ range⟩
      · intro valid
        exact ⟨fun _ => (valid (.inl ipv4)).1, (fun is_ => by cases is_),
          fun is_ => absurd is_ range⟩
    · by_cases ipv4Prefix : ipv4PrefixSpec spec = true
      · obtain rfl : spec = litString "A.B.C.D/M" := of_decide_eq_true ipv4Prefix
        rw [isCommandMatchVariable_ipv4Prefix]
        constructor
        · exact fun valid _ => ⟨valid.ipv4Prefix ipv4Prefix, fun is_ => absurd is_ range⟩
        · intro valid
          exact ⟨fun is_ => absurd is_ ipv4, fun _ => (valid (.inr (.inl ipv4Prefix))).1,
            fun is_ => absurd is_ range⟩
      · refine iff_of_true ⟨fun is_ => absurd is_ ipv4, fun is_ => absurd is_ ipv4Prefix,
          fun is_ => absurd is_ range⟩ ?_
        rintro (is_ | is_ | is_)
        · exact absurd is_ ipv4
        · exact absurd is_ ipv4Prefix
        · exact absurd is_ range

/-! ## The child that is found -/

/-- The child found for the word, if any, has a spec the word is valid for. -/
def FindsValid (libc : Libc) (cmdset : CommandSet φ) (parent : Nat) (word : List Byte) : Prop :=
  ∀ node, commandMatchUniqueExact libc cmdset parent word = some node →
    WordValid libc (cmdset.node node).cmdstr word

/-- A child with a spec to be validated does no harm: the word does not find it as the beginning
    of its string; if the word is its string, the matcher takes it; and where the child is the
    best variable match, or the word is its string, the number is kept. -/
structure ChildSafe (libc : Libc) (cmdset : CommandSet φ) (parent : Nat) (word : List Byte)
    (node : Nat) : Prop where
  begun : isCommandMatchRegular (cmdset.node node).cmdstr word = true →
    ¬OnlyRegularMatch libc cmdset parent word
  full : (cmdset.node node).cmdstr = word →
    isCommandMatchVariable libc (cmdset.node node).cmdstr word = true
  number : IsRange libc (cmdset.node node).cmdstr →
    (regularMatches cmdset parent word = [] ∧ bestVariableMatch libc cmdset parent word = some node) ∨
      (cmdset.node node).cmdstr = word → NumberKept libc (cmdset.node node).cmdstr word

/-- What the word finds is valid exactly when no child with a spec to be validated does harm. -/
theorem findsValid_iff (libc : Libc) (cmdset : CommandSet φ) (parent : Nat) (word : List Byte) :
    FindsValid libc cmdset parent word ↔ ∀ node ∈ (cmdset.node parent).cmdvec,
      ValidatedSpec libc (cmdset.node node).cmdstr → ChildSafe libc cmdset parent word node := by
  have found := @commandMatchUniqueExact_eq φ libc cmdset parent word
  constructor
  · intro valid node child spec
    have begun : isCommandMatchRegular (cmdset.node node).cmdstr word = true →
        ¬OnlyRegularMatch libc cmdset parent word := by
      intro begins only
      have mem := mem_regularMatches.mpr ⟨child, begins⟩
      obtain ⟨c, one⟩ := List.length_eq_one_iff.mp only.2
      rw [if_neg (List.ne_nil_of_mem mem), if_pos only, one, List.head?_cons] at found
      rw [one, List.mem_singleton] at mem
      have takes := (wordValid_iff.mp (valid node (found.trans (by rw [mem]))) spec).1
      have mem := mem_variableMatches.mpr ⟨child, takes⟩
      rw [only.1] at mem
      cases mem
    -- a word that is the string of the child finds one with this string
    have full : (cmdset.node node).cmdstr = word →
        WordValid libc (cmdset.node node).cmdstr word := by
      intro same
      have begins : isCommandMatchRegular (cmdset.node node).cmdstr word = true := by
        rw [same]
        exact isCommandMatchRegular_self word
      rw [if_neg (List.ne_nil_of_mem (mem_regularMatches.mpr ⟨child, begins⟩)),
        if_neg (begun begins)] at found
      cases exact_ : commandMatchExact cmdset parent word with
      | none => exact absurd same (commandMatchExact_eq_none.mp exact_ node child)
      | some other =>
          have equal := (mem_of_commandMatchExact exact_).2
          have here := valid other (found.trans exact_)
          rw [equal] at here
          rwa [same]
    refine ⟨begun, fun same => (wordValid_iff.mp (full same) spec).1, fun range => ?_⟩
    rintro (⟨none_, best⟩ | same)
    · rw [if_pos none_] at found
      exact (wordValid_iff.mp (valid node (found.trans best)) spec).2 range
    · exact (wordValid_iff.mp (full same) spec).2 range
  · intro safe node here
    refine wordValid_iff.mpr fun spec => ?_
    obtain ⟨child, -⟩ := match_of_commandMatchUniqueExact here
    obtain ⟨begun, full, number⟩ := safe node child spec
    rw [found] at here
    split at here
    · next none_ =>
        have takes := (mem_variableMatches.mp (foldl_betterMatch here).1).2
        exact ⟨takes, fun range => number range (.inl ⟨none_, here⟩)⟩
    · split at here
      · next only =>
          have begins := (mem_regularMatches.mp (List.mem_of_head? here)).2
          exact absurd only (begun begins)
      · have same := (mem_of_commandMatchExact here).2
        exact ⟨full same, fun range => number range (.inr same)⟩

/-- `sleep_cmd`, installed; the range is a child of node 1. -/
def sleepCommands : CommandSet Unit :=
  (commandInstall2 commandSetCreate quietPlacement (litString "sleep <0-300>")
    (litString "sleep command\nspecify seconds to sleep.\n") ()).toOption.getD commandSetCreate

/-- `sleep <` finds the range, and so does a number that `strtoul` makes 5 of and `strtol` the
    smallest there is. -/
theorem findsValid_not :
    ¬FindsValid quietLibc sleepCommands 1 (litString "<") ∧
      ¬FindsValid quietLibc sleepCommands 1 (litString "-18446744073709551611") := by
  constructor
  · intro valid
    have here := (valid 2 (by decide +kernel)).range ⟨by decide +kernel, by decide +kernel⟩
    revert here
    have taken : rangeMatch quietLibc (sleepCommands.node 2).cmdstr (litString "<") = false := by
      decide +kernel
    simp [taken]
  · intro valid
    have here := (valid 2 (by decide +kernel)).range ⟨by decide +kernel, by decide +kernel⟩
    have above := here.2
    rw [StrtolInRange, if_neg (by decide +kernel)] at above
    revert above
    decide +kernel

end Sdplane
