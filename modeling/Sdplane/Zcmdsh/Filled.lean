import Sdplane.Misc.Numeral
import Sdplane.Zcmdsh.Help
import Sdplane.Zcmdsh.ValidatedWord

/-!
# Filled commands

A command as it is typed: its keywords in full, and words in the places of its variable words.
Where a variable word has no siblings, the line calls the function of the command if every
variable word takes what is typed in its place, and nothing otherwise.
-/

namespace Sdplane

variable {φ : Type}

/-- A word of a command, and what is typed for it. -/
structure Piece where
  spec : List Byte
  typed : List Byte

/-- A word in whose place another one is typed. -/
def isSlot (spec : List Byte) : Bool := spec.head? = some (charByte '<')

namespace Piece

def keyword (word : List Byte) : Piece := ⟨word, word⟩

/-- A keyword is typed in full; for a variable word, a word is typed that does not begin it. -/
def Fills (piece : Piece) : Prop :=
  if isSlot piece.spec then
    piece.typed ≠ [] ∧ space ∉ piece.typed ∧ piece.typed.head? ≠ some (charByte '<')
  else piece.typed = piece.spec

/-- The variable word takes what is typed. -/
def Takes (libc : Libc) (piece : Piece) : Prop :=
  isSlot piece.spec = true → isCommandMatchVariable libc piece.spec piece.typed = true

theorem Takes.keyword {libc : Libc} {word : List Byte} (plain : isSlot word = false) :
    (Piece.keyword word).Takes libc := by
  intro slot
  rw [Piece.keyword, plain] at slot
  cases slot

theorem Fills.keyword {word : List Byte} (plain : isSlot word = false) :
    (Piece.keyword word).Fills := by
  rw [Fills, Piece.keyword, plain]
  exact rfl

end Piece

/-- The words of a command behind others: none is for the rest of the line, and variable words have
    no siblings. -/
structure Fillable (child : List (List Byte) → List Byte → Prop) (before path : List (List Byte)) :
    Prop where
  known : ∀ done spec, done ++ [spec] <+: path → child (before ++ done) spec
  single : ∀ spec ∈ path, ¬(lineSpec spec ∨ fileSpec spec)
  alone : ∀ done spec, done ++ [spec] <+: path → isSlot spec = true →
    ∀ other, child (before ++ done) other → other = spec

namespace Fillable

variable {child : List (List Byte) → List Byte → Prop} {before path : List (List Byte)}
  {spec : List Byte}

theorem head (h : Fillable child before (spec :: path)) : child before spec := by
  have here := h.known [] spec (List.prefix_append [spec] path)
  rwa [List.append_nil] at here

theorem head_alone (h : Fillable child before (spec :: path)) (slot : isSlot spec = true)
    (other : List Byte) (there : child before other) : other = spec := by
  refine h.alone [] spec (List.prefix_append [spec] path) slot other ?_
  rwa [List.append_nil]

theorem tail (h : Fillable child before (spec :: path)) :
    Fillable child (before ++ [spec]) path where
  known := by
    intro done next onWay
    have there := h.known (spec :: done) next ((List.prefix_cons_inj spec).mpr onWay)
    rwa [List.append_assoc]
  single := fun next mem => h.single next (List.mem_cons_of_mem spec mem)
  alone := by
    intro done next onWay slot other there
    refine h.alone (spec :: done) next ((List.prefix_cons_inj spec).mpr onWay) slot other ?_
    rwa [List.append_assoc] at there

end Fillable

section
variable {libc : Libc} {Q : CommandSet φ → Prop} {cmdset : CommandSet φ}
  {paths : List (List (List Byte))} {i : Nat} {before : List (List Byte)} {piece : Piece}
  {pieces : List Piece}

variable (libc) in
/-- A variable word without siblings is found by what it takes, and by nothing else. -/
theorem Listed.slot_found (h : Listed Q cmdset paths) (here : PathAt paths i before)
    (child : before ++ [piece.spec] ∈ paths) (slot : isSlot piece.spec = true)
    (alone : ∀ other, before ++ [other] ∈ paths → other = piece.spec) (fills : piece.Fills) :
    if isCommandMatchVariable libc piece.spec piece.typed then
      ∃ node, commandMatchUniqueExact libc cmdset i piece.typed = some node ∧
        PathAt paths node (before ++ [piece.spec])
    else commandMatchUniqueExact libc cmdset i piece.typed = none := by
  have noneBegins : ∀ other, before ++ [other] ∈ paths →
      isCommandMatchRegular other piece.typed = false := by
    intro other there
    rw [alone other there]
    rw [Piece.Fills, if_pos slot] at fills
    refine Bool.eq_false_of_not_eq_true fun begins => ?_
    obtain ⟨c, rest, typed⟩ := List.exists_cons_of_ne_nil fills.1
    obtain ⟨more, full⟩ := List.isPrefixOf_iff_prefix.mp begins
    have opened : piece.spec.head? = some (charByte '<') := of_decide_eq_true slot
    rw [← full, typed] at opened
    exact fills.2.2 (typed ▸ opened)
  split
  · rename_i takes
    have finds : Finds libc (fun x => before ++ [x] ∈ paths) (fun _ => []) piece.typed piece.spec :=
      .ranked child takes noneBegins (fun other there _ => by rw [alone other there])
        fun _ _ _ _ => le_refl _
    obtain ⟨node, found, -⟩ := h.finds_found here finds
    have below := h.found_at here found
    exact ⟨node, found, alone _ below.mem ▸ below⟩
  · rename_i refuses
    cases found : commandMatchUniqueExact libc cmdset i piece.typed with
    | none => rfl
    | some node =>
        obtain ⟨below, takes⟩ := match_of_commandMatchUniqueExact found
        have there : before ++ [(cmdset.node node).cmdstr] ∈ paths := (h.lists.child here below).mem
        rw [isCommandMatch, noneBegins _ there, Bool.or_false, alone _ there] at takes
        exact absurd takes refuses

/-- A piece finds its word, unless the word does not take it. -/
theorem Listed.piece_found (h : Listed Q cmdset paths) (here : PathAt paths i before)
    {path : List (List Byte)}
    (fillable : Fillable (fun ws x => ws ++ [x] ∈ paths) before (piece.spec :: path))
    (fills : piece.Fills) :
    (piece.Takes libc → ∃ node, commandMatchUniqueExact libc cmdset i piece.typed = some node ∧
      PathAt paths node (before ++ [piece.spec])) ∧
    (¬piece.Takes libc → commandMatchUniqueExact libc cmdset i piece.typed = none) := by
  cases slot : isSlot piece.spec with
  | true =>
      have found := h.slot_found libc here fillable.head slot (fillable.head_alone slot) fills
      rw [Piece.Takes, slot]
      split at found
      · rename_i takes
        exact ⟨fun _ => found, fun refuses => absurd (fun _ => takes) refuses⟩
      · rename_i refuses
        exact ⟨fun takes => absurd (takes rfl) refuses, fun _ => found⟩
  | false =>
      rw [Piece.Fills, slot, if_neg Bool.false_ne_true] at fills
      refine ⟨fun _ => ?_, fun refuses => absurd (fun taken => ?_) refuses⟩
      · obtain ⟨child, below, same⟩ := (h.child_iff here).mp fillable.head
        have inside := h.lists.lt_size here
        refine ⟨child, ?_, same ▸ h.lists.child here below⟩
        rw [fills, ← same]
        exact commandMatchUniqueExact_child h.lists.addressed inside below
      · rw [slot] at taken
        cases taken

/-- Pieces that are all taken find their nodes. -/
theorem Listed.resolve_pieces (h : Listed Q cmdset paths) (here : PathAt paths i before)
    (fillable : Fillable (fun ws x => ws ++ [x] ∈ paths) before (pieces.map Piece.spec))
    (fills : ∀ piece ∈ pieces, piece.Fills) (named : ∀ piece ∈ pieces, piece.typed ≠ [])
    (takes : ∀ piece ∈ pieces, piece.Takes libc) (line : List Byte) :
    ∃ nodes, resolve libc cmdset i (pieces.map Piece.typed) = some nodes ∧
      argvOf libc cmdset line nodes (pieces.map Piece.typed) =
        (pieces.map Piece.typed).map some ∧
      PathAt paths (nodes.getLast?.getD i) (before ++ pieces.map Piece.spec) := by
  induction pieces generalizing i before with
  | nil => exact ⟨[], rfl, rfl, by simpa using here⟩
  | cons piece pieces ih =>
      obtain ⟨fill, fills⟩ := List.forall_mem_cons.mp fills
      obtain ⟨some_, named⟩ := List.forall_mem_cons.mp named
      obtain ⟨take, takes⟩ := List.forall_mem_cons.mp takes
      rw [List.map_cons] at fillable
      obtain ⟨node, found, there⟩ := (h.piece_found here fillable fill).1 take
      obtain ⟨nodes, resolved, argv, last⟩ := ih there fillable.tail fills named takes
      have label : (cmdset.node node).cmdstr = piece.spec := by
        have below := h.found_at here found
        exact List.singleton_inj.mp (List.append_cancel_left (below.eq there))
      have single := fillable.single piece.spec List.mem_cons_self
      refine ⟨node :: nodes, ?_, ?_, ?_⟩
      · rw [List.map_cons, resolve, if_neg some_, found]
        dsimp only
        rw [label, if_neg single, resolved]
        rfl
      · rw [List.map_cons, argvOf, label, if_neg single, argv, commandReplace,
          if_neg fun file => single (.inr file)]
        rfl
      · rw [List.getLast?_cons, List.map_cons]
        rw [List.append_assoc] at last
        exact last

/-- Where one is not taken, nothing is found. -/
theorem Listed.matchNodeLoop_pieces (h : Listed Q cmdset paths) (here : PathAt paths i before)
    (fillable : Fillable (fun ws x => ws ++ [x] ∈ paths) before (pieces.map Piece.spec))
    (fills : ∀ piece ∈ pieces, piece.Fills) (named : ∀ piece ∈ pieces, piece.typed ≠ [])
    (refuses : ¬∀ piece ∈ pieces, piece.Takes libc) (pos : Option Nat) :
    matchNodeLoop libc cmdset i pos (pieces.map Piece.typed) = none := by
  induction pieces generalizing i before pos with
  | nil => exact absurd (fun _ none_ => absurd none_ List.not_mem_nil) refuses
  | cons piece pieces ih =>
      obtain ⟨fill, fills⟩ := List.forall_mem_cons.mp fills
      obtain ⟨some_, named⟩ := List.forall_mem_cons.mp named
      rw [List.map_cons] at fillable
      rw [List.map_cons, matchNodeLoop, if_neg some_]
      by_cases take : piece.Takes libc
      · obtain ⟨node, found, there⟩ := (h.piece_found here fillable fill).1 take
        have label : (cmdset.node node).cmdstr = piece.spec := by
          have below := h.found_at here found
          exact List.singleton_inj.mp (List.append_cancel_left (below.eq there))
        rw [found]
        dsimp only
        rw [label, if_neg (fillable.single piece.spec List.mem_cons_self)]
        refine ih there fillable.tail fills named (fun takes => refuses ?_) _
        exact List.forall_mem_cons.mpr ⟨take, takes⟩
      · rw [(h.piece_found here fillable fill).2 take]

end

/-! ## The line -/

/-- The words of the line are those of the command, and what is typed for its variable words. -/
theorem Fillable.typed {child : List (List Byte) → List Byte → Prop} {pieces : List Piece}
    (fillable : Fillable child [] (pieces.map Piece.spec))
    (words : ∀ ws x, child ws x → x ≠ [] ∧ space ∉ x) (fills : ∀ piece ∈ pieces, piece.Fills) :
    ∀ piece ∈ pieces, piece.typed ≠ [] ∧ space ∉ piece.typed := by
  intro piece mem
  have fill := fills piece mem
  rw [Piece.Fills] at fill
  split at fill
  · exact ⟨fill.1, fill.2.1⟩
  · obtain ⟨done, rest, split⟩ := List.append_of_mem mem
    have onWay : done.map Piece.spec ++ [piece.spec] <+: pieces.map Piece.spec := by
      rw [split, List.map_append, List.map_cons]
      exact List.prefix_append_right_inj _ |>.mpr (List.prefix_append [piece.spec] _)
    rw [fill]
    exact words _ _ (fillable.known _ _ onWay)

/-- A filled command calls its function if what is typed for its variable words is taken, and
    nothing otherwise. -/
theorem commandExecute_pieces (libc : Libc) {place : Placement φ} {specs : List (CommandHeader φ)}
    {cmdset : CommandSet φ} (ran : installRun place (specs.map .install2) = .ok cmdset)
    {pieces : List Piece}
    (some_ : pieces ≠ []) (fillable : Fillable (ChildWord specs) [] (pieces.map Piece.spec))
    (fills : ∀ piece ∈ pieces, piece.Fills) :
    ((∀ piece ∈ pieces, piece.Takes libc) →
      commandExecute libc cmdset ([space].intercalate (pieces.map Piece.typed)) =
        (installedFunc specs (pieces.map Piece.spec)).map fun func =>
          (func, (pieces.map Piece.typed).map some)) ∧
    ((¬∀ piece ∈ pieces, piece.Takes libc) →
      commandExecute libc cmdset ([space].intercalate (pieces.map Piece.typed)) = none) := by
  obtain ⟨listed, path, denotes⟩ := install2_run (keeps_true place) trivial ran
  have typed := fillable.typed (fun _ _ => ChildWord.word) fills
  have named : ∀ piece ∈ pieces, piece.typed ≠ [] := fun piece mem => (typed piece mem).1
  rw [childWord_eq] at fillable
  have tokens : strsepTokens commandWordDelimiters
      ([space].intercalate (pieces.map Piece.typed)) = pieces.map Piece.typed := by
    refine strsepTokens_intercalate ?_ (by simpa using some_)
    intro word mem
    obtain ⟨piece, there, rfl⟩ := List.mem_map.mp mem
    exact (typed piece there).2
  have root : PathAt (createdPaths (specs.map .install2)) CommandSet.root [] := listed.lists.root
  constructor
  · intro takes
    obtain ⟨nodes, resolved, argv, last⟩ := listed.resolve_pieces root fillable fills named takes
      ([space].intercalate (pieces.map Piece.typed))
    rw [← tokens] at resolved
    rw [commandExecute_resolve resolved, tokens, argv]
    cases found : nodes.getLast? with
    | none =>
        rw [List.getLast?_eq_none_iff.mp found] at argv
        exact absurd (List.map_eq_nil_iff.mp (List.map_eq_nil_iff.mp argv.symm)) some_
    | some node =>
        rw [found, Option.getD_some, List.nil_append] at last
        rw [Option.bind_some, denotes.func node (listed.lists.lt_size last),
          listed.lists.path_eq denotes.addressed last]
  · intro refuses
    have nothing := commandExecute_func libc cmdset
      ([space].intercalate (pieces.map Piece.typed))
    rw [tokens, listed.matchNodeLoop_pieces root fillable fills named refuses] at nothing
    exact Option.map_eq_none_iff.mp nothing

/-! ## Numbers -/

/-- What a line is made of, but for spaces. -/
def Typable (b : Byte) : Prop :=
  0x20 < b ∧ b ≤ 0x7E ∧ b ≠ charByte '?' ∧ b ≠ charByte '#' ∧ b ≠ charByte '!' ∧ b ≠ charByte '<'

instance : DecidablePred Typable := fun _ => inferInstanceAs (Decidable (_ ∧ _ ∧ _ ∧ _ ∧ _ ∧ _))

theorem typable_digit : ∀ b : Byte, b = 0x78 ∨ digitValue b < 16 → Typable b := by
  decide +kernel

theorem Typable.not_space {b : Byte} (h : Typable b) : b ≠ space := by
  rintro rfl
  exact absurd h.1 (by decide)

theorem Numeral.typable (m : Numeral) : ∀ b ∈ m.text, Typable b :=
  fun b mem => typable_digit b (m.mem_text mem)

/-- A number is typed in the place of a variable word. -/
theorem Numeral.fills (m : Numeral) {spec : List Byte} (slot : isSlot spec = true) :
    Piece.Fills ⟨spec, m.text⟩ := by
  rw [Piece.Fills, if_pos slot]
  refine ⟨m.text_ne_nil, fun mem => (m.typable space mem).not_space rfl, fun opens => ?_⟩
  exact (m.typable _ (List.mem_of_head? opens)).2.2.2.2.2 rfl

/-- A range of integers from 0 up to here. -/
structure UpTo (spec : List Byte) (bound : Nat) : Prop where
  slot : isSlot spec = true
  range : rangeSpec quietLibc spec = true
  integers : rangeDouble spec = false
  double : doubleSpec spec = false
  lo : (strtoul 0 (rangeMin spec)).1.toNat = 0
  hi : (strtoul 0 (rangeMax spec)).1.toNat = bound
  small : bound < 2 ^ 64 - 1

/-- It takes the numbers in it. -/
theorem UpTo.takes_iff {spec : List Byte} {bound : Nat} (h : UpTo spec bound) (libc : Libc)
    (m : Numeral) : Piece.Takes libc ⟨spec, m.text⟩ ↔ m.value ≤ bound := by
  have range : rangeSpec libc spec = true := by
    have same := h.range
    rw [rangeSpec, h.integers] at same ⊢
    exact same
  have value := m.strtoul_text_toNat
  have small := h.small
  rw [Piece.Takes, imp_iff_right h.slot, isCommandMatchVariable_range ⟨range, h.double⟩, rangeMatch,
    h.integers, if_neg Bool.false_ne_true, decide_eq_true_iff, not_or, BitVec.not_lt, BitVec.not_lt,
    BitVec.le_def, BitVec.le_def, h.lo, h.hi, value]
  simp only [m.strtoul_text, Nat.zero_le, true_and]
  omega

end Sdplane
