import Sdplane.Zcmdsh.Abbreviation
import Mathlib.Data.List.MinMax

/-!
# Words for variables

A word finds a variable child of a node by the child's matcher, or because it is the beginning
of some child's string: `command_match_unique` counts both. `commandMatchUniqueExact_eq` says
which child is found in terms of the two kinds of matches.
-/

namespace Sdplane

variable {φ : Type} (libc : Libc) (cmdset : CommandSet φ)

/-- The children whose matcher takes the word. -/
def variableMatches (parent : Nat) (word : List Byte) : List Nat :=
  (cmdset.node parent).cmdvec.filter fun node =>
    isCommandMatchVariable libc (cmdset.node node).cmdstr word

/-- The children whose string begins with the word. -/
def regularMatches (parent : Nat) (word : List Byte) : List Nat :=
  (cmdset.node parent).cmdvec.filter fun node =>
    isCommandMatchRegular (cmdset.node node).cmdstr word

/-- The better of two variable matches; of two alike the earlier one. -/
def betterMatch (best : Option Nat) (node : Nat) : Option Nat :=
  match best with
  | none => some node
  | some best =>
      if varmatchPri libc (cmdset.node best).cmdstr < varmatchPri libc (cmdset.node node).cmdstr then
        some node
      else some best

/-- The first of highest priority among the children whose matcher takes the word. -/
def bestVariableMatch (parent : Nat) (word : List Byte) : Option Nat :=
  (variableMatches libc cmdset parent word).foldl (betterMatch libc cmdset) none

/-- The word matches nothing but the beginning of one child's string. -/
def OnlyRegularMatch (parent : Nat) (word : List Byte) : Prop :=
  variableMatches libc cmdset parent word = [] ∧ (regularMatches cmdset parent word).length = 1

instance (parent : Nat) (word : List Byte) : Decidable (OnlyRegularMatch libc cmdset parent word) :=
  inferInstanceAs (Decidable (_ ∧ _))

variable {libc : Libc} {cmdset : CommandSet φ}

theorem mem_variableMatches {parent node : Nat} {word : List Byte} :
    node ∈ variableMatches libc cmdset parent word ↔ node ∈ (cmdset.node parent).cmdvec ∧
      isCommandMatchVariable libc (cmdset.node node).cmdstr word := List.mem_filter

theorem mem_regularMatches {parent node : Nat} {word : List Byte} :
    node ∈ regularMatches cmdset parent word ↔ node ∈ (cmdset.node parent).cmdvec ∧
      isCommandMatchRegular (cmdset.node node).cmdstr word := List.mem_filter

/-! ## What is found -/

theorem matchRound_varmatch_eq (word : List Byte) (m : MatchCount) (node : Nat) :
    (matchRound libc cmdset word m node).varmatch =
      if isCommandMatchVariable libc (cmdset.node node).cmdstr word then
        betterMatch libc cmdset m.varmatch node
      else m.varmatch := by
  rw [matchRound]
  split <;> split <;> rfl

theorem matchRound_found_eq (word : List Byte) (m : MatchCount) (node : Nat) :
    (matchRound libc cmdset word m node).found =
      if isCommandMatch libc (cmdset.node node).cmdstr word then some node else m.found := by
  rw [matchRound, isCommandMatch]
  cases isCommandMatchVariable libc (cmdset.node node).cmdstr word <;>
    cases isCommandMatchRegular (cmdset.node node).cmdstr word <;> rfl

/-- The loop keeps the first variable match of highest priority. -/
theorem foldl_varmatch (word : List Byte) (nodes : List Nat) :
    (nodes.foldl (matchRound libc cmdset word) ⟨none, none, 0, 0⟩).varmatch =
      (nodes.filter fun node => isCommandMatchVariable libc (cmdset.node node).cmdstr word).foldl
        (betterMatch libc cmdset) none := by
  induction nodes using List.reverseRecOn with
  | nil => rfl
  | append_singleton nodes node ih =>
      rw [List.foldl_append, List.foldl_cons, List.foldl_nil, matchRound_varmatch_eq,
        List.filter_append, List.foldl_append, ih]
      cases takes : isCommandMatchVariable libc (cmdset.node node).cmdstr word with
      | false => simp [takes]
      | true => simp [takes]

variable (libc cmdset) in
theorem foldl_betterMatch_eq (nodes : List Nat) : nodes.foldl (betterMatch libc cmdset) none =
    nodes.foldl (List.argAux fun node best =>
      varmatchPri libc (cmdset.node best).cmdstr < varmatchPri libc (cmdset.node node).cmdstr)
      none := by
  congr 1
  funext best node
  cases best <;> rfl

/-- What is best is a match, and no other has a higher priority. -/
theorem foldl_betterMatch {nodes : List Nat} {best : Nat}
    (h : nodes.foldl (betterMatch libc cmdset) none = some best) :
    best ∈ nodes ∧ ∀ other ∈ nodes,
      varmatchPri libc (cmdset.node other).cmdstr ≤ varmatchPri libc (cmdset.node best).cmdstr := by
  have chosen : best ∈ nodes.argmax fun node => varmatchPri libc (cmdset.node node).cmdstr :=
    (foldl_betterMatch_eq libc cmdset nodes).symm.trans h
  refine ⟨List.argmax_mem chosen, fun other mem => ?_⟩
  have highest := List.le_of_mem_argmax mem chosen
  exact highest

/-- The others of its priority come behind it. -/
theorem foldl_betterMatch_first {R : Nat → Nat → Prop} {nodes : List Nat} {best : Nat}
    (h : nodes.foldl (betterMatch libc cmdset) none = some best) (ordered : nodes.Pairwise R)
    {other : Nat} (mem : other ∈ nodes)
    (highest : varmatchPri libc (cmdset.node best).cmdstr ≤
      varmatchPri libc (cmdset.node other).cmdstr) : other = best ∨ R best other := by
  have member := (foldl_betterMatch h).1
  have chosen : best ∈ nodes.argmax fun node => varmatchPri libc (cmdset.node node).cmdstr :=
    (foldl_betterMatch_eq libc cmdset nodes).symm.trans h
  have before : nodes.idxOf best ≤ nodes.idxOf other := List.index_of_argmax chosen mem highest
  rcases Nat.lt_or_eq_of_le before with less | same
  · right
    have here := List.idxOf_lt_length_of_mem member
    have there := List.idxOf_lt_length_of_mem mem
    have related := List.pairwise_iff_getElem.mp ordered _ _ here there less
    rwa [List.getElem_idxOf, List.getElem_idxOf] at related
  · exact .inl ((List.idxOf_inj mem).mp same.symm)

theorem foldl_betterMatch_eq_none {nodes : List Nat}
    (h : nodes.foldl (betterMatch libc cmdset) none = none) : nodes = [] := by
  induction nodes using List.reverseRecOn with
  | nil => rfl
  | append_singleton nodes node _ =>
      rw [List.foldl_append, List.foldl_cons, List.foldl_nil, betterMatch.eq_def] at h
      split at h
      · cases h
      · split at h <;> cases h

theorem foldl_found_eq_none {word : List Byte} {nodes : List Nat} :
    (nodes.foldl (matchRound libc cmdset word) ⟨none, none, 0, 0⟩).found = none ↔
      ∀ node ∈ nodes, isCommandMatch libc (cmdset.node node).cmdstr word = false := by
  induction nodes using List.reverseRecOn with
  | nil => simp
  | append_singleton nodes node ih =>
      rw [List.foldl_append, List.foldl_cons, List.foldl_nil, matchRound_found_eq]
      cases matches_ : isCommandMatch libc (cmdset.node node).cmdstr word with
      | false => simp [ih, or_imp, forall_and, matches_]
      | true => simp [matches_]

/-- What the loop of `command_match_unique` leaves: what is found is a match, and there is one if
    anything is found. -/
structure MatchLoop (libc : Libc) (cmdset : CommandSet φ) (parent : Nat) (word : List Byte)
    (m : MatchCount) : Prop where
  varmatchCount : m.varmatchCount = (variableMatches libc cmdset parent word).length
  matchCount : m.matchCount = m.varmatchCount + (regularMatches cmdset parent word).length
  varmatch : m.varmatch = bestVariableMatch libc cmdset parent word
  found : ∀ node, m.found = some node →
    node ∈ variableMatches libc cmdset parent word ∨ node ∈ regularMatches cmdset parent word
  nothing : m.found = none →
    variableMatches libc cmdset parent word = [] ∧ regularMatches cmdset parent word = []
  unique : commandMatchUnique libc cmdset parent word = m.found.bind fun node =>
    if m.varmatchCount = m.matchCount then m.varmatch
    else if m.matchCount = 1 then some node
    else none

theorem matchLoop (parent : Nat) (word : List Byte) : MatchLoop libc cmdset parent word
    ((cmdset.node parent).cmdvec.foldl (matchRound libc cmdset word) ⟨none, none, 0, 0⟩) := by
  have counted : Counted libc cmdset word (cmdset.node parent).cmdvec _ := counted_foldl ..
  refine ⟨?_, ?_, foldl_varmatch .., ?_, ?_, ?_⟩
  · rw [counted.varmatchCount, List.countP_eq_length_filter]
    rfl
  · rw [counted.matchCount, List.countP_eq_length_filter]
    rfl
  · intro node found
    obtain ⟨child, isMatch⟩ := counted.found node found
    rcases (Bool.or_eq_true _ _).mp isMatch with takes | begins
    · exact .inl (mem_variableMatches.mpr ⟨child, takes⟩)
    · exact .inr (mem_regularMatches.mpr ⟨child, begins⟩)
  · intro none_
    have nothing := foldl_found_eq_none.mp none_
    refine ⟨List.filter_eq_nil_iff.mpr ?_, List.filter_eq_nil_iff.mpr ?_⟩
    · intro node child takes
      have no_match := nothing node child
      rw [isCommandMatch, takes, Bool.true_or] at no_match
      cases no_match
    · intro node child begins
      have no_match := nothing node child
      rw [isCommandMatch, begins, Bool.or_true] at no_match
      cases no_match
  · rw [commandMatchUnique]
    cases (List.foldl (matchRound libc cmdset word) ⟨none, none, 0, 0⟩
      (cmdset.node parent).cmdvec).found <;> rfl

/-- Where no string begins with the word, the variable matches decide. -/
theorem commandMatchUnique_of_nil {parent : Nat} {word : List Byte}
    (none_ : regularMatches cmdset parent word = []) :
    commandMatchUnique libc cmdset parent word = bestVariableMatch libc cmdset parent word := by
  obtain ⟨m, loop⟩ : ∃ m, MatchLoop libc cmdset parent word m := ⟨_, matchLoop parent word⟩
  rw [loop.unique, ← loop.varmatch]
  cases found : m.found with
  | none =>
      rw [loop.varmatch, bestVariableMatch, (loop.nothing found).1]
      rfl
  | some node =>
      have count := loop.matchCount
      rw [none_, List.length_nil, Nat.add_zero] at count
      exact if_pos count.symm

/-- Where some string begins with the word, it must be the only match. -/
theorem commandMatchUnique_of_ne_nil {parent : Nat} {word : List Byte}
    (some_ : regularMatches cmdset parent word ≠ []) :
    commandMatchUnique libc cmdset parent word =
      if OnlyRegularMatch libc cmdset parent word then (regularMatches cmdset parent word).head?
      else none := by
  obtain ⟨m, loop⟩ : ∃ m, MatchLoop libc cmdset parent word m := ⟨_, matchLoop parent word⟩
  have varCount := loop.varmatchCount
  have count := loop.matchCount
  have positive := List.length_pos_of_ne_nil some_
  have mixed : m.varmatchCount ≠ m.matchCount := by omega
  rw [loop.unique]
  cases found : m.found with
  | none => exact absurd (loop.nothing found).2 some_
  | some node =>
      rw [Option.bind_some, if_neg mixed]
      by_cases only : OnlyRegularMatch libc cmdset parent word
      · have noVariable := only.1
        have single := only.2
        obtain ⟨child, one⟩ := List.length_eq_one_iff.mp single
        have begins : node ∈ regularMatches cmdset parent word := by
          rcases loop.found node found with takes | begins
          · rw [noVariable] at takes
            cases takes
          · exact begins
        rw [one, List.mem_singleton] at begins
        rw [noVariable, List.length_nil] at varCount
        have alone : m.matchCount = 1 := by omega
        rw [if_pos only, if_pos alone, one, begins, List.head?_cons]
      · have more : m.matchCount ≠ 1 := by
          intro single
          exact only ⟨List.eq_nil_of_length_eq_zero (by omega), by omega⟩
        rw [if_neg only, if_neg more]

/-- Where no string begins with the word, none is the word. -/
theorem commandMatchExact_of_nil {parent : Nat} {word : List Byte}
    (none_ : regularMatches cmdset parent word = []) :
    commandMatchExact cmdset parent word = none := by
  refine commandMatchExact_eq_none.mpr fun node child same => ?_
  have mem : node ∈ regularMatches cmdset parent word :=
    mem_regularMatches.mpr ⟨child, by rw [same]; exact isCommandMatchRegular_self word⟩
  rw [none_] at mem
  cases mem

/-- The child that is found: the best variable match where no string begins with the word, the
    only match there is, or the one whose string is the word. -/
theorem commandMatchUniqueExact_eq (parent : Nat) (word : List Byte) :
    commandMatchUniqueExact libc cmdset parent word =
      if regularMatches cmdset parent word = [] then bestVariableMatch libc cmdset parent word
      else if OnlyRegularMatch libc cmdset parent word then
        (regularMatches cmdset parent word).head?
      else commandMatchExact cmdset parent word := by
  rw [commandMatchUniqueExact]
  by_cases none_ : regularMatches cmdset parent word = []
  · rw [if_pos none_, commandMatchUnique_of_nil none_, commandMatchExact_of_nil none_]
    cases bestVariableMatch libc cmdset parent word <;> rfl
  · rw [if_neg none_, commandMatchUnique_of_ne_nil none_]
    by_cases only : OnlyRegularMatch libc cmdset parent word
    · obtain ⟨child, one⟩ := List.length_eq_one_iff.mp only.2
      rw [if_pos only, if_pos only, one]
      rfl
    · rw [if_neg only, if_neg only]

/-! ## Variable slots -/

/-- A child is found: the one whose string is the word, or else one of highest priority among
    those whose matcher takes the word. -/
def SlotTakes (libc : Libc) (cmdset : CommandSet φ) (parent : Nat) (word : List Byte) : Prop :=
  ∃ node ∈ (cmdset.node parent).cmdvec,
    commandMatchUniqueExact libc cmdset parent word = some node ∧
    ((∃ other ∈ (cmdset.node parent).cmdvec, (cmdset.node other).cmdstr = word) →
      (cmdset.node node).cmdstr = word) ∧
    ((∀ other ∈ (cmdset.node parent).cmdvec, (cmdset.node other).cmdstr ≠ word) →
      isCommandMatchVariable libc (cmdset.node node).cmdstr word ∧
        ∀ other ∈ (cmdset.node parent).cmdvec,
          isCommandMatchVariable libc (cmdset.node other).cmdstr word →
            varmatchPri libc (cmdset.node other).cmdstr ≤ varmatchPri libc (cmdset.node node).cmdstr)

/-- A word some child's matcher takes is taken exactly when it begins no child's string, or is
    one. -/
theorem slotTakes_iff {parent : Nat} {word : List Byte}
    (takes : ∃ node ∈ (cmdset.node parent).cmdvec,
      isCommandMatchVariable libc (cmdset.node node).cmdstr word) :
    SlotTakes libc cmdset parent word ↔
      (∀ other ∈ (cmdset.node parent).cmdvec,
        isCommandMatchRegular (cmdset.node other).cmdstr word = false) ∨
        ∃ other ∈ (cmdset.node parent).cmdvec, (cmdset.node other).cmdstr = word := by
  obtain ⟨taking, inside, takes⟩ := takes
  have mem : taking ∈ variableMatches libc cmdset parent word :=
    mem_variableMatches.mpr ⟨inside, takes⟩
  have found := @commandMatchUniqueExact_eq φ libc cmdset parent word
  by_cases none_ : regularMatches cmdset parent word = []
  · have begins : ∀ other ∈ (cmdset.node parent).cmdvec,
        isCommandMatchRegular (cmdset.node other).cmdstr word = false := by
      intro other child
      exact Bool.eq_false_of_not_eq_true (List.filter_eq_nil_iff.mp none_ other child)
    refine iff_of_true ?_ (.inl begins)
    rw [if_pos none_] at found
    cases best : bestVariableMatch libc cmdset parent word with
    | none =>
        rw [foldl_betterMatch_eq_none best] at mem
        cases mem
    | some node =>
        obtain ⟨chosen, highest⟩ := foldl_betterMatch best
        obtain ⟨child, matcher⟩ := mem_variableMatches.mp chosen
        refine ⟨node, child, found.trans best, ?_, ?_⟩
        · rintro ⟨other, there, same⟩
          have := begins other there
          rw [same, isCommandMatchRegular_self] at this
          cases this
        · exact fun _ => ⟨matcher, fun other there takes =>
            highest other (mem_variableMatches.mpr ⟨there, takes⟩)⟩
  · have several : ¬OnlyRegularMatch libc cmdset parent word := by
      rintro ⟨empty, -⟩
      rw [empty] at mem
      cases mem
    rw [if_neg none_, if_neg several] at found
    have someBegins : ¬∀ other ∈ (cmdset.node parent).cmdvec,
        isCommandMatchRegular (cmdset.node other).cmdstr word = false := by
      intro all
      exact none_ (List.filter_eq_nil_iff.mpr fun other child => by simp [all other child])
    rw [or_iff_right someBegins]
    constructor
    · rintro ⟨node, child, here, -, -⟩
      rw [found] at here
      exact ⟨node, mem_of_commandMatchExact here⟩
    · rintro ⟨other, there, same⟩
      cases exact_ : commandMatchExact cmdset parent word with
      | none => exact absurd same (commandMatchExact_eq_none.mp exact_ other there)
      | some node =>
          obtain ⟨child, equal⟩ := mem_of_commandMatchExact exact_
          exact ⟨node, child, found.trans exact_, fun _ => equal,
            fun others => absurd same (others other there)⟩

/-- `set_nettlp_psmem_size`, installed; its words below `psmem-size` are children of node 3. -/
def psmemSizeCommands : CommandSet Unit :=
  (commandInstall2 commandSetCreate quietPlacement
    (litString "set nettlp psmem-size (<WORD>|256M)")
    (litString ("set information\nNetTLP information.\nSet psmem size.\nSpecify memory size.\n" ++
      "Specify memory size as 256MiB.\n")) ()).toOption.getD commandSetCreate

/-- `256M` itself, and a number that begins it not. -/
theorem slotTakes_psmemSize :
    SlotTakes quietLibc psmemSizeCommands 3 (litString "256M") ∧
      SlotTakes quietLibc psmemSizeCommands 3 (litString "0x4000") :=
  ⟨(slotTakes_iff (by decide +kernel)).mpr (.inr (by decide +kernel)),
    (slotTakes_iff (by decide +kernel)).mpr (.inl (by decide +kernel))⟩

/-- 256 octets are no size: the number begins `256M`. -/
theorem slotTakes_not :
    (∃ node ∈ (psmemSizeCommands.node 3).cmdvec,
      isCommandMatchVariable quietLibc (psmemSizeCommands.node node).cmdstr (litString "256")) ∧
    ¬SlotTakes quietLibc psmemSizeCommands 3 (litString "256") := by
  refine ⟨by decide +kernel, ?_⟩
  rintro ⟨node, -, found, -⟩
  revert found
  have nothing : commandMatchUniqueExact quietLibc psmemSizeCommands 3 (litString "256") = none := by
    decide +kernel
  rw [nothing]
  exact Option.some_ne_none node ∘ Eq.symm

end Sdplane
