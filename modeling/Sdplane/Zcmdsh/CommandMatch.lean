import Sdplane.Zcmdsh.Command
import Mathlib.Data.List.Induction

/-!
# The node of a word

Which child `command_match_exact`, `command_match_unique` and `command_match_unique_exact` find.
The string of a node in full finds that node, whatever is beside it: it matches the node as a
prefix, so that not all matches are variable ones.
-/

namespace Sdplane

/-- A word of a specification that stands for others. -/
def isVariableSpec (libc : Libc) (spec : List Byte) : Bool :=
  ipv4Spec spec || ipv4PrefixSpec spec || rangeSpec libc spec || doubleSpec spec ||
    fileSpec spec || lineSpec spec || wordSpec spec || varSpec spec

variable {φ : Type} {libc : Libc} {cmdset : CommandSet φ}

/-- Only words that stand for others have a matcher. -/
theorem isVariableSpec_of_match {spec word : List Byte}
    (takes : isCommandMatchVariable libc spec word) : isVariableSpec libc spec := by
  simp only [isCommandMatchVariable, isVariableSpec, Bool.or_eq_true, Bool.and_eq_true] at takes ⊢
  grind

@[simp] theorem isCommandMatchRegular_self (spec : List Byte) : isCommandMatchRegular spec spec := by
  simp [isCommandMatchRegular]

/-- The empty string matches nothing but itself. -/
theorem eq_nil_of_isCommandMatch {word : List Byte} (h : isCommandMatch libc [] word) :
    word = [] := by
  have variableSpec : isCommandMatchVariable libc [] word = false := by
    simp [isCommandMatchVariable, ipv4Spec, ipv4PrefixSpec, rangeSpec, doubleSpec, fileSpec, lineSpec,
      wordSpec, varSpec, litString]
  rw [isCommandMatch, variableSpec, Bool.false_or] at h
  simpa [isCommandMatchRegular] using h

/-! ## `command_match_exact` -/

theorem commandMatchExact_eq (parent : Nat) (word : List Byte) :
    commandMatchExact cmdset parent word =
      ((cmdset.node parent).cmdvec.filter fun node => (cmdset.node node).cmdstr = word).getLast? := by
  rw [commandMatchExact]
  induction (cmdset.node parent).cmdvec using List.reverseRecOn with
  | nil => rfl
  | append_singleton nodes node ih =>
      rw [List.foldl_append, List.filter_append, List.getLast?_append, ih, List.foldl_cons,
        List.foldl_nil]
      by_cases same : (cmdset.node node).cmdstr = word
      · simp [same]
      · simp [same]

theorem mem_of_commandMatchExact {parent node : Nat} {word : List Byte}
    (h : commandMatchExact cmdset parent word = some node) :
    node ∈ (cmdset.node parent).cmdvec ∧ (cmdset.node node).cmdstr = word := by
  rw [commandMatchExact_eq] at h
  simpa using List.mem_filter.mp (List.mem_of_getLast? h)

theorem commandMatchExact_eq_none {parent : Nat} {word : List Byte} :
    commandMatchExact cmdset parent word = none ↔
      ∀ node ∈ (cmdset.node parent).cmdvec, (cmdset.node node).cmdstr ≠ word := by
  rw [commandMatchExact_eq, List.getLast?_eq_none_iff, List.filter_eq_nil_iff]
  simp

/-! ## `command_match_unique` -/

/-- The automatic variables of `command_match_unique` behind the nodes. -/
structure Counted (libc : Libc) (cmdset : CommandSet φ) (word : List Byte) (nodes : List Nat)
    (m : MatchCount) : Prop where
  varmatchCount : m.varmatchCount =
    nodes.countP fun node => isCommandMatchVariable libc (cmdset.node node).cmdstr word
  matchCount : m.matchCount = m.varmatchCount +
    nodes.countP fun node => isCommandMatchRegular (cmdset.node node).cmdstr word
  found : ∀ node, m.found = some node →
    node ∈ nodes ∧ isCommandMatch libc (cmdset.node node).cmdstr word
  varmatch : ∀ node, m.varmatch = some node →
    node ∈ nodes ∧ isCommandMatchVariable libc (cmdset.node node).cmdstr word

/-- A round keeps the best of the variable matches or takes the node for it. -/
theorem matchRound_varmatch (word : List Byte) (m : MatchCount) (node : Nat) :
    (matchRound libc cmdset word m node).varmatch = m.varmatch ∨
      isCommandMatchVariable libc (cmdset.node node).cmdstr word ∧
        (matchRound libc cmdset word m node).varmatch = some node := by
  cases var : isCommandMatchVariable libc (cmdset.node node).cmdstr word with
  | false =>
      left
      simp only [matchRound, var]
      split <;> rfl
  | true =>
      cases held : m.varmatch with
      | none =>
          refine .inr ⟨rfl, ?_⟩
          simp only [matchRound, var, held]
          split <;> rfl
      | some best =>
          by_cases better : varmatchPri libc (cmdset.node best).cmdstr <
              varmatchPri libc (cmdset.node node).cmdstr
          · refine .inr ⟨rfl, ?_⟩
            simp only [matchRound, var, held, if_pos better]
            split <;> rfl
          · left
            simp only [matchRound, var, held, if_neg better]
            split <;> rfl

theorem Counted.round {word : List Byte} {nodes : List Nat} {m : MatchCount}
    (counted : Counted libc cmdset word nodes m) (node : Nat) :
    Counted libc cmdset word (nodes ++ [node]) (matchRound libc cmdset word m node) := by
  have others := fun other (h : m.found = some other) =>
    (counted.found other h).imp_left fun held => List.mem_append_left [node] held
  have best : ∀ best, (matchRound libc cmdset word m node).varmatch = some best →
      best ∈ nodes ++ [node] ∧ isCommandMatchVariable libc (cmdset.node best).cmdstr word := by
    intro best h
    rcases matchRound_varmatch word m node with kept | ⟨var, taken⟩
    · exact (counted.varmatch best (kept.symm.trans h)).imp_left (List.mem_append_left [node])
    · rcases taken.symm.trans h with ⟨⟩
      exact ⟨List.mem_append_right nodes List.mem_cons_self, var⟩
  have total := counted.matchCount
  have varTotal := counted.varmatchCount
  cases var : isCommandMatchVariable libc (cmdset.node node).cmdstr word <;>
    cases reg : isCommandMatchRegular (cmdset.node node).cmdstr word
  · refine ⟨?_, ?_, ?_, best⟩
    · simp [matchRound, var, reg, varTotal]
    · simp [matchRound, var, reg, total]
    · simpa [matchRound, var, reg] using others
  all_goals
    refine ⟨?_, ?_, ?_, best⟩
    · simp [matchRound, var, reg, varTotal]
    · simp [matchRound, var, reg, total]
      omega
    · simp [matchRound, isCommandMatch, var, reg]

theorem counted_foldl (word : List Byte) (nodes : List Nat) :
    Counted libc cmdset word nodes
      (nodes.foldl (matchRound libc cmdset word) ⟨none, none, 0, 0⟩) := by
  induction nodes using List.reverseRecOn with
  | nil =>
      refine ⟨rfl, rfl, ?_, ?_⟩
      · rintro _ ⟨⟩
      · rintro _ ⟨⟩
  | append_singleton nodes node ih =>
      rw [List.foldl_append]
      exact ih.round node

/-- What is found matches. -/
theorem match_of_commandMatchUnique {parent node : Nat} {word : List Byte}
    (h : commandMatchUnique libc cmdset parent word = some node) :
    node ∈ (cmdset.node parent).cmdvec ∧ isCommandMatch libc (cmdset.node node).cmdstr word := by
  have counted : Counted libc cmdset word (cmdset.node parent).cmdvec _ := counted_foldl word _
  simp only [commandMatchUnique] at h
  split at h
  · cases h
  · rename_i found held
    split at h
    · refine (counted.varmatch node h).imp_right fun var => ?_
      rw [isCommandMatch, var, Bool.true_or]
    · split at h
      · rcases h with ⟨⟩
        exact counted.found node held
      · cases h

/-- A single match is the only one. -/
theorem eq_of_countP_eq_one {nodes : List Nat} {p : Nat → Bool} (single : nodes.countP p = 1)
    {a b : Nat} (ha : a ∈ nodes) (pa : p a) (hb : b ∈ nodes) (pb : p b) : a = b := by
  rw [List.countP_eq_length_filter, List.length_eq_one_iff] at single
  obtain ⟨c, only⟩ := single
  have memA : a ∈ nodes.filter p := List.mem_filter.mpr ⟨ha, pa⟩
  have memB : b ∈ nodes.filter p := List.mem_filter.mpr ⟨hb, pb⟩
  rw [only, List.mem_singleton] at memA memB
  rw [memA, memB]

/-- The string of a node is matched by that node or by too many. -/
theorem commandMatchUnique_cmdstr {parent node : Nat}
    (child : node ∈ (cmdset.node parent).cmdvec) :
    commandMatchUnique libc cmdset parent (cmdset.node node).cmdstr = some node ∨
      commandMatchUnique libc cmdset parent (cmdset.node node).cmdstr = none := by
  have counted : Counted libc cmdset (cmdset.node node).cmdstr (cmdset.node parent).cmdvec _ :=
    counted_foldl _ _
  have regular := isCommandMatchRegular_self (cmdset.node node).cmdstr
  have once : 0 < (cmdset.node parent).cmdvec.countP fun other =>
      isCommandMatchRegular (cmdset.node other).cmdstr (cmdset.node node).cmdstr :=
    List.countP_pos_iff.mpr ⟨node, child, regular⟩
  have total := counted.matchCount
  simp only [commandMatchUnique]
  split
  · exact .inr rfl
  · rename_i found held
    rw [if_neg (by omega)]
    split
    · rename_i single
      left
      -- the only match is a regular one, and `node` is such a match
      obtain ⟨inside, isMatch⟩ := counted.found found held
      have noVariable : (cmdset.node parent).cmdvec.countP (fun other =>
          isCommandMatchVariable libc (cmdset.node other).cmdstr (cmdset.node node).cmdstr) = 0 := by
        rw [← counted.varmatchCount]
        omega
      have foundRegular := ((Bool.or_eq_true _ _).mp isMatch).resolve_left
        (List.countP_eq_zero.mp noVariable found inside)
      have one : (cmdset.node parent).cmdvec.countP (fun other =>
          isCommandMatchRegular (cmdset.node other).cmdstr (cmdset.node node).cmdstr) = 1 := by
        omega
      exact congrArg some (eq_of_countP_eq_one one inside foundRegular child regular)
    · exact .inr rfl

/-! ## `command_match_unique_exact` -/

theorem match_of_commandMatchUniqueExact {parent node : Nat} {word : List Byte}
    (h : commandMatchUniqueExact libc cmdset parent word = some node) :
    node ∈ (cmdset.node parent).cmdvec ∧ isCommandMatch libc (cmdset.node node).cmdstr word := by
  rw [commandMatchUniqueExact] at h
  cases unique : commandMatchUnique libc cmdset parent word with
  | some found =>
      rw [unique] at h
      rcases h with ⟨⟩
      exact match_of_commandMatchUnique unique
  | none =>
      rw [unique] at h
      obtain ⟨inside, rfl⟩ := mem_of_commandMatchExact h
      refine ⟨inside, ?_⟩
      rw [isCommandMatch, isCommandMatchRegular_self, Bool.or_true]

/-- The string of a node finds the node. -/
theorem commandMatchUniqueExact_cmdstr {parent node : Nat}
    (child : node ∈ (cmdset.node parent).cmdvec)
    (only : ∀ other ∈ (cmdset.node parent).cmdvec,
      (cmdset.node other).cmdstr = (cmdset.node node).cmdstr → other = node) :
    commandMatchUniqueExact libc cmdset parent (cmdset.node node).cmdstr = some node := by
  rw [commandMatchUniqueExact]
  rcases commandMatchUnique_cmdstr child with unique | ambiguous
  · rw [unique]
  · rw [ambiguous]
    change commandMatchExact cmdset parent (cmdset.node node).cmdstr = some node
    cases exact : commandMatchExact cmdset parent (cmdset.node node).cmdstr with
    | none => exact absurd rfl (commandMatchExact_eq_none.mp exact node child)
    | some other =>
        obtain ⟨inside, same⟩ := mem_of_commandMatchExact exact
        rw [only other inside same]

end Sdplane
