import Sdplane.Zcmdsh.Abbreviation
import Mathlib.Data.List.Sections
import Mathlib.Data.Multiset.Bind

/-!
# What the command tree denotes

A specification is a sequence of words and of groups `(a|b|…)`, whose alternatives may be empty;
it stands for the sequences of words there are by a choice of alternatives. After any number of
`command_install2` the functions in the tree are those of the last specification that stands for
the words that lead there.
-/

namespace Sdplane

/-! ## Specifications -/

/-- A word that is one word of a specification. -/
structure Plain (word : List Byte) : Prop where
  space : space ∉ word
  begins : charByte '(' ∉ word
  ends : charByte ')' ∉ word
  bar : charByte '|' ∉ word

inductive Level where
  | word (word : List Byte)
  | group (subwords : List (List Byte))

namespace Level

def alternatives : Level → List (List Byte)
  | word w => [w]
  | group subwords => subwords

/-- How a level is written. -/
def render : Level → List Byte
  | word w => w
  | group subwords => charByte '(' :: ([charByte '|'].intercalate subwords ++ [charByte ')'])

end Level

structure CommandSpec where
  levels : List Level
  some_level : levels ≠ []
  some_alternative : ∀ level ∈ levels, level.alternatives ≠ []
  plain : ∀ level ∈ levels, ∀ word ∈ level.alternatives, Plain word

namespace CommandSpec

/-- How a specification is written. -/
def commandLine (spec : CommandSpec) : List Byte := [space].intercalate (spec.levels.map Level.render)

/-- The sequences of words it stands for, with a choice of alternatives for each. -/
def expansions (spec : CommandSpec) : List (List (List Byte)) :=
  (spec.levels.map Level.alternatives).sections.map fun choice => choice.filter (· ≠ [])

end CommandSpec

/-! ## How a specification is read -/

theorem mem_intercalate {d b : Byte} {ws : List (List Byte)} (mem : b ∈ [d].intercalate ws) :
    b = d ∨ ∃ w ∈ ws, b ∈ w := by
  induction ws with
  | nil => exact absurd mem List.not_mem_nil
  | cons w ws ih =>
      cases ws with
      | nil =>
          rw [List.intercalate_singleton] at mem
          exact .inr ⟨w, List.mem_cons_self, mem⟩
      | cons next ws =>
          rw [List.intercalate_cons_cons, List.mem_append, List.mem_append,
            List.mem_singleton] at mem
          rcases mem with (inside | sep) | rest
          · exact .inr ⟨w, List.mem_cons_self, inside⟩
          · exact .inl sep
          · exact (ih rest).imp_right fun ⟨u, hu, inside⟩ => ⟨u, List.mem_cons_of_mem _ hu, inside⟩

/-- A group is read as it was written. -/
theorem subwordsOf_render {level : Level} (someAlternative : level.alternatives ≠ [])
    (plain : ∀ word ∈ level.alternatives, Plain word) :
    subwordsOf level.render = level.alternatives := by
  cases level with
  | word w =>
      have this := plain w List.mem_cons_self
      have all : w.takeWhile (· ≠ charByte ')') = w := by
        rw [List.takeWhile_eq_self_iff]
        intro b hb
        exact decide_eq_true fun same => this.ends (same ▸ hb)
      rw [Level.render, subwordsOf, if_neg this.begins, all, strsepTokens_singleton]
      exact List.splitOn_eq_singleton this.bar
  | group subwords =>
      have closes : charByte ')' ∉ [charByte '|'].intercalate subwords := by
        intro mem
        rcases mem_intercalate mem with bar | ⟨w, hw, inside⟩
        · exact absurd bar (by decide)
        · exact (plain w hw).ends inside
      have inner : ([charByte '|'].intercalate subwords ++ [charByte ')']).takeWhile
          (· ≠ charByte ')') = [charByte '|'].intercalate subwords := by
        rw [List.takeWhile_append_of_pos]
        · simp
        · intro b hb
          exact decide_eq_true fun same => closes (same ▸ hb)
      rw [Level.render, subwordsOf, if_pos List.mem_cons_self, List.dropWhile_cons_of_neg (by simp),
        List.drop_one, List.tail_cons, inner]
      exact strsepTokens_intercalate (fun w hw => (plain w hw).bar) someAlternative

theorem render_space {level : Level} (plain : ∀ word ∈ level.alternatives, Plain word) :
    space ∉ level.render := by
  cases level with
  | word w => exact (plain w List.mem_cons_self).space
  | group subwords =>
      intro mem
      rw [Level.render, List.mem_cons, List.mem_append, List.mem_singleton] at mem
      rcases mem with opens | inside | closes
      · exact absurd opens (by decide)
      · rcases mem_intercalate inside with bar | ⟨w, hw, inside⟩
        · exact absurd bar (by decide)
        · exact (plain w hw).space inside
      · exact absurd closes (by decide)

/-- A specification is read as it was written. -/
theorem CommandSpec.read (spec : CommandSpec) :
    (strsepTokens commandWordDelimiters spec.commandLine).map subwordsOf =
      spec.levels.map Level.alternatives := by
  have words : strsepTokens commandWordDelimiters spec.commandLine = spec.levels.map Level.render := by
    refine strsepTokens_intercalate ?_ ?_
    · intro word mem
      obtain ⟨level, there, rfl⟩ := List.mem_map.mp mem
      exact render_space (spec.plain level there)
    · simpa using spec.some_level
  rw [words, List.map_map]
  exact List.map_congr_left fun level there =>
    subwordsOf_render (spec.some_alternative level there) (spec.plain level there)

/-! ## What it stands for -/

theorem flatMap_map_swap {α β γ : Type} (xs : List α) (ys : List β) (f : α → β → γ) :
    (xs.flatMap fun x => ys.map (f x)).Perm (ys.flatMap fun y => xs.map fun x => f x y) := by
  have swap := Multiset.bind_map_comm (xs : Multiset α) (ys : Multiset β) (f := f)
  simp only [Multiset.map_coe, Multiset.coe_bind] at swap
  exact Multiset.coe_eq_coe.mp swap

/-- The paths that go through all levels are the choices of alternatives. -/
theorem foldl_extendPaths_perm (levels before : List (List (List Byte))) :
    (levels.foldl extendPaths before).Perm
      (before.flatMap fun ws => levels.sections.map fun choice => ws ++ choice.filter (· ≠ [])) := by
  induction levels generalizing before with
  | nil => simp [List.sections]
  | cons subwords levels ih =>
      have here : (extendPaths before subwords).Perm
          (before.flatMap fun ws => subwords.map fun subword => extendPath subword ws) :=
        flatMap_map_swap subwords before extendPath
      refine (ih _).trans ((here.flatMap_right _).trans ?_)
      rw [List.flatMap_assoc]
      refine List.Perm.flatMap_left before fun ws _ => ?_
      rw [List.flatMap_map, List.sections, List.map_flatMap]
      -- the first choice is made last in `sections`
      refine (flatMap_map_swap subwords levels.sections _).trans ?_
      refine List.Perm.flatMap_left levels.sections fun choice _ => ?_
      rw [List.map_map]
      refine .of_eq (List.map_congr_left fun subword _ => ?_)
      by_cases omitted : subword = []
      · simp [extendPath, omitted]
      · simp [extendPath, omitted]

/-- The paths of a specification are its expansions. -/
theorem CommandSpec.specPaths_perm (spec : CommandSpec) :
    (specPaths spec.commandLine).Perm spec.expansions := by
  have paths := foldl_extendPaths_perm (spec.levels.map Level.alternatives) [[]]
  rw [List.flatMap_singleton] at paths
  rw [specPaths, spec.read]
  exact paths

theorem mem_level_of_mem_section {choice : List (List Byte)} {levels : List (List (List Byte))}
    (chosen : List.Forall₂ (· ∈ ·) choice levels) {word : List Byte} (mem : word ∈ choice) :
    ∃ level ∈ levels, word ∈ level := by
  induction chosen with
  | nil => exact absurd mem List.not_mem_nil
  | cons here _ ih =>
      rcases List.mem_cons.mp mem with rfl | mem
      · exact ⟨_, List.mem_cons_self, here⟩
      · obtain ⟨level, there, inside⟩ := ih mem
        exact ⟨level, List.mem_cons_of_mem _ there, inside⟩

/-- The words a specification stands for are words. -/
theorem CommandSpec.expansions_words (spec : CommandSpec) {ws : List (List Byte)}
    (mem : ws ∈ spec.expansions) {word : List Byte} (inside : word ∈ ws) :
    word ≠ [] ∧ Plain word := by
  obtain ⟨choice, chosen, rfl⟩ := List.mem_map.mp mem
  obtain ⟨picked, named⟩ := List.mem_filter.mp inside
  obtain ⟨_, alternatives, here⟩ := mem_level_of_mem_section (List.mem_sections.mp chosen) picked
  obtain ⟨level, there, rfl⟩ := List.mem_map.mp alternatives
  exact ⟨of_decide_eq_true named, spec.plain level there word here⟩

/-! ## Any number of `command_install2` -/

/-- A call of `command_install2`. -/
structure Install (φ : Type) where
  spec : CommandSpec
  helpString : List Byte
  func : φ

variable {φ : Type}

def Install.run (place : Placement φ) (cmdset : CommandSet φ) (call : Install φ) :
    Except Stop (CommandSet φ) :=
  commandInstall2 cmdset place call.spec.commandLine call.helpString call.func

/-- The calls one after another, from an empty command set. -/
def installAll (place : Placement φ) (installs : List (Install φ)) : Except Stop (CommandSet φ) :=
  installs.foldlM (Install.run place) commandSetCreate

/-- The function of the last specification that stands for the words. -/
def lastInstalled (installs : List (Install φ)) (ws : List (List Byte)) : Option φ :=
  (installs.reverse.find? fun call => call.spec.expansions.contains ws).map Install.func

/-- A call puts its function at its expansions. -/
theorem lastInstalled_append (installs : List (Install φ)) (call : Install φ) :
    lastInstalled (installs ++ [call]) =
      installed (lastInstalled installs) (specPaths call.spec.commandLine) call.func := by
  funext ws
  rw [lastInstalled, installed, List.reverse_append, List.reverse_singleton, List.singleton_append,
    List.find?_cons]
  by_cases mem : ws ∈ call.spec.expansions
  · rw [List.contains_iff_mem.mpr mem, if_pos (call.spec.specPaths_perm.mem_iff.mpr mem)]
    rfl
  · rw [Bool.eq_false_of_not_eq_true fun held => mem (List.contains_iff_mem.mp held),
      if_neg fun there => mem (call.spec.specPaths_perm.mem_iff.mp there)]
    rfl

/-- After the calls the tree denotes what was installed last. -/
theorem installAll_denotes (place : Placement φ) (installs : List (Install φ))
    (nodup : ∀ call ∈ installs, call.spec.expansions.Nodup) :
    ∃ cmdset path, installAll place installs = .ok cmdset ∧
      Denotes cmdset path (lastInstalled installs) := by
  induction installs using List.reverseRecOn with
  | nil => exact ⟨_, _, rfl, Denotes.create⟩
  | append_singleton installs call ih =>
      obtain ⟨cmdset, path, before, h⟩ :=
        ih fun other there => nodup other (List.mem_append_left _ there)
      have differ : (specPaths call.spec.commandLine).Nodup := call.spec.specPaths_perm.nodup_iff.mpr
        (nodup call (List.mem_append_right _ List.mem_cons_self))
      obtain ⟨cmdset', ran⟩ := h.install2_ok place differ call.helpString call.func
      obtain ⟨path', h'⟩ := h.install2 place ran
      refine ⟨cmdset', path', ?_, ?_⟩
      · rw [installAll] at before ⊢
        rw [List.foldlM_append, before]
        change List.foldlM (Install.run place) cmdset [call] = .ok cmdset'
        rw [List.foldlM_cons, Install.run, ran]
        rfl
      · rw [lastInstalled_append]
        exact h'

/-! ## Executing an expansion -/

/-- Keywords in full find the nodes of the walk along them. -/
theorem resolve_walk {libc : Libc} {cmdset : CommandSet φ} {path : Nat → List (List Byte)}
    (h : cmdset.tree.Addressed path) (line : List Byte) {i k : Nat} {ws : List (List Byte)}
    (walk : cmdset.tree.Walk i ws k) (inside : i < cmdset.size)
    (keyword : ∀ word ∈ ws, word ≠ [] ∧ isVariableSpec libc word = false) :
    ∃ nodes, resolve libc cmdset i ws = some nodes ∧
      argvOf libc cmdset line nodes ws = ws.map some ∧ nodes.getLast?.getD i = k := by
  induction walk with
  | nil i => exact ⟨[], rfl, rfl, rfl⟩
  | cons child rest ih =>
      rename_i i j k ws
      obtain ⟨⟨named, plain⟩, others⟩ := List.forall_mem_cons.mp keyword
      obtain ⟨nodes, resolved, argv, last⟩ := ih (h.child i inside j child).1 others
      change (cmdset.node j).cmdstr ≠ [] at named
      change isVariableSpec libc (cmdset.node j).cmdstr = false at plain
      have ends : ¬ (lineSpec (cmdset.node j).cmdstr ∨ fileSpec (cmdset.node j).cmdstr) := by
        intro last
        exact Bool.false_ne_true (plain.symm.trans (isVariableSpec_of_last last))
      refine ⟨j :: nodes, ?_, ?_, ?_⟩
      · change resolve libc cmdset i ((cmdset.node j).cmdstr :: ws) = some (j :: nodes)
        rw [resolve, if_neg named, commandMatchUniqueExact_child h inside child]
        simp only [if_neg ends, resolved]
        rfl
      · change argvOf libc cmdset line (j :: nodes) ((cmdset.node j).cmdstr :: ws) =
          some (cmdset.node j).cmdstr :: ws.map some
        rw [argvOf, if_neg ends, argv, commandReplace, if_neg fun file => ends (.inr file)]
      · rw [List.getLast?_cons]
        exact last

/-- The words of an expansion call the function that was installed for it. -/
theorem commandExecute_expansion {libc : Libc} {cmdset : CommandSet φ}
    {path : Nat → List (List Byte)} {table : List (List Byte) → Option φ}
    (h : Denotes cmdset path table) {ws : List (List Byte)} {func : φ} (entry : table ws = some func)
    (some_word : ws ≠ []) (words : ∀ word ∈ ws, word ≠ [] ∧ Plain word)
    (keyword : ∀ word ∈ ws, isVariableSpec libc word = false) :
    commandExecute libc cmdset ([space].intercalate ws) = some (func, ws.map some) := by
  obtain ⟨node, inside, rfl⟩ := h.present ws (by simp [entry])
  obtain ⟨nodes, resolved, argv, last⟩ := resolve_walk h.addressed
    ([space].intercalate (path node)) (h.addressed.walk_path inside) h.addressed.nonempty
    fun word mem => ⟨(words word mem).1, keyword word mem⟩
  have tokens : strsepTokens commandWordDelimiters ([space].intercalate (path node)) = path node :=
    strsepTokens_intercalate (fun word mem => (words word mem).2.space) some_word
  rw [← tokens] at resolved
  rw [commandExecute_resolve resolved, tokens, argv]
  cases found : nodes.getLast? with
  | none =>
      rw [List.getLast?_eq_none_iff.mp found] at argv
      exact absurd (List.map_eq_nil_iff.mp argv.symm) some_word
  | some other =>
      obtain rfl : other = node := by rwa [found] at last
      rw [Option.bind_some, h.func other inside, entry]
      rfl

/-- The command tree denotes the specifications that were installed: the functions in it are
    those of the last specification for the words that lead there, and the words call them. -/
theorem commandTree_denotes (libc : Libc) (place : Placement φ) (installs : List (Install φ))
    (nodup : ∀ call ∈ installs, call.spec.expansions.Nodup) :
    ∃ cmdset, installAll place installs = .ok cmdset ∧
      (∀ ws func, (∃ node, cmdset.tree.Walk CommandSet.root ws node ∧
          (cmdset.node node).func = some func) ↔ lastInstalled installs ws = some func) ∧
      ∀ ws func, ws ≠ [] → (∀ word ∈ ws, isVariableSpec libc word = false) →
        lastInstalled installs ws = some func →
        commandExecute libc cmdset ([space].intercalate ws) = some (func, ws.map some) := by
  obtain ⟨cmdset, path, ran, h⟩ := installAll_denotes place installs nodup
  refine ⟨cmdset, ran, ?_, ?_⟩
  · intro ws func
    constructor
    · rintro ⟨node, walk, here⟩
      obtain ⟨inside, rfl⟩ := h.addressed.walk_iff.mp walk
      rw [← h.func node inside, here]
    · intro entry
      obtain ⟨node, inside, rfl⟩ := h.present ws (by simp [entry])
      exact ⟨node, h.addressed.walk_path inside, (h.func node inside).trans entry⟩
  · intro ws func some_word keyword entry
    refine commandExecute_expansion h entry some_word ?_ keyword
    obtain ⟨call, last, -⟩ := Option.map_eq_some_iff.mp entry
    have mem : ws ∈ call.spec.expansions := by simpa using List.find?_some last
    exact fun word inside => call.spec.expansions_words mem inside

theorem omittable_plain : ∀ level ∈ [Level.group [[], litString "all"]],
    ∀ word ∈ level.alternatives, Plain word := by
  intro level mem word inside
  rw [List.mem_singleton.mp mem] at inside
  rcases List.mem_cons.mp inside with rfl | inside
  · exact ⟨by decide, by decide, by decide, by decide⟩
  · rw [List.mem_singleton.mp inside]
    exact ⟨by decide, by decide, by decide, by decide⟩

theorem omittable_alternative : ∀ level ∈ [Level.group [[], litString "all"]],
    level.alternatives ≠ [] := by
  intro level mem
  rw [List.mem_singleton.mp mem]
  exact List.cons_ne_nil _ _

/-- `(|all)`. -/
def omittable : CommandSpec where
  levels := [.group [[], litString "all"]]
  some_level := List.cons_ne_nil _ _
  some_alternative := omittable_alternative
  plain := omittable_plain

/-- `(|all)` stands for no word too, and no word calls nothing. -/
theorem commandTree_denotes_not :
    ∃ cmdset : CommandSet Nat, installAll quietPlacement [⟨omittable, [], 1⟩] = .ok cmdset ∧
      omittable.expansions.Nodup ∧ lastInstalled [⟨omittable, [], 1⟩] [] = some 1 ∧
      commandExecute quietLibc cmdset ([space].intercalate []) = none := by
  have nodup : omittable.expansions.Nodup := by decide
  obtain ⟨cmdset, _, ran, _⟩ := installAll_denotes quietPlacement [⟨omittable, [], 1⟩]
    fun call there => by rwa [List.mem_singleton.mp there]
  exact ⟨cmdset, ran, nodup, by decide, rfl⟩

theorem commandTree_denotes_omittable :
    ∃ cmdset : CommandSet Nat,
      installAll quietPlacement [⟨omittable, [], 1⟩, ⟨omittable, [], 2⟩] = .ok cmdset ∧
      (∀ ws func, (∃ node, cmdset.tree.Walk CommandSet.root ws node ∧
          (cmdset.node node).func = some func) ↔
        lastInstalled [⟨omittable, [], 1⟩, ⟨omittable, [], 2⟩] ws = some func) ∧
      ∀ ws func, ws ≠ [] → (∀ word ∈ ws, isVariableSpec quietLibc word = false) →
        lastInstalled [⟨omittable, [], 1⟩, ⟨omittable, [], 2⟩] ws = some func →
        commandExecute quietLibc cmdset ([space].intercalate ws) = some (func, ws.map some) :=
  commandTree_denotes quietLibc quietPlacement [⟨omittable, [], 1⟩, ⟨omittable, [], 2⟩]
    (List.forall_mem_cons.mpr ⟨by decide, List.forall_mem_singleton.mpr (by decide)⟩)

end Sdplane
