import Sdplane.Zcmdsh.CommandTree

/-!
# Abbreviated words

A word of a command line finds its node by any unique beginning of the node's string, and the
handler is given the word as it was typed. `resolve` is the way a line takes through the tree;
`expandLine` writes the keywords on it in full.
-/

namespace Sdplane

variable {φ : Type}

section
variable (libc : Libc) (cmdset : CommandSet φ)

/-- The nodes the words find below `parent`, if each of them finds one. An empty word and a
    `<LINE>` or file end the command. -/
def resolve : Nat → List (List Byte) → Option (List Nat)
  | _, [] => some []
  | parent, word :: words =>
      if word = [] then some [] else
        match commandMatchUniqueExact libc cmdset parent word with
        | none => none
        | some node =>
            if lineSpec (cmdset.node node).cmdstr ∨ fileSpec (cmdset.node node).cmdstr then some [node]
            else (resolve node words).map (node :: ·)

/-- The words, with the string of its node for each that found a keyword. -/
def expandWords : List Nat → List (List Byte) → List (List Byte)
  | node :: nodes, word :: words =>
      (if isVariableSpec libc (cmdset.node node).cmdstr then word else (cmdset.node node).cmdstr) ::
        expandWords nodes words
  | _, words => words

/-- The line of those words. -/
def expandLine (nodes : List Nat) (line : List Byte) : List Byte :=
  [space].intercalate (expandWords libc cmdset nodes (strsepTokens commandWordDelimiters line))

/-- The `argv` of words that found their nodes. -/
def argvOf (line : List Byte) : List Nat → List (List Byte) → List (Option (List Byte))
  | node :: nodes, word :: words =>
      (if lineSpec (cmdset.node node).cmdstr ∨ fileSpec (cmdset.node node).cmdstr then
          strstr word line
        else some (commandReplace libc (cmdset.node node).cmdstr word)) :: argvOf line nodes words
  | _, _ => []

/-- Each word that found a keyword is that keyword in full. -/
def Unabbreviated (nodes : List Nat) (words : List (List Byte)) : Prop :=
  ∀ p ∈ nodes.zip words, isVariableSpec libc (cmdset.node p.1).cmdstr = false →
    p.2 = (cmdset.node p.1).cmdstr

end

variable {libc : Libc} {cmdset : CommandSet φ}

@[simp] theorem expandWords_nil (words : List (List Byte)) :
    expandWords libc cmdset [] words = words := by
  cases words <;> rfl

/-- A `<LINE>` or a file is no keyword. -/
theorem isVariableSpec_of_last {spec : List Byte} (last : lineSpec spec ∨ fileSpec spec) :
    isVariableSpec libc spec := by
  rcases last with line | file
  · simp [isVariableSpec, line]
  · simp [isVariableSpec, file]

/-- The loop of `command_execute` takes the way the words take. -/
theorem executeLoop_resolve (line : List Byte) {parent : Nat} {words : List (List Byte)}
    {nodes : List Nat} (resolved : resolve libc cmdset parent words = some nodes)
    (argv : List (Option (List Byte))) (found : Option Nat) :
    executeLoop libc cmdset line parent argv found words =
      (argv ++ argvOf libc cmdset line nodes words, nodes.getLast?.or found) := by
  induction words generalizing parent nodes argv found with
  | nil =>
      rcases resolved with ⟨⟩
      simp [executeLoop, argvOf]
  | cons word words ih =>
      rw [resolve] at resolved
      rw [executeLoop]
      split at resolved
      · rename_i empty
        rcases resolved with ⟨⟩
        simp [empty, argvOf]
      · rename_i typed
        rw [if_neg typed]
        cases unique : commandMatchUniqueExact libc cmdset parent word with
        | none =>
            rw [unique] at resolved
            cases resolved
        | some node =>
            simp only [unique] at resolved ⊢
            split at resolved
            · rename_i last
              rcases resolved with ⟨⟩
              simp [last, argvOf]
            · rename_i more
              obtain ⟨nodes, rest, rfl⟩ := Option.map_eq_some_iff.mp resolved
              rw [if_neg more, ih rest, argvOf, if_neg more, List.append_assoc,
                List.singleton_append]
              cases nodes with
              | nil => rfl
              | cons next nodes =>
                  rw [List.getLast?_cons_cons, List.getLast?_cons]
                  rfl

/-- What `command_execute` does with a line whose words find their nodes. -/
theorem commandExecute_resolve {line : List Byte} {nodes : List Nat}
    (resolved : resolve libc cmdset CommandSet.root
      (strsepTokens commandWordDelimiters line) = some nodes) :
    commandExecute libc cmdset line =
      (nodes.getLast?.bind fun node => (cmdset.node node).func).map fun func =>
        (func, argvOf libc cmdset line nodes (strsepTokens commandWordDelimiters line)) := by
  rw [commandExecute, executeLoop_resolve line resolved]
  cases nodes.getLast? <;> rfl

section
variable {path : Nat → List (List Byte)} (h : cmdset.tree.Addressed path)
include h

/-- The string of a child in full finds the child. -/
theorem commandMatchUniqueExact_child {parent node : Nat} (inside : parent < cmdset.size)
    (child : node ∈ (cmdset.node parent).cmdvec) :
    commandMatchUniqueExact libc cmdset parent (cmdset.node node).cmdstr = some node :=
  commandMatchUniqueExact_cmdstr child fun _ other same => h.siblings inside other child same

/-- In full the words find the same nodes. -/
theorem resolve_expandWords {parent : Nat} (inside : parent < cmdset.size)
    {words : List (List Byte)} {nodes : List Nat}
    (resolved : resolve libc cmdset parent words = some nodes) :
    resolve libc cmdset parent (expandWords libc cmdset nodes words) = some nodes := by
  induction words generalizing parent nodes with
  | nil =>
      rcases resolved with ⟨⟩
      rfl
  | cons word words ih =>
      have before := resolved
      rw [resolve] at resolved
      split at resolved
      · rcases resolved with ⟨⟩
        exact before
      · rename_i typed
        cases unique : commandMatchUniqueExact libc cmdset parent word with
        | none =>
            rw [unique] at resolved
            cases resolved
        | some node =>
            simp only [unique] at resolved
            obtain ⟨child, isMatch⟩ := match_of_commandMatchUniqueExact unique
            have named : (cmdset.node node).cmdstr ≠ [] := by
              intro empty
              rw [empty] at isMatch
              exact typed (eq_nil_of_isCommandMatch isMatch)
            split at resolved
            · rename_i last
              rcases resolved with ⟨⟩
              rw [expandWords, isVariableSpec_of_last last, if_pos rfl, expandWords_nil]
              exact before
            · rename_i more
              obtain ⟨nodes, rest, rfl⟩ := Option.map_eq_some_iff.mp resolved
              have found : commandMatchUniqueExact libc cmdset parent
                  (if isVariableSpec libc (cmdset.node node).cmdstr then word
                    else (cmdset.node node).cmdstr) = some node := by
                split
                · exact unique
                · exact commandMatchUniqueExact_child h inside child
              have next := ih (h.child parent inside node child).1 rest
              rw [expandWords, resolve, if_neg (by split <;> assumption), found]
              simp only [if_neg more, next]
              rfl

theorem resolve_inside {parent : Nat} (inside : parent < cmdset.size) {words : List (List Byte)}
    {nodes : List Nat} (resolved : resolve libc cmdset parent words = some nodes) :
    ∀ node ∈ nodes, node < cmdset.size := by
  induction words generalizing parent nodes with
  | nil =>
      rcases resolved with ⟨⟩
      exact fun _ mem => absurd mem List.not_mem_nil
  | cons word words ih =>
      rw [resolve] at resolved
      split at resolved
      · rcases resolved with ⟨⟩
        exact fun _ mem => absurd mem List.not_mem_nil
      · cases unique : commandMatchUniqueExact libc cmdset parent word with
        | none =>
            rw [unique] at resolved
            cases resolved
        | some node =>
            simp only [unique] at resolved
            have here := (h.child parent inside node (match_of_commandMatchUniqueExact unique).1).1
            split at resolved
            · rcases resolved with ⟨⟩
              intro other mem
              exact (List.mem_singleton.mp mem) ▸ here
            · obtain ⟨nodes, rest, rfl⟩ := Option.map_eq_some_iff.mp resolved
              exact List.forall_mem_cons.mpr ⟨here, ih here rest⟩

end

theorem mem_expandWords {nodes : List Nat} {words : List (List Byte)} {word : List Byte}
    (mem : word ∈ expandWords libc cmdset nodes words) :
    word ∈ words ∨ ∃ node ∈ nodes, word = (cmdset.node node).cmdstr := by
  induction nodes generalizing words with
  | nil =>
      rw [expandWords_nil] at mem
      exact .inl mem
  | cons node nodes ih =>
      cases words with
      | nil => exact .inl mem
      | cons first words =>
          rw [expandWords] at mem
          rcases List.mem_cons.mp mem with rfl | mem
          · split
            · exact .inl List.mem_cons_self
            · exact .inr ⟨node, List.mem_cons_self, rfl⟩
          · rcases ih mem with before | ⟨other, there, rfl⟩
            · exact .inl (List.mem_cons_of_mem _ before)
            · exact .inr ⟨other, List.mem_cons_of_mem _ there, rfl⟩

theorem expandWords_ne_nil (nodes : List Nat) {words : List (List Byte)} (typed : words ≠ []) :
    expandWords libc cmdset nodes words ≠ [] := by
  cases nodes with
  | nil => simpa using typed
  | cons node nodes =>
      cases words with
      | nil => exact typed
      | cons word words => exact List.cons_ne_nil _ _

/-- Nothing changes where nothing is abbreviated. -/
theorem expandWords_of_unabbreviated {nodes : List Nat} {words : List (List Byte)}
    (full : Unabbreviated libc cmdset nodes words) : expandWords libc cmdset nodes words = words := by
  induction nodes generalizing words with
  | nil => exact expandWords_nil words
  | cons node nodes ih =>
      cases words with
      | nil => rfl
      | cons word words =>
          obtain ⟨here, rest⟩ := List.forall_mem_cons.mp full
          rw [expandWords, ih rest]
          split
          · rfl
          · rename_i keyword
            exact congrArg (· :: words) (here (Bool.eq_false_of_not_eq_true keyword)).symm

/-- The handler sees each abbreviation. -/
theorem unabbreviated_of_argvOf {line line' : List Byte} {nodes : List Nat}
    {words : List (List Byte)}
    (same : argvOf libc cmdset line' nodes (expandWords libc cmdset nodes words) =
      argvOf libc cmdset line nodes words) : Unabbreviated libc cmdset nodes words := by
  induction nodes generalizing words with
  | nil => exact fun p mem => absurd mem List.not_mem_nil
  | cons node nodes ih =>
      cases words with
      | nil => exact fun p mem => absurd mem List.not_mem_nil
      | cons word words =>
          rw [expandWords, argvOf, argvOf] at same
          obtain ⟨here, rest⟩ := List.cons_eq_cons.mp same
          refine List.forall_mem_cons.mpr ⟨?_, ih rest⟩
          intro keyword
          have ends : ¬ (lineSpec (cmdset.node node).cmdstr ∨ fileSpec (cmdset.node node).cmdstr) := by
            intro last
            exact Bool.false_ne_true (keyword.symm.trans (isVariableSpec_of_last last))
          have noFile : ¬ fileSpec (cmdset.node node).cmdstr := fun file => ends (.inr file)
          rw [keyword, if_neg ends, if_neg ends, commandReplace, commandReplace, if_neg noFile,
            if_neg noFile] at here
          exact (Option.some.inj here).symm

/-- The expanded line takes the way of the line. -/
theorem resolve_expandLine {place : Placement φ} (built : Built place cmdset) {line : List Byte}
    {nodes : List Nat}
    (resolved : resolve libc cmdset CommandSet.root
      (strsepTokens commandWordDelimiters line) = some nodes) :
    strsepTokens commandWordDelimiters (expandLine libc cmdset nodes line) =
        expandWords libc cmdset nodes (strsepTokens commandWordDelimiters line) ∧
      resolve libc cmdset CommandSet.root
        (strsepTokens commandWordDelimiters (expandLine libc cmdset nodes line)) = some nodes := by
  obtain ⟨path, table, h⟩ := built.denotes
  have inside : CommandSet.root < cmdset.size := h.addressed.nonempty
  have whole : ∀ word ∈ expandWords libc cmdset nodes (strsepTokens commandWordDelimiters line),
      space ∉ word := by
    intro word mem
    rcases mem_expandWords mem with typed | ⟨node, there, rfl⟩
    · exact Denotes.words_whole line word typed
    · exact h.whole node (resolve_inside h.addressed inside resolved node there)
  have words : strsepTokens commandWordDelimiters (expandLine libc cmdset nodes line) =
      expandWords libc cmdset nodes (strsepTokens commandWordDelimiters line) :=
    strsepTokens_intercalate whole (expandWords_ne_nil nodes (strsepTokens_ne_nil _ line))
  refine ⟨words, ?_⟩
  rw [words]
  exact resolve_expandWords h.addressed inside resolved

/-- The handler is given the same `argv` for a line and its expansion just when there is none to
    be called or no keyword was abbreviated. -/
theorem abbreviation_transparent {place : Placement φ} (built : Built place cmdset)
    {line : List Byte} {nodes : List Nat}
    (resolved : resolve libc cmdset CommandSet.root
      (strsepTokens commandWordDelimiters line) = some nodes) :
    commandExecute libc cmdset (expandLine libc cmdset nodes line) =
        commandExecute libc cmdset line ↔
      (∀ node ∈ nodes.getLast?, (cmdset.node node).func = none) ∨
        Unabbreviated libc cmdset nodes (strsepTokens commandWordDelimiters line) := by
  obtain ⟨words, again⟩ := resolve_expandLine built resolved
  constructor
  · intro same
    rw [commandExecute_resolve resolved, commandExecute_resolve again, words] at same
    cases called : nodes.getLast?.bind fun node => (cmdset.node node).func with
    | none => exact .inl (Option.bind_eq_none_iff.mp called)
    | some func =>
        rw [called] at same
        have argv := congrArg Prod.snd (Option.some.inj same)
        exact .inr (unabbreviated_of_argvOf argv)
  · rintro (idle | full)
    · rw [commandExecute_resolve resolved, commandExecute_resolve again,
        Option.bind_eq_none_iff.mpr idle]
      rfl
    · rw [expandLine, expandWords_of_unabbreviated full, commandWordDelimiters,
        intercalate_strsepTokens]

/-! ## A handler

`set_port_promiscuous` of `sdplane/dpdk_port_cmd.c` compares its `argv` with the keywords. -/

/-- A handler, as the ports it puts into promiscuous mode or takes out of it, given the number of
    ports and `argv`. -/
abbrev PortHandler := BitVec 16 → List (Option (List Byte)) → List (Nat × Bool)

/-- `set_port_promiscuous`. -/
def setPortPromiscuous : PortHandler := fun nbPorts argv =>
  let port := (argv.getD 2 none).getD []
  let portSpec : Int :=
    if port ≠ litString "all" then ((strtol 0 port).1.setWidth 32).toInt else -1
  (List.range nbPorts.toNat).filterMap fun (portId : Nat) =>
    if portSpec ≠ -1 ∧ portSpec ≠ portId then none
    else some (portId, (argv.getD 4 none).getD [] = litString "enable")

/-- Vectors that stay as they are. -/
def quietPlacement : Placement φ := ⟨fun _ v => v, fun _ v => .refl v⟩

/-- A library that knows no address, file or real number. -/
def quietLibc : Libc where
  inetPton := fun _ => false
  strtodEnds := fun _ => false
  strtodLt := fun _ _ => false
  stat := fun _ => .enoent
  strftime := fun _ => none

/-- `set_port_promiscuous_cmd`, installed. -/
def installPromiscuous : Except Stop (CommandSet PortHandler) :=
  commandInstall2 commandSetCreate quietPlacement
    (litString "set port (<0-16>|all) promiscuous (enable|disable)")
    (litString ("set information\nport information\nspecify port number\nall variables\n" ++
      "promiscuous\nenable feature\ndisable feature\n"))
    setPortPromiscuous

/-- The command set with only this command. -/
def promiscuousCommands : CommandSet PortHandler :=
  installPromiscuous.toOption.getD commandSetCreate

theorem promiscuousCommands_built : Built quietPlacement promiscuousCommands := by
  have ran : installPromiscuous.toOption.isSome := by decide +kernel
  cases result : installPromiscuous with
  | error stop =>
      rw [result] at ran
      cases ran
  | ok cmdset =>
      rw [promiscuousCommands, result]
      exact .install2 .create result

/-- `set port all promiscuous en` takes the ports out of promiscuous mode. -/
theorem abbreviation_transparent_not :
    Built quietPlacement promiscuousCommands ∧
      resolve quietLibc promiscuousCommands CommandSet.root (strsepTokens commandWordDelimiters
        (litString "set port all promiscuous en")) = some [1, 2, 4, 6, 8] ∧
      expandLine quietLibc promiscuousCommands [1, 2, 4, 6, 8]
        (litString "set port all promiscuous en") =
        litString "set port all promiscuous enable" ∧
      (commandExecute quietLibc promiscuousCommands (expandLine quietLibc promiscuousCommands
        [1, 2, 4, 6, 8] (litString "set port all promiscuous en"))).map
        (fun run => run.1 1 run.2) = some [(0, true)] ∧
      (commandExecute quietLibc promiscuousCommands
        (litString "set port all promiscuous en")).map (fun run => run.1 1 run.2) =
        some [(0, false)] :=
  ⟨promiscuousCommands_built, by decide +kernel⟩

theorem abbreviation_transparent_promiscuous :
    commandExecute quietLibc promiscuousCommands (expandLine quietLibc promiscuousCommands
          [1, 2, 4, 6, 8] (litString "set port all promiscuous en")) =
        commandExecute quietLibc promiscuousCommands (litString "set port all promiscuous en") ↔
      (∀ node ∈ [1, 2, 4, 6, 8].getLast?, (promiscuousCommands.node node).func = none) ∨
        Unabbreviated quietLibc promiscuousCommands [1, 2, 4, 6, 8]
          (strsepTokens commandWordDelimiters (litString "set port all promiscuous en")) :=
  abbreviation_transparent promiscuousCommands_built (by decide +kernel)

end Sdplane
