import Sdplane.Zcmdsh.Abbreviation

/-!
# The rest of the line

A word that finds `<LINE>` or a file ends the command, and the handler is to have the line from
this word on. `command_execute` looks for it with `strstr`, in the whole line.
-/

namespace Sdplane

variable {φ : Type}

/-! ## Where a token stands -/

/-- The place of the `k`-th of words that are separated by one octet each. -/
def wordStart (words : List (List Byte)) (k : Nat) : Nat :=
  ((words.take k).map fun word => word.length + 1).sum

/-- Behind the words before it and their separators stands the `k`-th word. -/
theorem intercalate_drop_wordStart (d : Byte) {words : List (List Byte)} {k : Nat}
    (inside : k < words.length) :
    ([d].intercalate words).drop (wordStart words k) = [d].intercalate (words.drop k) ∧
      wordStart words k ≤ ([d].intercalate words).length := by
  induction k generalizing words with
  | zero => exact ⟨rfl, Nat.zero_le _⟩
  | succ k ih =>
      cases words with
      | nil => cases inside
      | cons word words =>
          rw [List.length_cons, Nat.succ_lt_succ_iff] at inside
          obtain ⟨next, rest, rfl⟩ : ∃ next rest, words = next :: rest :=
            List.exists_cons_of_length_pos (Nat.zero_lt_of_lt inside)
          obtain ⟨here, within⟩ := ih inside
          have start : wordStart (word :: next :: rest) (k + 1) =
              word.length + 1 + wordStart (next :: rest) k := by
            rw [wordStart, List.take_succ_cons, List.map_cons, List.sum_cons]
            rfl
          have line : [d].intercalate (word :: next :: rest) =
              word ++ d :: [d].intercalate (next :: rest) := by
            rw [List.intercalate_cons_cons, List.append_assoc, List.singleton_append]
          rw [start, line, List.length_append, List.length_cons]
          refine ⟨?_, by omega⟩
          rw [Nat.add_assoc, List.drop_append, List.drop_eq_nil_of_le (by omega), List.nil_append,
            show word.length + (1 + wordStart (next :: rest) k) - word.length =
              wordStart (next :: rest) k + 1 by omega, List.drop_succ_cons, here,
            List.drop_succ_cons]

/-- `strstr` finds what stands somewhere there exactly when it stands nowhere before. -/
theorem strstr_eq_drop_iff {word s : List Byte} {p : Nat} (inside : p ≤ s.length)
    (here : word <+: s.drop p) :
    strstr word s = some (s.drop p) ↔ ∀ q < p, ¬word <+: s.drop q := by
  induction s generalizing p with
  | nil =>
      obtain rfl : p = 0 := Nat.eq_zero_of_le_zero inside
      have empty : word = [] := List.prefix_nil.mp here
      rw [strstr, if_pos empty]
      exact iff_of_true rfl fun q before => absurd before (Nat.not_lt_zero q)
  | cons b s ih =>
      rw [strstr]
      cases p with
      | zero =>
          rw [List.drop_zero] at here ⊢
          rw [if_pos (List.isPrefixOf_iff_prefix.mpr here)]
          exact iff_of_true rfl fun q before => absurd before (Nat.not_lt_zero q)
      | succ p =>
          by_cases first : word <+: b :: s
          · -- the whole line is longer than what is behind its first octet
            rw [if_pos (List.isPrefixOf_iff_prefix.mpr first)]
            refine iff_of_false (fun same => ?_) fun nowhere => nowhere 0 (Nat.succ_pos p) first
            have length := congrArg List.length (Option.some.inj same)
            rw [List.length_drop, List.length_cons] at length
            omega
          · rw [if_neg fun begins => first (List.isPrefixOf_iff_prefix.mp begins),
              List.drop_succ_cons, ih (Nat.le_of_succ_le_succ inside) here]
            constructor
            · intro nowhere q before
              cases q with
              | zero => exact first
              | succ q => exact nowhere q (Nat.lt_of_succ_lt_succ before)
            · exact fun nowhere q before => nowhere (q + 1) (Nat.succ_lt_succ before)

/-! ## The last argument -/

variable {libc : Libc} {cmdset : CommandSet φ}

/-- The way of a line through the tree is no longer than its words, and the last entry of
    `argv` is that of the last node. -/
theorem argvOf_getLast? (line : List Byte) {parent : Nat} {words : List (List Byte)}
    {nodes : List Nat} (resolved : resolve libc cmdset parent words = some nodes) {node : Nat}
    (last : nodes.getLast? = some node)
    (ends : lineSpec (cmdset.node node).cmdstr ∨ fileSpec (cmdset.node node).cmdstr) :
    ∃ word, words[nodes.length - 1]? = some word ∧
      (argvOf libc cmdset line nodes words).getLast? = some (strstr word line) := by
  induction words generalizing parent nodes with
  | nil =>
      rcases resolved with ⟨⟩
      cases last
  | cons word words ih =>
      rw [resolve] at resolved
      split at resolved
      · rcases resolved with ⟨⟩
        cases last
      · cases unique : commandMatchUniqueExact libc cmdset parent word with
        | none =>
            rw [unique] at resolved
            cases resolved
        | some first =>
            simp only [unique] at resolved
            split at resolved
            · next stops =>
                rcases resolved with ⟨⟩
                refine ⟨word, rfl, ?_⟩
                rw [argvOf, if_pos stops]
                cases words <;> rfl
            · next goesOn =>
                obtain ⟨rest, way, rfl⟩ := Option.map_eq_some_iff.mp resolved
                cases rest with
                | nil =>
                    rcases last with ⟨⟩
                    exact absurd ends goesOn
                | cons next rest =>
                    rw [List.getLast?_cons_cons] at last
                    obtain ⟨found, at_, entry⟩ := ih way last
                    refine ⟨found, at_, ?_⟩
                    rw [argvOf]
                    cases words with
                    | nil => cases at_
                    | cons second words =>
                        rw [argvOf] at entry ⊢
                        rw [List.getLast?_cons_cons]
                        exact entry

/-- The line from the word that found the last of the nodes on. -/
def restOfLine (line : List Byte) (nodes : List Nat) : List Byte :=
  line.drop (wordStart (strsepTokens commandWordDelimiters line) (nodes.length - 1))

/-- A handler behind a `<LINE>` or a file gets the rest of the line exactly when the word stands
    nowhere before its own place. -/
theorem restOfLine_iff {line : List Byte} {nodes : List Nat} {node : Nat} {func : φ}
    (resolved : resolve libc cmdset CommandSet.root
      (strsepTokens commandWordDelimiters line) = some nodes)
    (last : nodes.getLast? = some node)
    (ends : lineSpec (cmdset.node node).cmdstr ∨ fileSpec (cmdset.node node).cmdstr)
    (called : (cmdset.node node).func = some func) :
    ∃ word, (strsepTokens commandWordDelimiters line)[nodes.length - 1]? = some word ∧
      ((∃ argv, commandExecute libc cmdset line = some (func, argv) ∧
          argv.getLast? = some (some (restOfLine line nodes))) ↔
        ∀ q < wordStart (strsepTokens commandWordDelimiters line) (nodes.length - 1),
          ¬word <+: line.drop q) := by
  obtain ⟨word, at_, entry⟩ := argvOf_getLast? line resolved last ends
  refine ⟨word, at_, ?_⟩
  obtain ⟨inside, here⟩ := List.getElem?_eq_some_iff.mp at_
  obtain ⟨rest, within⟩ := intercalate_drop_wordStart space inside
  have whole : [space].intercalate (strsepTokens commandWordDelimiters line) = line :=
    intercalate_strsepTokens space line
  rw [whole] at rest within
  have begins : word <+: line.drop
      (wordStart (strsepTokens commandWordDelimiters line) (nodes.length - 1)) := by
    rw [rest, List.drop_eq_getElem_cons inside, here]
    cases (strsepTokens commandWordDelimiters line).drop (nodes.length - 1 + 1) with
    | nil => simp
    | cons next words =>
        rw [List.intercalate_cons_cons, List.append_assoc]
        exact List.prefix_append word _
  rw [← strstr_eq_drop_iff within begins, commandExecute_resolve resolved, last, Option.bind_some,
    called, Option.map_some]
  constructor
  · rintro ⟨argv, same, passed⟩
    obtain ⟨-, rfl⟩ := Prod.mk.inj (Option.some.inj same)
    rw [entry] at passed
    exact Option.some.inj passed
  · intro found
    exact ⟨_, rfl, by rw [entry, found, restOfLine]⟩

/-- `set_nettlp_payload_string`, installed. -/
def payloadStringCommands : CommandSet Unit :=
  (commandInstall2 commandSetCreate quietPlacement (litString "set nettlp payload-string <LINE>")
    (litString ("set information\nNetTLP information.\nSet payload string.\n" ++
      "Specify payload string.\n")) ()).toOption.getD commandSetCreate

theorem restOfLine_payloadString :
    ∃ word, (strsepTokens commandWordDelimiters
        (litString "set nettlp payload-string hello world"))[3]? = some word ∧
      ((∃ argv, commandExecute quietLibc payloadStringCommands
          (litString "set nettlp payload-string hello world") = some ((), argv) ∧
          argv.getLast? = some (some (restOfLine
            (litString "set nettlp payload-string hello world") [1, 2, 3, 4]))) ↔
        ∀ q < wordStart (strsepTokens commandWordDelimiters
          (litString "set nettlp payload-string hello world")) 3,
          ¬word <+: (litString "set nettlp payload-string hello world").drop q) :=
  @restOfLine_iff Unit quietLibc payloadStringCommands _ [1, 2, 3, 4] 4 () (by decide +kernel) rfl
    (by decide +kernel) (by decide +kernel)

/-- The payload `net` is taken from the middle of `nettlp` on. -/
theorem restOfLine_not :
    resolve quietLibc payloadStringCommands CommandSet.root (strsepTokens commandWordDelimiters
        (litString "set nettlp payload-string net")) = some [1, 2, 3, 4] ∧
      lineSpec (payloadStringCommands.node 4).cmdstr ∧
      restOfLine (litString "set nettlp payload-string net") [1, 2, 3, 4] = litString "net" ∧
      (commandExecute quietLibc payloadStringCommands
        (litString "set nettlp payload-string net")).map (fun run => run.2.getLast?) =
        some (some (some (litString "nettlp payload-string net"))) := by
  decide +kernel

end Sdplane
