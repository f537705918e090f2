import Sdplane.Zcmdsh.StringBlocks
import Sdplane.Zcmdsh.VariableMatch

/-!
# The order of installing

The words of the commands and their functions decide what a command line comes to, but for one
thing: of several variable words of one rank that take a word, `command_match_unique` takes the
first, and the order of the children comes from where their strings are. `Outcome` has what a line
can come to when `strdup` puts the lines of the commands wherever it may.
-/

namespace Sdplane

variable {φ : Type}

/-! ## What the commands say -/

/-- A word of some command behind these. -/
def ChildWord (specs : List (CommandHeader φ)) (ws : List (List Byte)) (word : List Byte) : Prop :=
  ∃ spec ∈ specs, ∃ full ∈ specPaths spec.cmdstr, ws ++ [word] <+: full

/-- The function of the first command with these words. -/
def specFunc (specs : List (CommandHeader φ)) (ws : List (List Byte)) : Option φ :=
  (specs.find? fun spec => (specPaths spec.cmdstr).contains ws).map CommandHeader.cmdfunc

/-- The function at these words when the commands are installed one after another: that of the
    last one that has them. -/
def installedFunc (specs : List (CommandHeader φ)) : List (List Byte) → Option φ :=
  specFunc specs.reverse

section
variable (libc : Libc)

/-- The words among `child` that a word can find: of the variable words of highest rank that take
    it one with the least key, the only word it begins, or itself. -/
inductive Finds (child : List Byte → Prop) (key : List Byte → List Nat) (word : List Byte) :
    List Byte → Prop
  | ranked {x : List Byte} (mem : child x) (takes : isCommandMatchVariable libc x word)
      (none_ : ∀ y, child y → isCommandMatchRegular y word = false)
      (best : ∀ y, child y → isCommandMatchVariable libc y word →
        varmatchPri libc y ≤ varmatchPri libc x)
      (first : ∀ y, child y → isCommandMatchVariable libc y word →
        varmatchPri libc x ≤ varmatchPri libc y → key x ≤ key y) : Finds child key word x
  | begun {x : List Byte} (mem : child x) (begins : isCommandMatchRegular x word)
      (only : ∀ y, child y → isCommandMatchRegular y word → y = x)
      (none_ : ∀ y, child y → isCommandMatchVariable libc y word = false) : Finds child key word x
  | itself (mem : child word) : Finds child key word word

/-- How the words of a command line can be executed behind `ws`, by these words and the keys of
    their paths: the `argv` and the words found. -/
inductive Executes (child : List (List Byte) → List Byte → Prop)
    (key : List (List Byte) → List Nat) (line : List Byte) :
    List (List Byte) → List (Option (List Byte)) → Option (List (List Byte)) → List (List Byte) →
    List (Option (List Byte)) → Option (List (List Byte)) → Prop
  | nil {ws argv found} : Executes child key line ws argv found [] argv found
  | empty {ws argv found words} : Executes child key line ws argv found ([] :: words) argv found
  | stuck {ws argv found word words} (named : word ≠ [])
      (nothing : ∀ x, ¬Finds libc (child ws) (fun x => key (ws ++ [x])) word x) :
      Executes child key line ws argv found (word :: words) argv none
  | rest {ws argv found word words x} (named : word ≠ [])
      (finds : Finds libc (child ws) (fun x => key (ws ++ [x])) word x)
      (whole : lineSpec x ∨ fileSpec x) :
      Executes child key line ws argv found (word :: words) (argv ++ [strstr word line])
        (some (ws ++ [x]))
  | next {ws argv found word words x argv' found'} (named : word ≠ [])
      (finds : Finds libc (child ws) (fun x => key (ws ++ [x])) word x)
      (single : ¬(lineSpec x ∨ fileSpec x))
      (run : Executes child key line (ws ++ [x]) (argv ++ [some (commandReplace libc x word)])
        (some (ws ++ [x])) words argv' found') :
      Executes child key line ws argv found (word :: words) argv' found'

/-- What a command line can come to, with the lines of the commands in some blocks: of the
    variable words of one rank that take a word, it finds one whose address comes first. -/
def Outcome (specs : List (CommandHeader φ)) (line : List Byte)
    (called : Option (φ × List (Option (List Byte)))) : Prop :=
  ∃ lines : List (StringBlock φ), (lines.map StringBlock.header).Perm specs ∧ Blocks lines ∧
    ∃ argv found, Executes libc (ChildWord specs) (stringKey lines) line [] [] none
        (strsepTokens commandWordDelimiters line) argv found ∧
      called = (found.bind (specFunc specs)).map fun func => (func, argv)

end

/-! ## What is found -/

section
variable {libc : Libc} {Q : CommandSet φ → Prop} {cmdset : CommandSet φ}
  {paths : List (List (List Byte))} {i : Nat} {ws : List (List Byte)} {word : List Byte}

/-- The words below a node are the strings of its children. -/
theorem Listed.child_iff (h : Listed Q cmdset paths) (here : PathAt paths i ws) :
    ws ++ [word] ∈ paths ↔ ∃ node ∈ (cmdset.node i).cmdvec, (cmdset.node node).cmdstr = word := by
  constructor
  · intro mem
    obtain ⟨node, there⟩ := PathAt.of_mem mem
    exact ⟨node, h.lists.mem_children here there⟩
  · rintro ⟨node, child, rfl⟩
    exact (h.lists.child here child).mem

theorem Listed.filter_eq_nil_iff (h : Listed Q cmdset paths) (here : PathAt paths i ws)
    (p : List Byte → Bool) :
    ((cmdset.node i).cmdvec.filter fun node => p (cmdset.node node).cmdstr) = [] ↔
      ∀ y, ws ++ [y] ∈ paths → p y = false := by
  rw [List.filter_eq_nil_iff]
  constructor
  · intro none_ y mem
    obtain ⟨node, child, rfl⟩ := (h.child_iff here).mp mem
    exact Bool.eq_false_of_not_eq_true (none_ node child)
  · intro none_ node child
    rw [none_ _ ((h.child_iff here).mpr ⟨node, child, rfl⟩)]
    exact Bool.false_ne_true

/-- What is found is a child. -/
theorem Listed.found_at (h : Listed Q cmdset paths) (here : PathAt paths i ws) {node : Nat}
    (found : commandMatchUniqueExact libc cmdset i word = some node) :
    PathAt paths node (ws ++ [(cmdset.node node).cmdstr]) :=
  h.lists.child here (match_of_commandMatchUniqueExact found).1

/-- The children of a node are in the order of the keys of their words. -/
def KeyOrdered (cmdset : CommandSet φ) (key : List Byte → List Nat) (i : Nat) : Prop :=
  (cmdset.node i).cmdvec.Pairwise fun a b =>
    key (cmdset.node a).cmdstr ≤ key (cmdset.node b).cmdstr

theorem keyOrdered_const (cmdset : CommandSet φ) (k : List Nat) (i : Nat) :
    KeyOrdered cmdset (fun _ => k) i := List.pairwise_of_forall fun _ _ => le_refl k

/-- What is found is one of the words that can be. -/
theorem Listed.found_finds (h : Listed Q cmdset paths) (here : PathAt paths i ws)
    {key : List Byte → List Nat} (ordered : KeyOrdered cmdset key i) {node : Nat}
    (found : commandMatchUniqueExact libc cmdset i word = some node) :
    Finds libc (fun x => ws ++ [x] ∈ paths) key word (cmdset.node node).cmdstr := by
  have there := h.found_at here found
  rw [commandMatchUniqueExact_eq] at found
  split at found
  · rename_i none_
    obtain ⟨takes, best⟩ := foldl_betterMatch found
    refine .ranked there.mem (mem_variableMatches.mp takes).2
      ((h.filter_eq_nil_iff here (isCommandMatchRegular · word)).mp none_) ?_ ?_
    · intro y mem takes
      obtain ⟨other, sibling, rfl⟩ := (h.child_iff here).mp mem
      exact best other (mem_variableMatches.mpr ⟨sibling, takes⟩)
    · intro y mem takes highest
      obtain ⟨other, sibling, rfl⟩ := (h.child_iff here).mp mem
      have taken := mem_variableMatches.mpr ⟨sibling, takes⟩
      rcases foldl_betterMatch_first found (ordered.filter _) taken highest with rfl | before
      · exact le_refl _
      · exact before
  · split at found
    · rename_i only
      obtain ⟨none_, single⟩ := only
      obtain ⟨one, alone⟩ := List.length_eq_one_iff.mp single
      rw [alone] at found
      obtain rfl : one = node := Option.some_inj.mp found
      have begins : one ∈ regularMatches cmdset i word := alone ▸ List.mem_cons_self
      refine .begun there.mem (mem_regularMatches.mp begins).2 ?_
        ((h.filter_eq_nil_iff here (isCommandMatchVariable libc · word)).mp none_)
      intro y mem begins
      obtain ⟨other, sibling, rfl⟩ := (h.child_iff here).mp mem
      have same := mem_regularMatches.mpr ⟨sibling, begins⟩
      rw [alone] at same
      rw [List.mem_singleton.mp same]
    · obtain ⟨-, rfl⟩ := mem_of_commandMatchExact found
      exact .itself there.mem

/-- The children of a node are in the order of their keys, and of those with one key a favoured one
    comes first. -/
def Favours (cmdset : CommandSet φ) (key : List Byte → List Nat) (favoured : List Byte → Prop)
    (i : Nat) : Prop :=
  (cmdset.node i).cmdvec.Pairwise fun a b =>
    key (cmdset.node a).cmdstr < key (cmdset.node b).cmdstr ∨
      key (cmdset.node a).cmdstr = key (cmdset.node b).cmdstr ∧
        (favoured (cmdset.node b).cmdstr → favoured (cmdset.node a).cmdstr)

/-- Where a word can be found something is, and that word if it is the favoured one. -/
theorem Listed.finds_found (h : Listed Q cmdset paths) (here : PathAt paths i ws)
    {key : List Byte → List Nat} {x : List Byte}
    (finds : Finds libc (fun y => ws ++ [y] ∈ paths) key word x) :
    ∃ node, commandMatchUniqueExact libc cmdset i word = some node ∧
      (Favours cmdset key (· = x) i → (cmdset.node node).cmdstr = x) := by
  have inside := h.lists.lt_size here
  rw [commandMatchUniqueExact_eq]
  cases finds with
  | ranked mem takes none_ best first =>
      obtain ⟨node, child, rfl⟩ := (h.child_iff here).mp mem
      have noneBegins : regularMatches cmdset i word = [] :=
        (h.filter_eq_nil_iff here (isCommandMatchRegular · word)).mpr none_
      have taken := mem_variableMatches.mpr ⟨child, takes⟩
      rw [if_pos noneBegins]
      cases best_ : bestVariableMatch libc cmdset i word with
      | none =>
          rw [foldl_betterMatch_eq_none best_] at taken
          cases taken
      | some found =>
          refine ⟨found, rfl, fun favours => ?_⟩
          obtain ⟨member, highest⟩ := foldl_betterMatch best_
          obtain ⟨sibling, takes'⟩ := mem_variableMatches.mp member
          have mem' := (h.child_iff here).mpr ⟨found, sibling, rfl⟩
          rcases foldl_betterMatch_first best_ (favours.filter _) taken (best _ mem' takes') with
            rfl | less | ⟨-, favoured⟩
          · rfl
          · exact absurd (first _ mem' takes' (highest node taken)) (not_le_of_gt less)
          · exact favoured rfl
  | begun mem begins only none_ =>
      obtain ⟨node, child, rfl⟩ := (h.child_iff here).mp mem
      have noneTakes : variableMatches libc cmdset i word = [] :=
        (h.filter_eq_nil_iff here (isCommandMatchVariable libc · word)).mpr none_
      have alone : regularMatches cmdset i word = [node] := by
        have nodup : (regularMatches cmdset i word).Nodup := (h.nodup i inside).filter _
        refine List.perm_singleton.mp
          ((List.perm_ext_iff_of_nodup nodup (List.nodup_singleton node)).mpr fun other => ?_)
        rw [List.mem_singleton, mem_regularMatches]
        constructor
        · rintro ⟨sibling, begins⟩
          have same := only _ ((h.child_iff here).mpr ⟨other, sibling, rfl⟩) begins
          exact h.lists.addressed.siblings inside sibling child same
        · rintro rfl
          exact ⟨child, begins⟩
      have alone' : OnlyRegularMatch libc cmdset i word := ⟨noneTakes, by rw [alone]; rfl⟩
      have some_ : regularMatches cmdset i word ≠ [] := by
        rw [alone]
        exact List.cons_ne_nil _ _
      rw [if_neg some_, if_pos alone', alone]
      exact ⟨node, rfl, fun _ => rfl⟩
  | itself mem =>
      obtain ⟨node, child, rfl⟩ := (h.child_iff here).mp mem
      have begins := mem_regularMatches.mpr
        ⟨child, isCommandMatchRegular_self (cmdset.node node).cmdstr⟩
      rw [if_neg (List.ne_nil_of_mem begins)]
      split
      · rename_i only
        obtain ⟨one, alone⟩ := List.length_eq_one_iff.mp only.2
        rw [alone] at begins ⊢
        rw [List.mem_singleton.mp begins]
        exact ⟨one, rfl, fun _ => rfl⟩
      · cases exact_ : commandMatchExact cmdset i (cmdset.node node).cmdstr with
        | none => exact absurd rfl (commandMatchExact_eq_none.mp exact_ node child)
        | some other => exact ⟨other, rfl, fun _ => (mem_of_commandMatchExact exact_).2⟩

/-! ## What is executed -/

/-- The node found, if any, and its words. -/
def FoundAt (paths : List (List (List Byte))) : Option Nat → Option (List (List Byte)) → Prop :=
  Option.Rel (PathAt paths)

/-- What is executed can be. -/
theorem Listed.executeLoop_executes (h : Listed Q cmdset paths)
    {key : List (List Byte) → List Nat}
    (ordered : ∀ i ws, PathAt paths i ws → KeyOrdered cmdset (fun x => key (ws ++ [x])) i)
    (here : PathAt paths i ws) (line : List Byte) (argv : List (Option (List Byte)))
    {pos : Option Nat} {found : Option (List (List Byte))} (at_ : FoundAt paths pos found)
    (words : List (List Byte)) :
    ∃ found', Executes libc (fun ws x => ws ++ [x] ∈ paths) key line ws argv found words
        (executeLoop libc cmdset line i argv pos words).1 found' ∧
      FoundAt paths (executeLoop libc cmdset line i argv pos words).2 found' := by
  induction words generalizing i ws argv pos found with
  | nil => exact ⟨found, .nil, at_⟩
  | cons word words ih =>
      rw [executeLoop]
      split
      · rename_i none_
        subst none_
        exact ⟨found, .empty, at_⟩
      · rename_i named
        cases match_ : commandMatchUniqueExact libc cmdset i word with
        | none =>
            refine ⟨none, .stuck named fun x finds => ?_, .none⟩
            obtain ⟨node, found, -⟩ := h.finds_found here finds
            rw [match_] at found
            cases found
        | some node =>
            have there := h.found_at here match_
            have finds := h.found_finds here (ordered i ws here) match_
            dsimp only
            split
            · rename_i whole
              exact ⟨_, .rest named finds whole, .some there⟩
            · rename_i single
              obtain ⟨found', run, at_'⟩ := ih there
                (argv ++ [some (commandReplace libc (cmdset.node node).cmdstr word)]) (.some there)
              exact ⟨found', .next named finds single run, at_'⟩

/-- Of the words with one key, those on the way to `last` come first. -/
def FavoursWay (cmdset : CommandSet φ) (paths : List (List (List Byte)))
    (key : List (List Byte) → List Nat) (last : List (List Byte)) : Prop :=
  ∀ i ws, PathAt paths i ws →
    Favours cmdset (fun x => key (ws ++ [x])) (fun x => ws ++ [x] <+: last) i

/-- Two paths of one length are not both on the way. -/
theorem eq_of_onWay {last : List (List Byte)} {x y : List Byte} (onWay : ws ++ [x] <+: last)
    (onWay' : ws ++ [y] <+: last) : x = y := by
  have same : ws ++ [x] = ws ++ [y] :=
    (List.prefix_of_prefix_length_le onWay onWay' (by simp)).eq_of_length (by simp)
  exact List.singleton_inj.mp (List.append_cancel_left same)

/-- A word on the way finds its node. -/
theorem Listed.favoured_found (h : Listed Q cmdset paths) {key : List (List Byte) → List Nat}
    {last : List (List Byte)} (favours : FavoursWay cmdset paths key last)
    (here : PathAt paths i ws) {x : List Byte} (onWay : ws ++ [x] <+: last)
    (finds : Finds libc (fun y => ws ++ [y] ∈ paths) (fun y => key (ws ++ [y])) word x) :
    ∃ node, commandMatchUniqueExact libc cmdset i word = some node ∧
      (cmdset.node node).cmdstr = x ∧ PathAt paths node (ws ++ [x]) := by
  obtain ⟨node, match_, first⟩ := h.finds_found here finds
  have same : (cmdset.node node).cmdstr = x := by
    refine first ((favours i ws here).imp ?_)
    rintro a b (less | ⟨same, favoured⟩)
    · exact .inl less
    · refine .inr ⟨same, fun own => ?_⟩
      exact eq_of_onWay (favoured (own ▸ onWay)) onWay
  exact ⟨node, match_, same, same ▸ h.found_at here match_⟩

/-- What can be executed is, where the words on some way are favoured. -/
theorem Executes.realised {key : List (List Byte) → List Nat} {line : List Byte}
    {argv argv' : List (Option (List Byte))} {found found' : Option (List (List Byte))}
    {words : List (List Byte)}
    (run : Executes libc (fun ws x => ws ++ [x] ∈ paths) key line ws argv found words argv' found') :
    ∃ last, ws <+: last ∧ ∀ {Q} {cmdset : CommandSet φ} {i pos}, Listed Q cmdset paths →
      FavoursWay cmdset paths key last → PathAt paths i ws → FoundAt paths pos found →
      (executeLoop libc cmdset line i argv pos words).1 = argv' ∧
        FoundAt paths (executeLoop libc cmdset line i argv pos words).2 found' := by
  induction run with
  | @nil ws => exact ⟨ws, List.prefix_rfl, fun _ _ _ at_ => ⟨rfl, at_⟩⟩
  | @empty ws => exact ⟨ws, List.prefix_rfl, fun _ _ _ at_ => ⟨rfl, at_⟩⟩
  | @stuck ws argv found word words named nothing =>
      refine ⟨ws, List.prefix_rfl, fun {Q cmdset i pos} h favours here _ => ?_⟩
      rw [executeLoop, if_neg named]
      cases match_ : commandMatchUniqueExact libc cmdset i word with
      | none => exact ⟨rfl, .none⟩
      | some node =>
          have ordered : KeyOrdered cmdset (fun x => key (ws ++ [x])) i := by
            refine (favours i ws here).imp ?_
            rintro a b (less | ⟨same, -⟩)
            · exact le_of_lt less
            · exact le_of_eq same
          exact absurd (h.found_finds here ordered match_) (nothing _)
  | @rest ws argv found word words x named finds whole =>
      refine ⟨ws ++ [x], List.prefix_append _ _, fun {Q cmdset i pos} h favours here _ => ?_⟩
      obtain ⟨node, match_, same, there⟩ := h.favoured_found favours here List.prefix_rfl finds
      rw [executeLoop, if_neg named, match_]
      dsimp only
      rw [same, if_pos whole]
      exact ⟨rfl, .some there⟩
  | @next ws argv found word words x argv' found' named finds single _ ih =>
      obtain ⟨last, onWay, realised⟩ := ih
      refine ⟨last, (List.prefix_append _ _).trans onWay, fun {Q cmdset i pos} h favours here _ => ?_⟩
      obtain ⟨node, match_, same, there⟩ := h.favoured_found favours here onWay finds
      rw [executeLoop, if_neg named, match_]
      dsimp only
      rw [same, if_neg single]
      exact realised h favours there (.some there)

/-- The function that is called is the one at the words found. -/
theorem Listed.commandExecute_eq (h : Listed Q cmdset paths) {path : Nat → List (List Byte)}
    {table : List (List Byte) → Option φ} (denotes : Denotes cmdset path table) {line : List Byte}
    {found : Option (List (List Byte))}
    (at_ : FoundAt paths (executeLoop libc cmdset line CommandSet.root [] none
      (strsepTokens commandWordDelimiters line)).2 found) :
    commandExecute libc cmdset line = (found.bind table).map fun func =>
      (func, (executeLoop libc cmdset line CommandSet.root [] none
        (strsepTokens commandWordDelimiters line)).1) := by
  rw [commandExecute]
  dsimp only
  cases pos : (executeLoop libc cmdset line CommandSet.root [] none
      (strsepTokens commandWordDelimiters line)).2 with
  | none =>
      rw [pos] at at_
      cases at_
      rfl
  | some node =>
      rw [pos] at at_
      cases at_ with
      | some there =>
          dsimp only
          rw [denotes.func node (h.lists.lt_size there), h.lists.path_eq denotes.addressed there]
          rfl

end

/-! ## The nodes the commands make -/

theorem prefix_extendPath (subword : List Byte) (ws : List (List Byte)) :
    ws <+: extendPath subword ws := by
  rw [extendPath]
  split
  · exact List.prefix_rfl
  · exact List.prefix_append _ _

/-- What is on the way to the next paths is on the way to the ones before, or is one of them. -/
theorem prefix_extendPaths {before : List (List (List Byte))} {subwords : List (List Byte)}
    (some_ : subwords ≠ []) {ws : List (List Byte)} :
    ((∃ ws' ∈ before, ws <+: ws') ∨ ws ∈ extendPaths before subwords) ↔
      ∃ ws' ∈ extendPaths before subwords, ws <+: ws' := by
  constructor
  · rintro (⟨ws', mem, onWay⟩ | mem)
    · obtain ⟨subword, inside⟩ := List.exists_mem_of_ne_nil subwords some_
      refine ⟨extendPath subword ws', ?_, onWay.trans (prefix_extendPath subword ws')⟩
      exact List.mem_flatMap.mpr ⟨subword, inside, List.mem_map_of_mem mem⟩
    · exact ⟨ws, mem, List.prefix_rfl⟩
  · rintro ⟨next, mem, onWay⟩
    obtain ⟨subword, inside, mem'⟩ := List.mem_flatMap.mp mem
    obtain ⟨ws', old, rfl⟩ := List.mem_map.mp mem'
    by_cases omitted : subword = []
    · rw [extendPath, if_pos omitted] at onWay
      exact .inl ⟨ws', old, onWay⟩
    · rw [extendPath, if_neg omitted] at onWay mem
      rcases List.prefix_concat_iff.mp onWay with rfl | shorter
      · exact .inr mem
      · exact .inl ⟨ws', old, shorter⟩

/-- The paths come by are those on the way to the last ones. -/
theorem mem_levelPaths {levels : List (List (List Byte))} {before : List (List (List Byte))}
    (words : ∀ subwords ∈ levels, subwords ≠ []) {ws : List (List Byte)} :
    ((∃ ws' ∈ before, ws <+: ws') ∨ ws ∈ levelPaths before levels) ↔
      ∃ full ∈ levels.foldl extendPaths before, ws <+: full := by
  induction levels generalizing before with
  | nil => simp [levelPaths]
  | cons subwords levels ih =>
      obtain ⟨first, others⟩ := List.forall_mem_cons.mp words
      rw [List.foldl_cons, ← ih others, levelPaths, List.mem_append, ← or_assoc]
      exact or_congr_left (prefix_extendPaths first)

/-- The nodes are at the paths on the way to those of the commands. -/
theorem mem_createdPaths {specs : List (CommandHeader φ)} {ws : List (List Byte)}
    (some_ : ws ≠ []) :
    ws ∈ createdPaths (specs.map InstallCall.install2) ↔
      ∃ spec ∈ specs, ∃ full ∈ specPaths spec.cmdstr, ws <+: full := by
  have each : ∀ spec : CommandHeader φ, ws ∈ (InstallCall.install2 spec).paths ↔
      ∃ full ∈ specPaths spec.cmdstr, ws <+: full := by
    intro spec
    have words : ∀ subwords ∈
        (strsepTokens commandWordDelimiters spec.cmdstr).map subwordsOf, subwords ≠ [] := by
      intro subwords mem
      obtain ⟨word, -, rfl⟩ := List.mem_map.mp mem
      exact subwordsOf_ne_nil word
    rw [specPaths, ← mem_levelPaths words]
    simp [InstallCall.paths, some_]
  rw [createdPaths, mem_addPaths, List.mem_singleton, or_iff_right some_, List.flatMap_map,
    List.mem_flatMap]
  exact exists_congr fun spec => and_congr_right fun _ => each spec

theorem childWord_eq (specs : List (CommandHeader φ)) :
    ChildWord specs = fun ws x => ws ++ [x] ∈ createdPaths (specs.map InstallCall.install2) := by
  funext ws x
  refine propext (mem_createdPaths ?_).symm
  exact List.append_ne_nil_of_right_ne_nil ws (List.cons_ne_nil x [])

/-- No two commands have a path in common. -/
def DisjointSpecs (specs : List (CommandHeader φ)) : Prop :=
  specs.Pairwise fun a b => (specPaths a.cmdstr).Disjoint (specPaths b.cmdstr)

instance (specs : List (CommandHeader φ)) : Decidable (DisjointSpecs specs) :=
  have _ (a b : CommandHeader φ) :
      Decidable ((specPaths a.cmdstr).Disjoint (specPaths b.cmdstr)) :=
    inferInstanceAs (Decidable (∀ ws ∈ specPaths a.cmdstr, ws ∉ specPaths b.cmdstr))
  inferInstanceAs (Decidable (List.Pairwise _ specs))

/-- Where at most one element has a property, the order does not matter to which is found. -/
theorem find?_perm {α : Type} {p : α → Bool} {l l' : List α} (perm : l'.Perm l)
    (single : ∀ a ∈ l, ∀ b ∈ l, p a → p b → a = b) : l'.find? p = l.find? p := by
  cases found : l'.find? p with
  | none =>
      refine (List.find?_eq_none.mpr fun a mem => ?_).symm
      exact List.find?_eq_none.mp found a (perm.mem_iff.mpr mem)
  | some a =>
      have mem := perm.mem_iff.mp (List.mem_of_find?_eq_some found)
      cases found' : l.find? p with
      | none => exact absurd (List.find?_some found) (List.find?_eq_none.mp found' a mem)
      | some b =>
          exact congrArg some (single a mem b (List.mem_of_find?_eq_some found')
            (List.find?_some found) (List.find?_some found'))

theorem specFunc_perm {specs order : List (CommandHeader φ)} (disjoint : DisjointSpecs specs)
    (perm : order.Perm specs) : specFunc order = specFunc specs := by
  funext ws
  have symm : Std.Symm fun a b : CommandHeader φ =>
    (specPaths a.cmdstr).Disjoint (specPaths b.cmdstr) := ⟨fun _ _ h => List.disjoint_symm h⟩
  rw [specFunc, specFunc, find?_perm perm]
  intro a memA b memB hasA hasB
  by_contra other
  exact disjoint.forall memA memB other (List.contains_iff_mem.mp hasA)
    (List.contains_iff_mem.mp hasB)

theorem installedFunc_perm {specs order : List (CommandHeader φ)} (disjoint : DisjointSpecs specs)
    (perm : order.Perm specs) : installedFunc order = specFunc specs :=
  specFunc_perm disjoint ((List.reverse_perm order).trans perm)

theorem foldl_table (order : List (CommandHeader φ)) :
    (order.map InstallCall.install2).foldl InstallCall.table (fun _ => none) =
      installedFunc order := by
  induction order using List.reverseRecOn with
  | nil => rfl
  | append_singleton order spec ih =>
      funext ws
      rw [List.map_append, List.foldl_append, ih, installedFunc, installedFunc, List.reverse_append]
      by_cases has : ws ∈ specPaths spec.cmdstr
      · simp [InstallCall.table, installed, specFunc, has]
      · simp [InstallCall.table, installed, specFunc, has]

theorem childWord_perm {specs order : List (CommandHeader φ)} (perm : order.Perm specs) :
    ChildWord order = ChildWord specs := by
  funext ws x
  simp only [ChildWord, perm.mem_iff]

/-! ## Any order of installing -/

section
variable {libc : Libc} {specs : List (CommandHeader φ)} {cmdset : CommandSet φ}

/-- What a run leaves. -/
theorem install2_run {place : Placement φ} {Q : CommandSet φ → Prop} (keeps : Keeps place Q)
    (create : Q commandSetCreate)
    (ran : installRun place (specs.map .install2) = .ok cmdset) :
    Listed Q cmdset (createdPaths (specs.map InstallCall.install2)) ∧
      ∃ path, Denotes cmdset path (installedFunc specs) := by
  obtain ⟨listed, distinct⟩ := installRun_listed keeps create _ cmdset ran
  obtain ⟨cmdset', path, ran', denotes⟩ := installRun_ok place distinct
  rw [ran] at ran'
  rcases ran' with ⟨⟩
  rw [foldl_table] at denotes
  exact ⟨listed, path, denotes⟩

variable {lines : List (StringBlock φ)} {paths : List (List (List Byte))}

/-- The keys of the nodes are those of their paths. -/
theorem Blocks.keyOrdered {Q : CommandSet φ → Prop} (blocks : Blocks lines)
    (h : Listed Q cmdset (createdPaths (installCalls lines)))
    (sorted : ∀ i, (cmdset.node i).cmdvec.Pairwise fun a b =>
      slotKey blocks.places.cmdstrAt a ≤ slotKey blocks.places.cmdstrAt b)
    (i : Nat) (ws : List (List Byte)) (here : PathAt (createdPaths (installCalls lines)) i ws) :
    KeyOrdered cmdset (fun x => stringKey lines (ws ++ [x])) i := by
  refine (sorted i).imp_of_mem ?_
  intro a b childA childB before
  rwa [blocks.slotKey_eq (h.lists.child here childA), blocks.slotKey_eq (h.lists.child here childB)]
    at before

/-- Whatever is called is an outcome. -/
theorem commandExecute_outcome (disjoint : DisjointSpecs specs)
    (perm : (lines.map StringBlock.header).Perm specs) (blocks : Blocks lines)
    (place : SlotPlacement φ blocks.places)
    (ran : installRun place.toPlacement (installCalls lines) = .ok cmdset) (line : List Byte) :
    Outcome libc specs line (commandExecute libc cmdset line) := by
  obtain ⟨listed, path, denotes⟩ :=
    install2_run (keeps_pairwise place.sorted) (fun _ => .nil) ran
  rw [installedFunc_perm disjoint perm] at denotes
  have ordered := blocks.keyOrdered listed listed.kept
  obtain ⟨found, run, at_⟩ := listed.executeLoop_executes ordered listed.lists.root line [] .none
    (strsepTokens commandWordDelimiters line)
  rw [← childWord_eq, childWord_perm perm] at run
  exact ⟨lines, perm, blocks, _, found, run, listed.commandExecute_eq denotes at_⟩

/-! ## The placement that is wanted -/

/-- By the address, and among nodes whose addresses compare alike those on the way to `last`
    first. -/
def wayKey (blocks : Blocks lines) (last : List (List Byte)) (node : Nat) : List Nat ×ₗ Nat :=
  toLex (slotKey blocks.places.cmdstrAt node,
    if ((createdPaths (installCalls lines)).getD node []).isPrefixOf last then 0 else 1)

theorem wayKey_le {blocks : Blocks lines} {last : List (List Byte)} {a b : Nat}
    (before : wayKey blocks last a ≤ wayKey blocks last b) :
    slotKey blocks.places.cmdstrAt a < slotKey blocks.places.cmdstrAt b ∨
      slotKey blocks.places.cmdstrAt a = slotKey blocks.places.cmdstrAt b ∧
        ((createdPaths (installCalls lines)).getD b [] <+: last →
          (createdPaths (installCalls lines)).getD a [] <+: last) := by
  refine ((Prod.Lex.toLex_le_toLex ..).mp before).imp_right ?_
  rintro ⟨same, flags⟩
  refine ⟨same, ?_⟩
  intro onWay
  by_contra off
  rw [if_pos (List.isPrefixOf_iff_prefix.mpr onWay),
    if_neg fun on => off (List.isPrefixOf_iff_prefix.mp on)] at flags
  exact absurd flags (Nat.not_succ_le_zero 0)

/-- The order `vector_sort` leaves when it favours the words on a way. -/
def wayPlacement (blocks : Blocks lines) (last : List (List Byte)) :
    SlotPlacement φ blocks.places where
  toPlacement := keyPlacement (wayKey blocks last)
  sorted := by
    intro cmdset v
    refine (keyPlacement_sorted (wayKey blocks last) cmdset v).imp fun {a b} before => ?_
    rcases wayKey_le before with less | ⟨same, -⟩
    · exact le_of_lt less
    · exact le_of_eq same

theorem favoursWay_wayPlacement {Q : CommandSet φ → Prop} {blocks : Blocks lines}
    (h : Listed Q cmdset (createdPaths (installCalls lines))) {last : List (List Byte)}
    (sorted : ∀ i, (cmdset.node i).cmdvec.Pairwise fun a b =>
      wayKey blocks last a ≤ wayKey blocks last b) :
    FavoursWay cmdset (createdPaths (installCalls lines)) (stringKey lines) last := by
  intro i ws here
  refine (sorted i).imp_of_mem ?_
  intro a b childA childB before
  have atA := h.lists.child here childA
  have atB := h.lists.child here childB
  have lex := wayKey_le before
  rw [blocks.slotKey_eq atA, blocks.slotKey_eq atB, atA.getD, atB.getD] at lex
  exact lex

/-- Every outcome is that of some run. -/
theorem Outcome.called {line : List Byte} {called : Option (φ × List (Option (List Byte)))}
    (h : Outcome libc specs line called) (disjoint : DisjointSpecs specs)
    (distinct : ∀ spec ∈ specs, (specPaths spec.cmdstr).Nodup) :
    ∃ (lines : List (StringBlock φ)) (blocks : Blocks lines)
      (place : SlotPlacement φ blocks.places) (cmdset : CommandSet φ),
      (lines.map StringBlock.header).Perm specs ∧
        installRun place.toPlacement (installCalls lines) = .ok cmdset ∧
        commandExecute libc cmdset line = called := by
  obtain ⟨lines, perm, blocks, argv, found, run, rfl⟩ := h
  rw [← childWord_perm perm, childWord_eq] at run
  obtain ⟨last, -, realised⟩ := run.realised (φ := φ)
  let place := wayPlacement blocks last
  have each : ∀ call ∈ installCalls lines, call.Distinct := by
    rintro _ mem
    obtain ⟨spec, inside, rfl⟩ := List.mem_map.mp mem
    exact distinct spec (perm.mem_iff.mp inside)
  obtain ⟨cmdset, -, ran, -⟩ := installRun_ok place.toPlacement each
  obtain ⟨listed, path, denotes⟩ :=
    install2_run (keeps_pairwise (keyPlacement_sorted (wayKey blocks last))) (fun _ => .nil) ran
  rw [installedFunc_perm disjoint perm] at denotes
  have favours := favoursWay_wayPlacement listed listed.kept
  obtain ⟨rfl, at_⟩ := realised listed favours listed.lists.root .none
  exact ⟨lines, blocks, place, cmdset, perm, ran, listed.commandExecute_eq denotes at_⟩

end

/-! ## The order of installing -/

/-- In whatever order the commands are installed, and wherever `strdup` puts their lines, the
    command line calls the same function with the same `argv`. -/
def OrderFree (libc : Libc) (specs : List (CommandHeader φ)) (line : List Byte) : Prop :=
  ∀ (lines lines' : List (StringBlock φ)), (lines.map StringBlock.header).Perm specs →
    (lines'.map StringBlock.header).Perm specs →
  ∀ (blocks : Blocks lines) (blocks' : Blocks lines') (place : SlotPlacement φ blocks.places)
    (place' : SlotPlacement φ blocks'.places) (cmdset cmdset' : CommandSet φ),
    installRun place.toPlacement (installCalls lines) = .ok cmdset →
    installRun place'.toPlacement (installCalls lines') = .ok cmdset' →
    commandExecute libc cmdset line = commandExecute libc cmdset' line

/-- Wherever the lines are, the first of two words has the lower address: one command alone has
    them, and they begin in the same sixteen octets of its line. -/
def SettledBefore (specs : List (CommandHeader φ)) (ws : List (List Byte)) (x y : List Byte) :
    Prop :=
  ∃ spec ∈ specs,
    (∀ other ∈ specs, other ≠ spec →
      wordPlace other.cmdstr (ws ++ [x]) = none ∧ wordPlace other.cmdstr (ws ++ [y]) = none) ∧
    ∃ place place', wordPlace spec.cmdstr (ws ++ [x]) = some place ∧
      wordPlace spec.cmdstr (ws ++ [y]) = some place' ∧ place / 16 = place' / 16 ∧ place < place'

/-- Of any two words behind others that take a word and are of one rank, one always comes first. -/
def Settled (libc : Libc) (specs : List (CommandHeader φ)) : Prop :=
  ∀ ws word x y, ChildWord specs ws x → ChildWord specs ws y →
    isCommandMatchVariable libc x word → isCommandMatchVariable libc y word →
    varmatchPri libc x = varmatchPri libc y →
    x = y ∨ SettledBefore specs ws x y ∨ SettledBefore specs ws y x

theorem SettledBefore.key_lt {specs : List (CommandHeader φ)} {ws : List (List Byte)}
    {x y : List Byte} (settled : SettledBefore specs ws x y) {lines : List (StringBlock φ)}
    (perm : (lines.map StringBlock.header).Perm specs) (blocks : Blocks lines) :
    stringKey lines (ws ++ [x]) < stringKey lines (ws ++ [y]) := by
  obtain ⟨spec, inside, alone, place, place', here, there, row, less⟩ := settled
  obtain ⟨line, member, -, at_⟩ := exists_line_of_own (perm.mem_iff.mpr inside)
  have alone' : ∀ other ∈ lines.map StringBlock.header, other ≠ spec →
      wordPlace other.cmdstr (ws ++ [x]) = none ∧ wordPlace other.cmdstr (ws ++ [y]) = none :=
    fun other mem => alone other (perm.mem_iff.mp mem)
  rw [stringKey, stringKey, at_ _ _ here fun other mem differs => (alone' other mem differs).1,
    at_ _ _ there fun other mem differs => (alone' other mem differs).2]
  exact pointerString_lt_of_row (blocks.aligned line member) row less

/-- Two keys order the words of one rank that take a word alike, and no two are equal. -/
def TiesAlike (libc : Libc) (child : List Byte → Prop) (word : List Byte)
    (key key' : List Byte → List Nat) : Prop :=
  ∀ x y, child x → child y → isCommandMatchVariable libc x word →
    isCommandMatchVariable libc y word → varmatchPri libc x = varmatchPri libc y →
    x = y ∨ key x < key y ∧ key' x < key' y ∨ key y < key x ∧ key' y < key' x

section
variable {libc : Libc} {child : List Byte → Prop} {key key' : List Byte → List Nat}
  {word x y : List Byte}

theorem TiesAlike.symm (alike : TiesAlike libc child word key key') :
    TiesAlike libc child word key' key := by
  intro x y mem mem' takes takes' rank
  rcases alike x y mem mem' takes takes' rank with same | ⟨less, less'⟩ | ⟨less, less'⟩
  · exact .inl same
  · exact .inr (.inl ⟨less', less⟩)
  · exact .inr (.inr ⟨less', less⟩)

/-- What is found by one key is found by the other. -/
theorem Finds.transfer (alike : TiesAlike libc child word key key')
    (h : Finds libc child key word x) : Finds libc child key' word x := by
  cases h with
  | ranked mem takes none_ best first =>
      refine .ranked mem takes none_ best fun y mem' takes' highest => ?_
      have rank := le_antisymm highest (best y mem' takes')
      rcases alike x y mem mem' takes takes' rank with rfl | ⟨-, less⟩ | ⟨less, -⟩
      · exact le_refl _
      · exact le_of_lt less
      · exact absurd (first y mem' takes' highest) (not_le_of_gt less)
  | begun mem begins only none_ => exact .begun mem begins only none_
  | itself mem => exact .itself mem

/-- A word finds one word only. -/
theorem Finds.unique (alike : TiesAlike libc child word key key')
    (h : Finds libc child key word x) (h' : Finds libc child key' word y) : x = y := by
  have self := isCommandMatchRegular_self word
  cases h with
  | ranked mem takes none_ best first =>
      cases h' with
      | ranked mem' takes' _ best' first' =>
          have rank := le_antisymm (best' x mem takes) (best y mem' takes')
          rcases alike x y mem mem' takes takes' rank with same | ⟨-, less⟩ | ⟨less, -⟩
          · exact same
          · exact absurd (first' x mem takes (le_of_eq rank.symm)) (not_le_of_gt less)
          · exact absurd (first y mem' takes' (le_of_eq rank)) (not_le_of_gt less)
      | begun mem' begins => exact absurd begins (Bool.eq_false_iff.mp (none_ y mem'))
      | itself mem' => exact absurd self (Bool.eq_false_iff.mp (none_ _ mem'))
  | begun mem begins only none_ =>
      cases h' with
      | ranked _ _ none_' => exact absurd begins (Bool.eq_false_iff.mp (none_' x mem))
      | begun mem' begins' => exact (only y mem' begins').symm
      | itself mem' => exact (only _ mem' self).symm
  | itself mem =>
      cases h' with
      | ranked _ _ none_' => exact absurd self (Bool.eq_false_iff.mp (none_' _ mem))
      | begun _ _ only => exact only _ mem self
      | itself _ => rfl

end

/-- So a line is executed in one way. -/
theorem Executes.unique {libc : Libc} {child : List (List Byte) → List Byte → Prop}
    {key key' : List (List Byte) → List Nat}
    (alike : ∀ ws word, TiesAlike libc (child ws) word (fun x => key (ws ++ [x]))
      fun x => key' (ws ++ [x]))
    {line : List Byte} {ws : List (List Byte)}
    {argv argv₁ argv₂ : List (Option (List Byte))} {found found₁ found₂ : Option (List (List Byte))}
    {words : List (List Byte)}
    (run₁ : Executes libc child key line ws argv found words argv₁ found₁)
    (run₂ : Executes libc child key' line ws argv found words argv₂ found₂) :
    argv₁ = argv₂ ∧ found₁ = found₂ := by
  induction run₁ with
  | nil => cases run₂; exact ⟨rfl, rfl⟩
  | empty =>
      cases run₂ with
      | empty => exact ⟨rfl, rfl⟩
      | stuck named | rest named | next named => exact absurd rfl named
  | stuck named nothing =>
      cases run₂ with
      | empty => exact absurd rfl named
      | stuck => exact ⟨rfl, rfl⟩
      | rest _ finds | next _ finds => exact absurd (finds.transfer (alike _ _).symm) (nothing _)
  | rest named finds whole =>
      cases run₂ with
      | empty => exact absurd rfl named
      | stuck _ nothing => exact absurd (finds.transfer (alike _ _)) (nothing _)
      | rest _ finds' =>
          obtain rfl := finds.unique (alike _ _) finds'
          exact ⟨rfl, rfl⟩
      | next _ finds' single =>
          obtain rfl := finds.unique (alike _ _) finds'
          exact absurd whole single
  | next named finds single _ ih =>
      cases run₂ with
      | empty => exact absurd rfl named
      | stuck _ nothing => exact absurd (finds.transfer (alike _ _)) (nothing _)
      | rest _ finds' whole =>
          obtain rfl := finds.unique (alike _ _) finds'
          exact absurd whole single
      | next _ finds' _ run =>
          obtain rfl := finds.unique (alike _ _) finds'
          exact ih run

/-- Where every tie is settled, a command line can come to one thing only. -/
theorem Outcome.unique {libc : Libc} {specs : List (CommandHeader φ)} (settled : Settled libc specs)
    {line : List Byte} {called called' : Option (φ × List (Option (List Byte)))}
    (h : Outcome libc specs line called) (h' : Outcome libc specs line called') :
    called = called' := by
  obtain ⟨lines, perm, blocks, argv, found, run, rfl⟩ := h
  obtain ⟨lines', perm', blocks', argv', found', run', rfl⟩ := h'
  have alike : ∀ ws word, TiesAlike libc (ChildWord specs ws) word
      (fun x => stringKey lines (ws ++ [x])) fun x => stringKey lines' (ws ++ [x]) := by
    intro ws word x y mem mem' takes takes' rank
    rcases settled ws word x y mem mem' takes takes' rank with same | before | before
    · exact .inl same
    · exact .inr (.inl ⟨before.key_lt perm blocks, before.key_lt perm' blocks'⟩)
    · exact .inr (.inr ⟨before.key_lt perm blocks, before.key_lt perm' blocks'⟩)
  obtain ⟨rfl, rfl⟩ := run.unique alike run'
  rfl

/-- Where a command line can come to one thing only, that is what it comes to. -/
theorem orderFree_of_outcomes {libc : Libc} {specs : List (CommandHeader φ)}
    (disjoint : DisjointSpecs specs) {line : List Byte}
    (single : (∀ spec ∈ specs, (specPaths spec.cmdstr).Nodup) →
      ∀ called called', Outcome libc specs line called → Outcome libc specs line called' →
        called = called') : OrderFree libc specs line := by
  intro lines lines' perm perm' blocks blocks' place place' cmdset cmdset' ran ran'
  obtain ⟨-, each⟩ := installRun_listed (keeps_true _) trivial _ cmdset ran
  have distinct : ∀ spec ∈ specs, (specPaths spec.cmdstr).Nodup := fun spec inside =>
    each (.install2 spec) (List.mem_map_of_mem (perm.mem_iff.mpr inside))
  exact single distinct _ _ (commandExecute_outcome disjoint perm blocks place ran line)
    (commandExecute_outcome disjoint perm' blocks' place' ran' line)

theorem orderFree_of_settled {libc : Libc} {specs : List (CommandHeader φ)}
    (disjoint : DisjointSpecs specs) (settled : Settled libc specs) (line : List Byte) :
    OrderFree libc specs line :=
  orderFree_of_outcomes disjoint fun _ _ _ outcome outcome' => outcome.unique settled outcome'

/-- In a command all of whose alternatives begin within sixteen octets of its line, every tie is
    settled. -/
theorem settled_of_rows {libc : Libc} {spec : CommandHeader φ}
    (rows : ∀ p ∈ specPlaces spec.cmdstr, ∀ q ∈ specPlaces spec.cmdstr,
      p.2.dropLast = q.2.dropLast → p.2 = q.2 ∨ p.1 ≠ q.1 ∧ p.1 / 16 = q.1 / 16) :
    Settled libc [spec] := by
  have placed : ∀ ws x, ChildWord [spec] ws x →
      ∃ place, wordPlace spec.cmdstr (ws ++ [x]) = some place := by
    intro ws x mem
    rw [childWord_eq, createdPaths] at mem
    have own : ws ++ [x] ∈ (InstallCall.install2 spec).paths := by simpa using mem
    exact Option.ne_none_iff_exists'.mp (wordPlace_ne_none (by simp) own)
  have alone : ∀ ws x y, ∀ other ∈ [spec], other ≠ spec →
      wordPlace other.cmdstr (ws ++ [x]) = none ∧ wordPlace other.cmdstr (ws ++ [y]) = none :=
    fun _ _ _ other mem differs => absurd (List.mem_singleton.mp mem) differs
  intro ws word x y mem mem' _ _ _
  obtain ⟨place, here⟩ := placed ws x mem
  obtain ⟨place', there⟩ := placed ws y mem'
  have siblings : (ws ++ [x]).dropLast = (ws ++ [y]).dropLast := by
    rw [List.dropLast_concat, List.dropLast_concat]
  rcases rows _ (mem_of_wordPlace here) _ (mem_of_wordPlace there) siblings with same | ⟨other, row⟩
  · exact .inl (List.singleton_inj.mp (List.append_cancel_left same))
  · rcases Nat.lt_or_gt_of_ne other with less | more
    · exact .inr (.inl ⟨spec, List.mem_singleton_self spec, alone ws x y, place, place', here, there,
        row, less⟩)
    · exact .inr (.inr ⟨spec, List.mem_singleton_self spec, alone ws y x, place', place, there, here,
        row.symm, more⟩)

/-- Both ranges take 7, twice, but the first of a row is the first in memory wherever the row is. -/
example : OrderFree quietLibc [⟨litString "aaaaaaaaaaaaaaa(|<0-9>) (<0-9>|<5-20>)", [], ()⟩]
    (litString "7 7") :=
  orderFree_of_settled (by decide) (settled_of_rows (by decide +kernel)) _

/-- Two ranges that have 7 in common. -/
def rangeCommands : List (CommandHeader Bool) :=
  [⟨litString "show <0-10>", [], true⟩, ⟨litString "show <5-20>", [], false⟩]

/-- The line that is installed first in one block, the other in the next. -/
def rangeLines (first second : CommandHeader Bool) : List (StringBlock Bool) :=
  [⟨first, 0x1030⟩, ⟨second, 0x10a0⟩]

/-- The ranges in their order, and in the other. -/
def showRanges : List (StringBlock Bool) :=
  rangeLines ⟨litString "show <0-10>", [], true⟩ ⟨litString "show <5-20>", [], false⟩

def showRangesBack : List (StringBlock Bool) :=
  rangeLines ⟨litString "show <5-20>", [], false⟩ ⟨litString "show <0-10>", [], true⟩

theorem blocks_showRanges : Blocks showRanges where
  mapped := by decide
  aligned := by decide
  apart := by decide

theorem blocks_showRangesBack : Blocks showRangesBack where
  mapped := by decide
  aligned := by decide
  apart := by decide

end Sdplane
