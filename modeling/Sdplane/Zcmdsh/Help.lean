import Sdplane.Zcmdsh.InstallOrder
import Sdplane.Zcmdsh.WordBracket

/-!
# What `?` lists

`command_match_node` (`command.c:897-928`) goes the way of the words before the one at the end of
the line as `command_execute` does, and `command_shell_ls_candidate` (`command_shell.c:867-918`)
lists what can follow there.
-/

namespace Sdplane

open Words

variable {φ : Type}

section
variable (libc : Libc) (cmdset : CommandSet φ)

/-- The loop of `command_match_node`. -/
def matchNodeLoop : Nat → Option Nat → List (List Byte) → Option Nat
  | _, found, [] => found
  | parent, found, word :: words =>
      -- prevent execution completing NULL word
      if word = [] then found else
        match commandMatchUniqueExact libc cmdset parent word with
        | none => none
        | some node =>
            if lineSpec (cmdset.node node).cmdstr ∨ fileSpec (cmdset.node node).cmdstr then some node
            else matchNodeLoop node (some node) words

/-- `command_match_node`. -/
def commandMatchNode (line : List Byte) : Option Nat :=
  matchNodeLoop libc cmdset CommandSet.root (some CommandSet.root)
    (strsepTokens commandWordDelimiters line)

/-- What is listed: `<cr>`, a word, or the files `file_ls_candidate` finds. -/
inductive Listing where
  | cr (helpstr : Option (List Byte))
  | word (cmdstr : List Byte) (helpstr : Option (List Byte))
  | files (path : List Byte)

/-- What is listed about a node that can come next. -/
def listingOf (node : CommandNode φ) (last : List Byte) : List Listing :=
  (if isCommandMatch libc node.cmdstr last then [.word node.cmdstr node.helpstr] else []) ++
    if fileSpec node.cmdstr then [.files last] else []

/-- What is listed behind the node the words before lead to. -/
def listingAt (node : Nat) (atHead : Bool) (last : List Byte) : List Listing :=
  (if atHead ∧ (cmdset.node node).func.isSome then [.cr (cmdset.node node).helpstr] else []) ++
    (cmdset.node node).cmdvec.flatMap fun child => listingOf libc (cmdset.node child) last

/-- What `command_shell_ls_candidate` lists, once the cursor is at the end. -/
def commandShellListing (e : Editor) : Except Stop (List Listing) := do
  let (lastHead, e) ← shellWordHead e.cursor e
  let before := (e.stringAt 0).octets.take lastHead.toNat
  let last := (e.stringAt lastHead).octets
  return match commandMatchNode libc cmdset before with
  | some node => listingAt libc cmdset node (lastHead = e.cursor) last
  | none => []

end

/-- The words that are listed. -/
def listedWords (listing : List Listing) : List (List Byte) :=
  listing.filterMap fun
    | .word cmdstr _ => some cmdstr
    | _ => none

/-- The words of a command that these words find, if they do; of the variable words of highest rank
    that take a word it may be any. -/
def Leads (libc : Libc) (specs : List (CommandHeader φ)) (words : List (List Byte))
    (found : Option (List (List Byte))) : Prop :=
  ∃ argv, Executes libc (ChildWord specs) (fun _ => []) [] [] [] (some []) words argv found

/-- The last word is not one for the rest of the line. -/
def GoesOn (ws : List (List Byte)) : Prop :=
  ∀ word, ws.getLast? = some word → ¬(lineSpec word ∨ fileSpec word)

/-! ## The end of the line -/

section
variable {ws : List (List Byte)} {last : List Byte}

theorem intercalate_concat (ws : List (List Byte)) (last : List Byte) :
    [space].intercalate (ws ++ [last]) = [space].intercalate (ws ++ [[]]) ++ last := by
  induction ws with
  | nil => simp
  | cons w ws ih =>
      cases ws with
      | nil => simp [List.intercalate_cons_cons]
      | cons w' ws =>
          simp only [List.cons_append, List.intercalate_cons_cons] at ih ⊢
          rw [ih]
          simp

/-- The word at the end is what is behind the last space. -/
theorem wordHead_concat (plain : space ∉ last) :
    wordHead ([space].intercalate (ws ++ [last])) ([space].intercalate (ws ++ [last])).length =
      ([space].intercalate (ws ++ [[]])).length := by
  have text := intercalate_concat ws last
  have boundary : ([space].intercalate (ws ++ [[]])).length = 0 ∨
      ([space].intercalate (ws ++ [last]))[([space].intercalate (ws ++ [[]])).length - 1]? =
        some space := by
    by_cases none_ : ws = []
    · subst none_
      exact .inl rfl
    · have spaced : [space].intercalate (ws ++ [[]]) = [space].intercalate ws ++ [space] :=
        intercalate_concat_nil none_
      refine .inr ?_
      rw [text, spaced, List.append_assoc, List.length_append, List.length_singleton,
        Nat.add_sub_cancel, List.getElem?_append_right (Nat.le_refl _), Nat.sub_self]
      rfl
  generalize [space].intercalate (ws ++ [[]]) = before at text boundary ⊢
  generalize [space].intercalate (ws ++ [last]) = t at text boundary ⊢
  subst text
  have cases_ := wordHead_wordEnd_cases (Nat.le_refl (before ++ last).length)
  generalize wordHead (before ++ last) (before ++ last).length = head at cases_ ⊢
  have behind : ∀ i, before.length ≤ i → (before ++ last)[i]? ≠ some space := by
    intro i from_ separator
    rw [List.getElem?_append_right from_] at separator
    exact plain (List.mem_of_getElem? separator)
  by_cases empty : last = []
  · subst empty
    rw [List.append_nil] at *
    rcases cases_ with ⟨reached, within, run⟩ | ⟨-, here, -⟩
    · have pos := run.nonempty
      have inside := run.inside
      refine absurd ?_ (run.other (before.length - 1) (by omega) (by omega))
      exact boundary.resolve_left (by omega)
    · exact here
  · have run : IsRun space (before ++ last) before.length (before ++ last).length := by
      refine ⟨?_, le_rfl, fun i from_ _ => behind i from_, boundary, .inl rfl⟩
      rw [List.length_append]
      have := List.length_pos_of_ne_nil empty
      omega
    rcases cases_ with ⟨reached, ends, found⟩ | ⟨no_word, -⟩
    · exact (run.unique found run.nonempty.le le_rfl reached ends).1.symm
    · exact absurd (no_word _ _ run run.nonempty.le) (lt_irrefl _)

end

/-! ## The way of the words -/

section
variable {libc : Libc} {cmdset : CommandSet φ}

/-- It is the way `command_execute` takes. -/
theorem executeLoop_found (line : List Byte) (i : Nat) (argv : List (Option (List Byte)))
    (pos : Option Nat) (words : List (List Byte)) :
    (executeLoop libc cmdset line i argv pos words).2 = matchNodeLoop libc cmdset i pos words := by
  induction words generalizing i argv pos with
  | nil => rfl
  | cons word words ih =>
      rw [executeLoop, matchNodeLoop]
      split
      · rfl
      · cases commandMatchUniqueExact libc cmdset i word with
        | none => rfl
        | some node =>
            dsimp only
            split
            · rfl
            · exact ih node _ (some node)

variable (libc cmdset) in
theorem commandExecute_func (line : List Byte) :
    (commandExecute libc cmdset line).map Prod.fst =
      (matchNodeLoop libc cmdset CommandSet.root none
        (strsepTokens commandWordDelimiters line)).bind fun node => (cmdset.node node).func := by
  rw [commandExecute, ← executeLoop_found line CommandSet.root [] none]
  generalize executeLoop libc cmdset line CommandSet.root [] none _ = r
  obtain ⟨argv, found⟩ := r
  cases found with
  | none => rfl
  | some node =>
      rw [Option.bind_some, Option.map_map]
      exact congrFun Option.map_id _

/-- An empty word at the end is nothing. -/
theorem matchNodeLoop_concat_nil (i : Nat) (pos : Option Nat) (words : List (List Byte)) :
    matchNodeLoop libc cmdset i pos (words ++ [[]]) = matchNodeLoop libc cmdset i pos words := by
  induction words generalizing i pos with
  | nil => rfl
  | cons word words ih =>
      rw [List.cons_append, matchNodeLoop, matchNodeLoop]
      simp only [ih]

/-- Where there is a word, it does not matter what there was before. -/
theorem matchNodeLoop_of_word {word : List Byte} (named : word ≠ []) (i : Nat)
    (pos pos' : Option Nat) (words : List (List Byte)) :
    matchNodeLoop libc cmdset i pos (word :: words) =
      matchNodeLoop libc cmdset i pos' (word :: words) := by
  rw [matchNodeLoop, matchNodeLoop, if_neg named, if_neg named]

end

/-! ## Words of commands -/

/-- The parts of a specification are words. -/
theorem word_of_mem_extendPaths {levels : List (List (List Byte))} {before : List (List (List Byte))}
    (whole : ∀ subwords ∈ levels, ∀ subword ∈ subwords, space ∉ subword)
    (words : ∀ ws ∈ before, ∀ word ∈ ws, word ≠ [] ∧ space ∉ word) :
    ∀ ws ∈ levels.foldl extendPaths before, ∀ word ∈ ws, word ≠ [] ∧ space ∉ word := by
  induction levels generalizing before with
  | nil => exact words
  | cons subwords levels ih =>
      obtain ⟨first, others⟩ := List.forall_mem_cons.mp whole
      rw [List.foldl_cons]
      refine ih others ?_
      intro ws mem word inside
      obtain ⟨subword, there, mem⟩ := List.mem_flatMap.mp mem
      obtain ⟨ws, old, rfl⟩ := List.mem_map.mp mem
      rw [extendPath] at inside
      split at inside
      · exact words ws old word inside
      · rename_i named
        rcases List.mem_append.mp inside with inside | inside
        · exact words ws old word inside
        · rw [List.mem_singleton.mp inside]
          exact ⟨named, first subword there⟩

theorem ChildWord.word {specs : List (CommandHeader φ)} {ws : List (List Byte)} {word : List Byte}
    (h : ChildWord specs ws word) : word ≠ [] ∧ space ∉ word := by
  obtain ⟨spec, -, full, mem, onWay⟩ := h
  refine word_of_mem_extendPaths ?_ (by simp) full mem word
    (onWay.subset (List.mem_append_right ws List.mem_cons_self))
  intro subwords there
  obtain ⟨token, inside, rfl⟩ := List.mem_map.mp there
  refine subwordsOf_whole fun separator => ?_
  exact (mem_of_mem_strsepTokens inside separator).2 List.mem_cons_self

section
variable {libc : Libc} {Q : CommandSet φ → Prop} {cmdset : CommandSet φ}
  {paths : List (List (List Byte))} {i node : Nat} {p q : List (List Byte)} {last : List Byte}

/-- Behind words that lead to a node, one more word is looked for among its children. -/
theorem Listed.matchNodeLoop_concat (h : Listed Q cmdset paths) (here : PathAt paths i q)
    {words : List (List Byte)} (named : ∀ word ∈ words, word ≠ [])
    (found : matchNodeLoop libc cmdset i (some i) words = some node) (there : PathAt paths node p)
    (goesOn : GoesOn p) {word : List Byte} (some_ : word ≠ []) (pos : Option Nat) :
    matchNodeLoop libc cmdset i pos (words ++ [word]) =
      commandMatchUniqueExact libc cmdset node word := by
  induction words generalizing i q pos with
  | nil =>
      rcases found with ⟨⟩
      rw [List.nil_append, matchNodeLoop, if_neg some_]
      cases commandMatchUniqueExact libc cmdset node word with
      | none => rfl
      | some child => exact ite_self _
  | cons first words ih =>
      obtain ⟨some_first, named⟩ := List.forall_mem_cons.mp named
      rw [matchNodeLoop, if_neg some_first] at found
      rw [List.cons_append, matchNodeLoop, if_neg some_first]
      cases match_ : commandMatchUniqueExact libc cmdset i first with
      | none =>
          rw [match_] at found
          cases found
      | some child =>
          have below := h.found_at here match_
          simp only [match_] at found ⊢
          split at found
          · rename_i whole
            rcases found with ⟨⟩
            -- the way has ended before
            refine absurd whole (goesOn _ ?_)
            rw [there.eq below, List.getLast?_concat]
          · rename_i single
            rw [if_neg single]
            exact ih below named found _

/-- Behind a word for the rest of the line, nothing more is looked for. -/
theorem Listed.matchNodeLoop_ended (h : Listed Q cmdset paths) (here : PathAt paths i q)
    {words : List (List Byte)} (goesOn : GoesOn q)
    (found : matchNodeLoop libc cmdset i (some i) words = some node) (there : PathAt paths node p)
    (ended : ¬GoesOn p) (more : List (List Byte)) (pos : Option Nat) :
    matchNodeLoop libc cmdset i pos (words ++ more) = some node := by
  induction words generalizing i q pos with
  | nil =>
      rcases found with ⟨⟩
      exact absurd (here.eq there ▸ goesOn) ended
  | cons first words ih =>
      rw [matchNodeLoop] at found
      rw [List.cons_append, matchNodeLoop]
      split at found
      · rcases found with ⟨⟩
        exact absurd (here.eq there ▸ goesOn) ended
      · rename_i named
        rw [if_neg named]
        cases match_ : commandMatchUniqueExact libc cmdset i first with
        | none =>
            rw [match_] at found
            cases found
        | some child =>
            have below := h.found_at here match_
            simp only [match_] at found ⊢
            split at found
            · rename_i whole
              rw [if_pos whole]
              exact found
            · rename_i single
              rw [if_neg single]
              refine ih below (fun word last => ?_) found _
              rw [List.getLast?_concat, Option.some_inj] at last
              exact last ▸ single

/-! ## What is listed -/

theorem listedWords_append (listing listing' : List Listing) :
    listedWords (listing ++ listing') = listedWords listing ++ listedWords listing' :=
  List.filterMap_append

theorem listedWords_listingOf (node : CommandNode φ) (last : List Byte) :
    listedWords (listingOf libc node last) =
      if isCommandMatch libc node.cmdstr last then [node.cmdstr] else [] := by
  rw [listingOf]
  split <;> split <;> rfl

theorem listedWords_listingAt (node : Nat) (atHead : Bool) (last : List Byte) :
    listedWords (listingAt libc cmdset node atHead last) =
      ((cmdset.node node).cmdvec.map fun child => (cmdset.node child).cmdstr).filter
        (isCommandMatch libc · last) := by
  rw [listingAt, listedWords_append]
  have first : listedWords (if atHead ∧ (cmdset.node node).func.isSome then
      [.cr (cmdset.node node).helpstr] else []) = [] := by
    split <;> rfl
  rw [first, List.nil_append]
  induction (cmdset.node node).cmdvec with
  | nil => rfl
  | cons child cmdvec ih =>
      rw [List.flatMap_cons, listedWords_append, ih, listedWords_listingOf, List.map_cons,
        List.filter_cons]
      split <;> rfl

theorem cr_mem_listingAt (node : Nat) (atHead : Bool) (last : List Byte) :
    (∃ helpstr, .cr helpstr ∈ listingAt libc cmdset node atHead last) ↔
      atHead ∧ (cmdset.node node).func.isSome := by
  have none_ : ∀ helpstr, .cr helpstr ∉ (cmdset.node node).cmdvec.flatMap
      fun child => listingOf libc (cmdset.node child) last := by
    intro helpstr mem
    obtain ⟨child, -, mem⟩ := List.mem_flatMap.mp mem
    rcases List.mem_append.mp mem with mem | mem <;> split at mem <;> simp at mem
  simp only [listingAt, List.mem_append, none_, or_false]
  split
  · rename_i shown
    simp [shown]
  · rename_i hidden
    simp [hidden]

theorem Listed.mem_listedWords (h : Listed Q cmdset paths) (here : PathAt paths node p)
    (atHead : Bool) (last : List Byte) {word : List Byte} :
    word ∈ listedWords (listingAt libc cmdset node atHead last) ↔
      p ++ [word] ∈ paths ∧ isCommandMatch libc word last := by
  rw [listedWords_listingAt, List.mem_filter, List.mem_map, h.child_iff here]

theorem Listed.nodup_listedWords (h : Listed Q cmdset paths) (here : PathAt paths node p)
    (atHead : Bool) (last : List Byte) :
    (listedWords (listingAt libc cmdset node atHead last)).Nodup := by
  rw [listedWords_listingAt]
  have inside := h.lists.lt_size here
  refine List.Nodup.filter _ (List.Nodup.map_on ?_ (h.nodup node inside))
  intro child mem child' mem' same
  exact h.lists.addressed.siblings inside mem mem' same

theorem strsepTokens_concat {words : List (List Byte)} (whole : ∀ word ∈ words, space ∉ word)
    (plain : space ∉ last) :
    strsepTokens commandWordDelimiters ([space].intercalate (words ++ [last])) = words ++ [last] := by
  refine strsepTokens_intercalate ?_ (List.append_ne_nil_of_right_ne_nil words (List.cons_ne_nil _ _))
  intro word mem
  rcases List.mem_append.mp mem with mem | mem
  · exact whole word mem
  · exact List.mem_singleton.mp mem ▸ plain

variable (libc cmdset) in
/-- The words before lead to a node; the one at the end says what of it is listed. -/
theorem commandShellListing_eq {e : Editor} {words : List (List Byte)}
    (whole : ∀ word ∈ words, space ∉ word) (plain : space ∉ last)
    (h : e.Holds ⟨[space].intercalate (words ++ [last]), []⟩) :
    commandShellListing libc cmdset e =
      .ok (match matchNodeLoop libc cmdset CommandSet.root (some CommandSet.root) words with
        | some node => listingAt libc cmdset node (last = []) last
        | none => []) := by
  have text := intercalate_concat words last
  have head : wordHead ([space].intercalate (words ++ [last]))
      ([space].intercalate (words ++ [last])).length =
        ([space].intercalate (words ++ [[]])).length := wordHead_concat plain
  have tokens := strsepTokens_concat whole (List.not_mem_nil (a := space))
  have found := h.shellWordHead_eq (Nat.le_refl _)
  have cursor := h.cursor
  have line := h.stringAt (Nat.zero_le _)
  simp only [Line.text, List.append_nil] at found cursor line
  rw [head] at found
  generalize [space].intercalate (words ++ [[]]) = before at text tokens found
  have inside : before.length ≤ (before ++ last).length := by simp
  have behind := h.stringAt (i := before.length) (by simp [Line.text, text])
  simp only [Line.text, List.append_nil, text] at behind found cursor line
  have atHead : ((before.length : Int) = (before ++ last).length) ↔ last = [] := by
    rw [Nat.cast_inj, List.length_append, Nat.left_eq_add, List.length_eq_zero_iff]
  rw [commandShellListing, cursor, found]
  simp only [bind, Except.bind, pure, Except.pure, Int.toNat_natCast, behind, cursor, atHead,
    commandMatchNode]
  rw [show (e.stringAt 0).octets = before ++ last from line, List.take_left, tokens,
    matchNodeLoop_concat_nil, List.drop_left]

/-! ## What is executed -/

section
variable {table : List (List Byte) → Option φ} {words : List (List Byte)}
  (funcs : ∀ node ws, PathAt paths node ws → (cmdset.node node).func = table ws)
  (plain : ∀ word ∈ words, word ≠ [] ∧ space ∉ word)

include funcs plain

/-- Enter behind the words calls the function there. -/
theorem execute_words {found : Option (List (List Byte))} (at_ : FoundAt paths
    (matchNodeLoop libc cmdset CommandSet.root (some CommandSet.root) words) found)
    (some_ : words ≠ []) :
    (commandExecute libc cmdset ([space].intercalate words)).map Prod.fst = found.bind table := by
  have tokens : strsepTokens commandWordDelimiters ([space].intercalate words) = words :=
    strsepTokens_intercalate (fun word mem => (plain word mem).2) some_
  rw [commandExecute_func, tokens]
  obtain ⟨first, words, rfl⟩ := List.exists_cons_of_ne_nil some_
  rw [matchNodeLoop_of_word (plain first List.mem_cons_self).1 _ none (some CommandSet.root)]
  generalize matchNodeLoop libc cmdset CommandSet.root (some CommandSet.root) (first :: words) = pos
    at at_ ⊢
  cases at_ with
  | none => rfl
  | some there => exact funcs _ _ there

variable (h : Listed Q cmdset paths) (there : PathAt paths node p) (goesOn : GoesOn p)
  (pos : matchNodeLoop libc cmdset CommandSet.root (some CommandSet.root) words = some node)

include h there goesOn pos

/-- Enter behind one more word calls the function of the child it finds. -/
theorem execute_concat {word : List Byte} (some_ : word ≠ []) (whole : space ∉ word) :
    (commandExecute libc cmdset ([space].intercalate (words ++ [word]))).map Prod.fst =
      (commandMatchUniqueExact libc cmdset node word).bind fun child =>
        table (p ++ [(cmdset.node child).cmdstr]) := by
  have root : PathAt paths CommandSet.root [] := h.lists.root
  rw [commandExecute_func, strsepTokens_concat (fun word mem => (plain word mem).2) whole,
    h.matchNodeLoop_concat root (fun word mem => (plain word mem).1) pos there goesOn some_]
  cases match_ : commandMatchUniqueExact libc cmdset node word with
  | none => rfl
  | some child => exact funcs _ _ (h.found_at there match_)

omit goesOn in
/-- Behind a word for the rest of the line, Enter calls the function of that command. -/
theorem execute_ended (ended : ¬GoesOn p) {word : List Byte} (whole : space ∉ word) :
    (commandExecute libc cmdset ([space].intercalate (words ++ [word]))).map Prod.fst = table p := by
  have root : PathAt paths CommandSet.root [] := h.lists.root
  have start : GoesOn [] := fun _ last => by cases last
  rw [commandExecute_func, strsepTokens_concat (fun word mem => (plain word mem).2) whole,
    h.matchNodeLoop_ended root start pos there ended]
  exact funcs _ _ there

/-- A word that is listed can be typed. -/
theorem execute_listed {atHead : Bool} {x : List Byte} (some_ : x ≠ []) (whole : space ∉ x)
    (mem : x ∈ listedWords (listingAt libc cmdset node atHead last)) :
    (commandExecute libc cmdset ([space].intercalate (words ++ [x]))).map Prod.fst =
      table (p ++ [x]) := by
  obtain ⟨child, below, rfl⟩ := (h.child_iff there).mp ((h.mem_listedWords there _ _).mp mem).1
  rw [execute_concat funcs plain h there goesOn pos some_ whole,
    commandMatchUniqueExact_child h.lists.addressed (h.lists.lt_size there) below]
  rfl

/-- A word that is taken is listed. -/
theorem listed_of_execute (some_ : last ≠ []) (whole : space ∉ last) {func : φ}
    {argv : List (Option (List Byte))}
    (called : commandExecute libc cmdset ([space].intercalate (words ++ [last])) =
      some (func, argv)) (atHead : Bool) :
    ∃ x ∈ listedWords (listingAt libc cmdset node atHead last), table (p ++ [x]) = some func := by
  have called := congrArg (Option.map Prod.fst) called
  rw [execute_concat funcs plain h there goesOn pos some_ whole] at called
  obtain ⟨child, match_, here⟩ := Option.bind_eq_some_iff.mp called
  obtain ⟨below, takes⟩ := match_of_commandMatchUniqueExact match_
  exact ⟨_, (h.mem_listedWords there _ _).mpr ⟨(h.lists.child there below).mem, takes⟩, here⟩

end

end

/-! ## `?` and Enter -/

end Sdplane
