import Sdplane.Misc.CommonPrefix
import Sdplane.Zcmdsh.VariableMatch

/-!
# Completion

What `command_complete` (`command.c:22-31`, `825-895`) inserts behind a word. The rest of a
string begins at the length of the word, in the string of the node that was found or in what
the candidates have in common. `is_command_node_variable` leaves out `<WORD>` and `A.B.C.D/M`,
which are completed like keywords.
-/

namespace Sdplane

variable {φ : Type} (libc : Libc) (cmdset : CommandSet φ)

/-- `strcommon`; no octet of a string is the NUL behind the other one. -/
def strcommon (dest src : List Byte) : List Byte :=
  dest.take (((List.range dest.length).find? fun i => dest[i]? ≠ src[i]?).getD dest.length)

/-- `is_command_node_variable`. -/
def isCommandNodeVariable (spec : List Byte) : Bool :=
  ipv4Spec spec || rangeSpec libc spec || doubleSpec spec || fileSpec spec || lineSpec spec ||
    varSpec spec

/-- `sizeof (common)`, and of `retbuf`. -/
def sizeofCompletion : Nat := 64

/-- A round of `command_complete_common`: `nmatch` and `common`. What fills `common` has no NUL. -/
def commonRound (word : List Byte) (found : Nat × List Byte) (node : Nat) :
    Except Stop (Nat × List Byte) :=
  let cmdstr := (cmdset.node node).cmdstr
  if isCommandNodeVariable libc cmdstr then .ok found
  else if word.isPrefixOf cmdstr then
    if found.1 = 0 then
      if sizeofCompletion ≤ cmdstr.length then .error .overrun else .ok (1, cmdstr)
    else .ok (found.1 + 1, strcommon found.2 cmdstr)
  else .ok found

/-- `command_complete_common`; `common` was cleared, so that NULs follow its string. -/
def commandCompleteCommon (word : List Byte) (parent : Nat) : Except Stop (List Byte) := do
  let (_, common) ← (cmdset.node parent).cmdvec.foldlM (commonRound libc cmdset word) (0, [])
  if sizeofCompletion ≤ word.length then .error .overrun else .ok (common.drop word.length)

/-- The loop of `command_complete`: the parent, the word no node was found for, and otherwise
    the last node with the word that found it. -/
def completeLoop : Nat → Option (Nat × List Byte) → List (List Byte) →
    Nat × Option (List Byte) × Option (Nat × List Byte)
  | parent, found, [] => (parent, none, found)
  | parent, _, word :: words =>
      match commandMatchUniqueExact libc cmdset parent word with
      | none => (parent, some word, none)
      | some node => completeLoop node (some (node, word)) words

/-- `snprintf (retbuf, sizeof (retbuf), "%s", ...)`. -/
def retbufOf (text : List Byte) : List Byte := text.take (sizeofCompletion - 1)

/-- `&match->cmdstr[strlen (matched)]`, which is a string up to the NUL. -/
def restOf (cmdstr matched : List Byte) : Except Stop (List Byte) :=
  if cmdstr.length < matched.length then .error .overrun else .ok (cmdstr.drop matched.length)

/-- `command_complete`; `fileComplete` is what `file_complete` finds. -/
def commandComplete (fileComplete : List Byte → Option (List Byte)) (line : List Byte)
    (point : Nat) : Except Stop (List Byte) :=
  if line.length < point then .error .overrun else
    match completeLoop libc cmdset CommandSet.root none
        (strsepTokens commandWordDelimiters (line.take point)) with
    | (_, _, some (node, matched)) =>
        let cmdstr := (cmdset.node node).cmdstr
        if ¬ isCommandNodeVariable libc cmdstr then do
          let rest ← restOf cmdstr matched
          .ok (retbufOf (rest ++ [space]))
        else if fileSpec cmdstr then .ok (retbufOf ((fileComplete matched).getD []))
        else .ok []
    | (parent, some word, none) => do
        let common ← commandCompleteCommon libc cmdset word parent
        .ok (retbufOf common)
    | (_, none, none) => .ok []

/-! ## What is completed -/

/-- The node the words lead to, one after another. -/
def descend (parent : Nat) (words : List (List Byte)) : Option Nat :=
  words.foldlM (commandMatchUniqueExact libc cmdset) parent

/-- The strings of the children that begin with the word. -/
def beginnings (parent : Nat) (word : List Byte) : List (List Byte) :=
  ((cmdset.node parent).cmdvec.map fun node => (cmdset.node node).cmdstr).filter (word.isPrefixOf ·)

/-- The keywords among them. -/
def keywordsFrom (parent : Nat) (word : List Byte) : List (List Byte) :=
  (beginnings cmdset parent word).filter fun spec => !isVariableSpec libc spec

/-- The variables `is_command_node_variable` leaves out. -/
def mistakenSpec (spec : List Byte) : Bool := ipv4PrefixSpec spec || wordSpec spec

/-- The variables among them that are taken for keywords. -/
def mistakenFrom (parent : Nat) (word : List Byte) : List (List Byte) :=
  (beginnings cmdset parent word).filter mistakenSpec

/-- Only keywords are completed: by the rest of the one that is found and a space, or by what the
    candidates have in common behind the word. -/
def CompletesKeywords (fileComplete : List Byte → Option (List Byte)) (parent : Nat)
    (word : List Byte) (completion : Except Stop (List Byte)) : Prop :=
  match commandMatchUniqueExact libc cmdset parent word with
  | some node =>
      let cmdstr := (cmdset.node node).cmdstr
      completion = .ok (
        if fileSpec cmdstr then retbufOf ((fileComplete word).getD [])
        else if isVariableSpec libc cmdstr then []
        else cmdstr.drop word.length ++ [space])
  | none => completion = .ok (extension word (keywordsFrom libc cmdset parent word))

/-- The node that is found is no `<WORD>` or `A.B.C.D/M`; where none is, the word is shorter than
    the buffer, and these do not change what the candidates have in common. -/
def HarmlesslyMistaken (parent : Nat) (word : List Byte) : Prop :=
  match commandMatchUniqueExact libc cmdset parent word with
  | some node => mistakenSpec (cmdset.node node).cmdstr = false
  | none => word.length < sizeofCompletion ∧
      (mistakenFrom cmdset parent word = [] ∨
        keywordsFrom libc cmdset parent word ≠ [] ∧
          (∀ spec ∈ mistakenFrom cmdset parent word,
            commonPrefix (keywordsFrom libc cmdset parent word) <+: spec) ∨
        keywordsFrom libc cmdset parent word = [] ∧
          commonPrefix (mistakenFrom cmdset parent word) = word)

variable {libc : Libc} {cmdset : CommandSet φ}

/-! ## The candidates -/

theorem strcommon_eq (dest src : List Byte) : strcommon dest src = common dest src := by
  induction dest generalizing src with
  | nil =>
      rw [common.eq_def]
      rfl
  | cons d dest ih =>
      rw [strcommon, List.length_cons, List.range_succ_eq_map, List.find?_cons]
      cases src with
      | nil => rfl
      | cons b src =>
          rw [common]
          by_cases same : d = b
          · have later : ((fun i => decide ((d :: dest)[i]? ≠ (b :: src)[i]?)) ∘ Nat.succ) =
                fun i => decide (dest[i]? ≠ src[i]?) := by
              funext i
              simp
            have first : decide ((d :: dest)[0]? ≠ (b :: src)[0]?) = false := by simp [same]
            rw [first, List.find?_map, later, if_pos same, ← ih src, strcommon]
            cases (List.range dest.length).find? fun i => decide (dest[i]? ≠ src[i]?) <;> rfl
          · have first : decide ((d :: dest)[0]? ≠ (b :: src)[0]?) = true := by simp [same]
            rw [first, if_neg same]
            rfl

theorem retbufOf_of_short {text : List Byte} (short : text.length < sizeofCompletion) :
    retbufOf text = text :=
  List.take_of_length_le (Nat.le_sub_one_of_lt short)

/-- The rest of a string with a space is never empty. -/
theorem restOf_ne_nil (cmdstr word : List Byte) :
    (restOf cmdstr word).map (fun rest => retbufOf (rest ++ [space])) ≠ .ok [] := by
  unfold restOf
  split
  · rintro ⟨⟩
  · intro empty
    have none : (retbufOf (cmdstr.drop word.length ++ [space])).length = 0 :=
      congrArg List.length (Except.ok.inj empty)
    rw [retbufOf, List.length_take, List.length_append, List.length_singleton,
      sizeofCompletion] at none
    omega

/-- The rest of a string that begins with the word, and a space. -/
theorem restOf_prefix {cmdstr word : List Byte} (begins : word <+: cmdstr)
    (short : cmdstr.length < 63) :
    (restOf cmdstr word).map (fun rest => retbufOf (rest ++ [space])) =
      .ok (cmdstr.drop word.length ++ [space]) := by
  have fits : (cmdstr.drop word.length ++ [space]).length < sizeofCompletion := by
    rw [List.length_append, List.length_drop, List.length_singleton, sizeofCompletion]
    omega
  rw [restOf, if_neg (Nat.not_lt.mpr begins.length_le), Except.map, retbufOf_of_short fits]

/-- What is left out of the variables. -/
theorem isCommandNodeVariable_eq (spec : List Byte) :
    isCommandNodeVariable libc spec = (isVariableSpec libc spec && !mistakenSpec spec) := by
  by_cases word : spec = litString "<WORD>"
  · rw [word]
    rfl
  · by_cases pfx : spec = litString "A.B.C.D/M"
    · rw [pfx]
      rfl
    · simp [isCommandNodeVariable, isVariableSpec, mistakenSpec, ipv4PrefixSpec, wordSpec, word, pfx]

theorem isVariableSpec_of_mistaken {spec : List Byte} (mistaken : mistakenSpec spec) :
    isVariableSpec libc spec := by
  rcases (Bool.or_eq_true _ _).mp mistaken with pfx | word
  · simp [isVariableSpec, pfx]
  · simp [isVariableSpec, word]

theorem length_of_mistaken {spec : List Byte} (mistaken : mistakenSpec spec) : spec.length ≤ 9 := by
  rcases (Bool.or_eq_true _ _).mp mistaken with pfx | word
  · rw [of_decide_eq_true pfx]
    decide
  · rw [of_decide_eq_true word]
    decide

theorem isVariableSpec_of_file {spec : List Byte} (file : fileSpec spec) :
    isVariableSpec libc spec := isVariableSpec_of_last (.inr file)

theorem fileSpec_of_mistaken {spec : List Byte} (mistaken : mistakenSpec spec) :
    fileSpec spec = false := by
  rcases (Bool.or_eq_true _ _).mp mistaken with pfx | word
  · rw [of_decide_eq_true pfx]
    decide
  · rw [of_decide_eq_true word]
    decide

/-- The strings `command_complete_common` looks at. -/
def candidates (libc : Libc) (cmdset : CommandSet φ) (parent : Nat) (word : List Byte) :
    List (List Byte) :=
  (beginnings cmdset parent word).filter fun spec => !isCommandNodeVariable libc spec

theorem mem_beginnings {parent : Nat} {word spec : List Byte} :
    spec ∈ beginnings cmdset parent word ↔
      (∃ node ∈ (cmdset.node parent).cmdvec, (cmdset.node node).cmdstr = spec) ∧ word <+: spec := by
  simp [beginnings]

/-- The candidates are the keywords and what is taken for one. -/
theorem mem_candidates {parent : Nat} {word spec : List Byte} :
    spec ∈ candidates libc cmdset parent word ↔
      spec ∈ keywordsFrom libc cmdset parent word ++ mistakenFrom cmdset parent word := by
  rw [List.mem_append, candidates, keywordsFrom, mistakenFrom, List.mem_filter, List.mem_filter,
    List.mem_filter, ← and_or_left, isCommandNodeVariable_eq]
  cases isVariableSpec libc spec <;> cases mistakenSpec spec <;> simp

theorem begins_of_mem {parent : Nat} {word spec : List Byte}
    (mem : spec ∈ keywordsFrom libc cmdset parent word ++ mistakenFrom cmdset parent word) :
    word <+: spec := by
  rw [← mem_candidates] at mem
  exact (mem_beginnings.mp (List.mem_filter.mp mem).1).2

/-! ## What the candidates have in common -/

/-- The number of candidates, and what they have in common. -/
theorem foldlM_commonRound (word : List Byte) (nodes : List Nat)
    (short : ∀ node ∈ nodes, isCommandNodeVariable libc (cmdset.node node).cmdstr = false →
      (cmdset.node node).cmdstr.length < sizeofCompletion) :
    nodes.foldlM (commonRound libc cmdset word) (0, []) =
      let specs := ((nodes.map fun node => (cmdset.node node).cmdstr).filter
        (word.isPrefixOf ·)).filter fun spec => !isCommandNodeVariable libc spec
      .ok (specs.length, commonPrefix specs) := by
  induction nodes using List.reverseRecOn with
  | nil => rfl
  | append_singleton nodes node ih =>
      have here := short node (List.mem_append_right nodes List.mem_cons_self)
      rw [List.foldlM_append, ih fun n mem => short n (List.mem_append_left [node] mem),
        List.map_append, List.filter_append, List.filter_append]
      generalize ((nodes.map fun node => (cmdset.node node).cmdstr).filter
        (word.isPrefixOf ·)).filter (fun spec => !isCommandNodeVariable libc spec) = specs
      rw [List.map_singleton]
      change commonRound libc cmdset word (specs.length, commonPrefix specs) node >>= pure = _
      rw [bind_pure, commonRound]
      generalize (cmdset.node node).cmdstr = cmdstr at here ⊢
      cases var : isCommandNodeVariable libc cmdstr with
      | true =>
          have none : ([cmdstr].filter (word.isPrefixOf ·)).filter
              (fun spec => !isCommandNodeVariable libc spec) = [] := by
            simp [List.filter_cons, apply_ite, var]
          rw [none, List.append_nil, if_pos rfl]
      | false =>
          rw [if_neg Bool.false_ne_true]
          cases begins : word.isPrefixOf cmdstr with
          | false =>
              have none : [cmdstr].filter (word.isPrefixOf ·) = [] := by simp [begins]
              rw [none, if_neg Bool.false_ne_true, List.filter_nil, List.append_nil]
          | true =>
              have one : ([cmdstr].filter (word.isPrefixOf ·)).filter
                  (fun spec => !isCommandNodeVariable libc spec) = [cmdstr] := by
                simp [begins, var]
              rw [one, if_pos rfl]
              dsimp only
              rw [commonPrefix_concat, strcommon_eq, List.length_append, List.length_singleton,
                if_neg (Nat.not_le.mpr (here var))]
              cases specs with
              | nil => rfl
              | cons spec specs => rfl

/-- `command_complete_common` finds what the candidates have in common behind the word. -/
theorem commandCompleteCommon_eq {word : List Byte} {parent : Nat}
    (short : ∀ node ∈ (cmdset.node parent).cmdvec,
      isVariableSpec libc (cmdset.node node).cmdstr = false →
        (cmdset.node node).cmdstr.length < sizeofCompletion) :
    commandCompleteCommon libc cmdset word parent =
      if sizeofCompletion ≤ word.length then .error .overrun
      else .ok (extension word (keywordsFrom libc cmdset parent word ++
        mistakenFrom cmdset parent word)) := by
  have small : ∀ node ∈ (cmdset.node parent).cmdvec,
      isCommandNodeVariable libc (cmdset.node node).cmdstr = false →
        (cmdset.node node).cmdstr.length < sizeofCompletion := by
    intro node child keyword
    rw [isCommandNodeVariable_eq] at keyword
    cases mistaken : mistakenSpec (cmdset.node node).cmdstr with
    | true =>
        have bound := length_of_mistaken mistaken
        rw [sizeofCompletion]
        omega
    | false =>
        rw [mistaken, Bool.not_false, Bool.and_true] at keyword
        exact short node child keyword
  have same : commonPrefix (candidates libc cmdset parent word) =
      commonPrefix (keywordsFrom libc cmdset parent word ++ mistakenFrom cmdset parent word) :=
    commonPrefix_congr fun _ => mem_candidates
  rw [commandCompleteCommon, foldlM_commonRound word _ small, extension, ← same]
  rfl

/-- What is taken for a keyword does not change the completion exactly if it is harmless. -/
theorem extension_mistaken_iff {parent : Nat} {word : List Byte} :
    extension word (keywordsFrom libc cmdset parent word ++ mistakenFrom cmdset parent word) =
        extension word (keywordsFrom libc cmdset parent word) ↔
      mistakenFrom cmdset parent word = [] ∨
        keywordsFrom libc cmdset parent word ≠ [] ∧
          (∀ spec ∈ mistakenFrom cmdset parent word,
            commonPrefix (keywordsFrom libc cmdset parent word) <+: spec) ∨
        keywordsFrom libc cmdset parent word = [] ∧
          commonPrefix (mistakenFrom cmdset parent word) = word := by
  have begin_ : ∀ spec ∈ keywordsFrom libc cmdset parent word ++ mistakenFrom cmdset parent word,
      word <+: spec := fun _ => begins_of_mem
  generalize keywordsFrom libc cmdset parent word = keywords at *
  generalize mistakenFrom cmdset parent word = mistaken at *
  by_cases none : mistaken = []
  · simp [none]
  · by_cases keyword : keywords = []
    · rw [keyword, List.nil_append] at begin_ ⊢
      have no_keyword : extension word ([] : List (List Byte)) = [] := List.drop_nil
      rw [no_keyword, extension_eq_nil_iff none begin_]
      simp [none]
    · rw [extension_append_iff keyword begin_]
      simp [none, keyword]

/-! ## The way to the word -/

theorem completeLoop_append {parent node : Nat} {words : List (List Byte)} {word : List Byte}
    (reached : descend libc cmdset parent words = some node) (found : Option (Nat × List Byte)) :
    completeLoop libc cmdset parent found (words ++ [word]) =
      match commandMatchUniqueExact libc cmdset node word with
      | none => (node, some word, none)
      | some match_ => (match_, none, some (match_, word)) := by
  induction words generalizing parent found with
  | nil =>
      cases reached
      rw [List.nil_append, completeLoop]
      cases commandMatchUniqueExact libc cmdset node word <;> rfl
  | cons first words ih =>
      rw [descend, List.foldlM_cons] at reached
      obtain ⟨next, here, there⟩ := Option.bind_eq_some_iff.mp reached
      rw [List.cons_append, completeLoop, here]
      exact ih there _

/-- A keyword that was found begins with the word. -/
theorem prefix_of_keyword {parent node : Nat} {word : List Byte}
    (found : commandMatchUniqueExact libc cmdset parent word = some node)
    (keyword : isVariableSpec libc (cmdset.node node).cmdstr = false) :
    word <+: (cmdset.node node).cmdstr := by
  have matched := (match_of_commandMatchUniqueExact found).2
  rcases (Bool.or_eq_true _ _).mp matched with var | begins
  · rw [isVariableSpec_of_match var] at keyword
    cases keyword
  · exact List.isPrefixOf_iff_prefix.mp begins

section
variable {fileComplete : List Byte → Option (List Byte)} {line : List Byte} {point parent : Nat}
  {words : List (List Byte)} {word : List Byte} (inside : point ≤ line.length)
  (typed : strsepTokens commandWordDelimiters (line.take point) = words ++ [word])
  (reached : descend libc cmdset CommandSet.root words = some parent)

include inside typed reached

/-- The word finds a node. -/
theorem commandComplete_found {node : Nat}
    (found : commandMatchUniqueExact libc cmdset parent word = some node) :
    commandComplete libc cmdset fileComplete line point =
      let cmdstr := (cmdset.node node).cmdstr
      if ¬ isCommandNodeVariable libc cmdstr then
        (restOf cmdstr word).map fun rest => retbufOf (rest ++ [space])
      else if fileSpec cmdstr then .ok (retbufOf ((fileComplete word).getD []))
      else .ok [] := by
  rw [commandComplete, if_neg (Nat.not_lt.mpr inside), typed, completeLoop_append reached, found]
  dsimp only
  cases restOf (cmdset.node node).cmdstr word <;> rfl

/-- The word finds none. -/
theorem commandComplete_none (found : commandMatchUniqueExact libc cmdset parent word = none) :
    commandComplete libc cmdset fileComplete line point =
      (commandCompleteCommon libc cmdset word parent).map retbufOf := by
  rw [commandComplete, if_neg (Nat.not_lt.mpr inside), typed, completeLoop_append reached, found]
  dsimp only
  cases commandCompleteCommon libc cmdset word parent <;> rfl

end

/-- Only keywords are completed, exactly if what is taken for a keyword does no harm. -/
theorem completion_iff (libc : Libc) (cmdset : CommandSet φ)
    (fileComplete : List Byte → Option (List Byte)) {line : List Byte} {point parent : Nat}
    {words : List (List Byte)} {word : List Byte} (inside : point ≤ line.length)
    (typed : strsepTokens commandWordDelimiters (line.take point) = words ++ [word])
    (reached : descend libc cmdset CommandSet.root words = some parent)
    (short : ∀ node ∈ (cmdset.node parent).cmdvec,
      isVariableSpec libc (cmdset.node node).cmdstr = false →
        (cmdset.node node).cmdstr.length < 63) :
    CompletesKeywords libc cmdset fileComplete parent word
        (commandComplete libc cmdset fileComplete line point) ↔
      HarmlesslyMistaken libc cmdset parent word := by
  unfold CompletesKeywords HarmlesslyMistaken
  cases found : commandMatchUniqueExact libc cmdset parent word with
  | some node =>
      have child := (match_of_commandMatchUniqueExact found).1
      have begins := prefix_of_keyword found
      have bound := short node child
      rw [commandComplete_found inside typed reached found]
      dsimp only
      rw [isCommandNodeVariable_eq]
      generalize (cmdset.node node).cmdstr = cmdstr at begins bound ⊢
      cases mistaken : mistakenSpec cmdstr with
      | true =>
          have var : isVariableSpec libc cmdstr := isVariableSpec_of_mistaken mistaken
          rw [var, fileSpec_of_mistaken mistaken]
          exact iff_of_false (restOf_ne_nil cmdstr word) Bool.noConfusion
      | false =>
          refine iff_of_true ?_ rfl
          rw [Bool.not_false, Bool.and_true]
          cases var : isVariableSpec libc cmdstr with
          | true => cases fileSpec cmdstr <;> rfl
          | false =>
              have file : fileSpec cmdstr = false := by
                cases file : fileSpec cmdstr with
                | true =>
                    rw [isVariableSpec_of_file file] at var
                    cases var
                | false => rfl
              rw [file]
              exact restOf_prefix (begins var) (bound var)
  | none =>
      have buffer : sizeofCompletion = 64 := rfl
      have small : ∀ node ∈ (cmdset.node parent).cmdvec,
          isVariableSpec libc (cmdset.node node).cmdstr = false →
            (cmdset.node node).cmdstr.length < sizeofCompletion := by
        intro node child keyword
        have bound := short node child keyword
        omega
      rw [commandComplete_none inside typed reached found, commandCompleteCommon_eq small]
      dsimp only
      by_cases long : sizeofCompletion ≤ word.length
      · rw [if_pos long]
        refine iff_of_false ?_ fun harmless => ?_
        · rintro ⟨⟩
        · omega
      · rw [if_neg long, ← extension_mistaken_iff, and_iff_right (Nat.not_le.mp long)]
        have fits : ∀ spec ∈ keywordsFrom libc cmdset parent word ++ mistakenFrom cmdset parent word,
            spec.length < sizeofCompletion := by
          intro spec mem
          rcases List.mem_append.mp mem with mem | mem
          · obtain ⟨mem, keyword⟩ := List.mem_filter.mp mem
            obtain ⟨⟨node, child, rfl⟩, -⟩ := mem_beginnings.mp mem
            exact small node child (by simpa using keyword)
          · have bound := length_of_mistaken (List.mem_filter.mp mem).2
            omega
        have kept := retbufOf_of_short (length_extension_lt word (by decide) fits)
        rw [Except.map, kept, Except.ok.injEq]

/-- `se` is completed to `set` and a space. -/
theorem completion_iff_set :
    CompletesKeywords quietLibc psmemSizeCommands (fun _ => none) CommandSet.root (litString "se")
      (commandComplete quietLibc psmemSizeCommands (fun _ => none) (litString "se") 2) := by
  have found : commandMatchUniqueExact quietLibc psmemSizeCommands CommandSet.root
      (litString "se") = some 1 := by decide +kernel
  have harmless : HarmlesslyMistaken quietLibc psmemSizeCommands CommandSet.root
      (litString "se") := by
    rw [HarmlesslyMistaken, found]
    decide +kernel
  have typed : strsepTokens commandWordDelimiters ((litString "se").take 2) =
      [] ++ [litString "se"] := by decide +kernel
  exact (completion_iff quietLibc psmemSizeCommands (fun _ => none) (by decide) typed rfl
    (by decide +kernel)).mpr harmless

/-- A value of three letters is completed by what follows them in `<WORD>`. -/
theorem completion_not :
    ¬ ∀ (libc : Libc) (cmdset : CommandSet Unit) (fileComplete : List Byte → Option (List Byte))
      (line : List Byte) (point parent : Nat) (words : List (List Byte)) (word : List Byte),
      point ≤ line.length →
        strsepTokens commandWordDelimiters (line.take point) = words ++ [word] →
          descend libc cmdset CommandSet.root words = some parent →
            (∀ node ∈ (cmdset.node parent).cmdvec,
              isVariableSpec libc (cmdset.node node).cmdstr = false →
                (cmdset.node node).cmdstr.length < 63) →
              CompletesKeywords libc cmdset fileComplete parent word
                (commandComplete libc cmdset fileComplete line point) := by
  intro all
  have typed := all quietLibc psmemSizeCommands (fun _ => none)
    (litString "set nettlp psmem-size abc") 25 3
    [litString "set", litString "nettlp", litString "psmem-size"] (litString "abc") (by decide)
    (by decide +kernel) (by decide +kernel) (by decide +kernel)
  have found : commandMatchUniqueExact quietLibc psmemSizeCommands 3 (litString "abc") = some 4 := by
    decide +kernel
  rw [CompletesKeywords, found] at typed
  revert typed
  decide +kernel

end Sdplane
