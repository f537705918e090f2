import Sdplane.Zcmdsh.SortedChildren

/-!
# Where the strings of the nodes are

`command_install2` has `strdup` copy the line of a command and makes strings of its words in
place (`command.c:632-666`). The string of a node is the subword for which the node was made, in
the block of the first command that comes by its path; nodes that one subword has below several
others have one string.
-/

namespace Sdplane

variable {φ : Type}

/-! ## Tokens in their string -/

/-- The token is in the string, from this place on. -/
def Spells (s : List Byte) (place : Nat) (token : List Byte) : Prop :=
  ∃ before after, s = before ++ token ++ after ∧ before.length = place

namespace Spells

variable {s t token : List Byte} {place place' : Nat}

theorem within (h : Spells s place token) : place + token.length ≤ s.length := by
  obtain ⟨before, after, rfl, rfl⟩ := h
  rw [List.length_append, List.length_append]
  exact Nat.le_add_right _ _

theorem cons (h : Spells s place token) (b : Byte) : Spells (b :: s) (place + 1) token := by
  obtain ⟨before, after, rfl, rfl⟩ := h
  exact ⟨b :: before, after, rfl, rfl⟩

theorem trans (h : Spells s place t) (h' : Spells t place' token) :
    Spells s (place + place') token := by
  obtain ⟨before, after, rfl, rfl⟩ := h
  obtain ⟨before', after', rfl, rfl⟩ := h'
  refine ⟨before ++ before', after' ++ after, ?_, List.length_append⟩
  simp only [List.append_assoc]

end Spells

/-- Tokens with their places, where the first is at `start` and one delimiter follows each. -/
def placeTokens (start : Nat) : List (List Byte) → List (Nat × List Byte)
  | [] => []
  | token :: tokens => (start, token) :: placeTokens (start + token.length + 1) tokens

@[simp] theorem map_snd_placeTokens (start : Nat) (tokens : List (List Byte)) :
    (placeTokens start tokens).map Prod.snd = tokens := by
  induction tokens generalizing start with
  | nil => rfl
  | cons token tokens ih => rw [placeTokens, List.map_cons, ih]

theorem spells_of_mem_placeTokens {delim s : List Byte} {start place : Nat} {token : List Byte}
    (mem : (place, token) ∈ placeTokens start (strsepTokens delim s)) :
    ∃ k, place = start + k ∧ Spells s k token := by
  induction s generalizing start place token with
  | nil =>
      obtain ⟨rfl, rfl⟩ := Prod.mk.inj (List.mem_singleton.mp mem)
      exact ⟨0, rfl, [], [], rfl, rfl⟩
  | cons b s ih =>
      have later : (place, token) ∈ placeTokens (start + 1) (strsepTokens delim s) →
          ∃ k, place = start + k ∧ Spells (b :: s) k token := by
        intro mem
        obtain ⟨k, rfl, spells⟩ := ih mem
        exact ⟨k + 1, by omega, spells.cons b⟩
      rw [strsepTokens, List.splitOnP_cons_eq_if_modifyHead] at mem
      by_cases sep : delim.contains b
      · rw [if_pos sep] at mem
        rcases List.mem_cons.mp mem with here | mem
        · obtain ⟨rfl, rfl⟩ := Prod.mk.inj here
          exact ⟨0, rfl, [], b :: s, rfl, rfl⟩
        · exact later mem
      · rw [if_neg sep] at mem
        change (place, token) ∈ placeTokens start ((strsepTokens delim s).modifyHead (List.cons b))
          at mem
        cases tokens : strsepTokens delim s with
        | nil => exact absurd tokens (strsepTokens_ne_nil delim s)
        | cons t ts =>
            rw [tokens] at mem later ih
            rw [List.modifyHead_cons, placeTokens] at mem
            rcases List.mem_cons.mp mem with here | mem
            · -- the token is one that begins behind its first octet, and that octet
              obtain ⟨rfl, rfl⟩ := Prod.mk.inj here
              have head : (0, t) ∈ placeTokens 0 (t :: ts) := List.mem_cons_self
              obtain ⟨k, first, before, after, rfl, rfl⟩ := ih head
              have none_ : before = [] := List.length_eq_zero_iff.mp (by omega)
              subst none_
              exact ⟨0, rfl, [], after, rfl, rfl⟩
            · refine later (List.mem_cons_of_mem _ ?_)
              have same : start + (b :: t).length + 1 = start + 1 + t.length + 1 := by
                rw [List.length_cons]
                omega
              rwa [same] at mem

/-! ## The subwords of a command -/

/-- Where the subwords of a word begin in it. -/
def subwordStart (word : List Byte) : Nat :=
  if word.contains (charByte '(') then (word.takeWhile (· ≠ charByte '(')).length + 1 else 0

/-- The subwords of a word that is at `start`, with their places. -/
def placeSubwords (start : Nat) (word : List Byte) : List (Nat × List Byte) :=
  placeTokens (start + subwordStart word) (subwordsOf word)

theorem spells_of_mem_placeSubwords {word subword : List Byte} {start place : Nat}
    (mem : (place, subword) ∈ placeSubwords start word) :
    ∃ k, place = start + k ∧ Spells word k subword := by
  obtain ⟨k, rfl, spells⟩ := spells_of_mem_placeTokens mem
  refine ⟨subwordStart word + k, by omega, Spells.trans ?_ spells⟩
  simp only [subwordStart, List.contains_iff_mem]
  split
  · rename_i opened
    have open_ : word.dropWhile (· ≠ charByte '(') ≠ [] := by
      intro none_
      have all := List.dropWhile_eq_nil_iff.mp none_ _ opened
      simp at all
    obtain ⟨b, rest, behind⟩ := List.exists_cons_of_ne_nil open_
    refine ⟨word.takeWhile (· ≠ charByte '(') ++ [b], rest.dropWhile (· ≠ charByte ')'), ?_,
      by simp⟩
    rw [behind, List.drop_one, List.tail_cons, List.append_assoc, List.takeWhile_append_dropWhile,
      List.append_assoc, List.singleton_append, ← behind, List.takeWhile_append_dropWhile]
  · refine ⟨[], word.dropWhile (· ≠ charByte ')'), ?_, rfl⟩
    rw [List.nil_append, List.takeWhile_append_dropWhile]

/-- The nodes that can be made on a level, with the place of their string. -/
def placeBelow (before : List (List (List Byte))) (subwords : List (Nat × List Byte)) :
    List (Nat × List (List Byte)) :=
  subwords.flatMap fun subword =>
    if subword.2 = [] then [] else before.map fun ws => (subword.1, ws ++ [subword.2])

/-- The nodes that can be made level after level, in the order of `levelPaths`. -/
def levelPlaces (before : List (List (List Byte))) :
    List (List (Nat × List Byte)) → List (Nat × List (List Byte))
  | [] => []
  | subwords :: levels =>
      placeBelow before subwords ++
        levelPlaces (extendPaths before (subwords.map Prod.snd)) levels

/-- The paths a command comes by, with the place in its line of the string that a node made there
    gets. -/
def specPlaces (commandLine : List Byte) : List (Nat × List (List Byte)) :=
  levelPlaces [[]] ((placeTokens 0 (strsepTokens commandWordDelimiters commandLine)).map
    fun word => placeSubwords word.1 word.2)

theorem mem_placeBelow {before : List (List (List Byte))} {subwords : List (Nat × List Byte)}
    {place : Nat} {path : List (List Byte)} :
    (place, path) ∈ placeBelow before subwords ↔ ∃ ws ∈ before, ∃ subword,
      (place, subword) ∈ subwords ∧ subword ≠ [] ∧ path = ws ++ [subword] := by
  rw [placeBelow, List.mem_flatMap]
  constructor
  · rintro ⟨⟨place', subword⟩, there, mem⟩
    split at mem
    · cases mem
    · rename_i named
      obtain ⟨ws, old, same⟩ := List.mem_map.mp mem
      cases same
      exact ⟨ws, old, subword, there, named, rfl⟩
  · rintro ⟨ws, old, subword, there, named, rfl⟩
    refine ⟨_, there, ?_⟩
    rw [if_neg named]
    exact List.mem_map_of_mem old

/-- The last word of a path is the subword at its place. -/
theorem spells_of_mem_levelPlaces {levels : List (List (Nat × List Byte))} {s : List Byte}
    (spelt : ∀ subwords ∈ levels, ∀ subword ∈ subwords, Spells s subword.1 subword.2)
    {before : List (List (List Byte))} {place : Nat} {path : List (List Byte)}
    (mem : (place, path) ∈ levelPlaces before levels) :
    ∃ ws word, path = ws ++ [word] ∧ Spells s place word := by
  induction levels generalizing before with
  | nil => cases mem
  | cons subwords levels ih =>
      obtain ⟨first, others⟩ := List.forall_mem_cons.mp spelt
      rcases List.mem_append.mp mem with mem | mem
      · obtain ⟨ws, -, subword, there, -, rfl⟩ := mem_placeBelow.mp mem
        exact ⟨ws, subword, rfl, first _ there⟩
      · exact ih others mem

theorem spells_of_mem_specPlaces {commandLine : List Byte} {place : Nat} {path : List (List Byte)}
    (mem : (place, path) ∈ specPlaces commandLine) :
    ∃ ws word, path = ws ++ [word] ∧ Spells commandLine place word := by
  refine spells_of_mem_levelPlaces ?_ mem
  intro subwords there subword inside
  obtain ⟨word, mem, rfl⟩ := List.mem_map.mp there
  obtain ⟨k, start, spells⟩ := spells_of_mem_placeTokens mem
  obtain ⟨k', place, spells'⟩ := spells_of_mem_placeSubwords inside
  rw [place, start, Nat.zero_add]
  exact spells.trans spells'

/-- Every path a command comes by has a place, unless it was there before. -/
theorem exists_levelPlace {levels : List (List (Nat × List Byte))}
    {before : List (List (List Byte))} {path : List (List Byte)}
    (mem : path ∈ levelPaths before (levels.map (·.map Prod.snd))) :
    path ∈ before ∨ ∃ place, (place, path) ∈ levelPlaces before levels := by
  induction levels generalizing before with
  | nil => cases mem
  | cons subwords levels ih =>
      have here : path ∈ extendPaths before (subwords.map Prod.snd) →
          path ∈ before ∨ ∃ place, (place, path) ∈ levelPlaces before (subwords :: levels) := by
        intro mem
        obtain ⟨subword, inside, mem⟩ := List.mem_flatMap.mp mem
        obtain ⟨⟨place, subword⟩, there, rfl⟩ := List.mem_map.mp inside
        obtain ⟨ws, old, rfl⟩ := List.mem_map.mp mem
        by_cases omitted : subword = []
        · left
          rw [extendPath, if_pos omitted]
          exact old
        · right
          refine ⟨place, List.mem_append_left _ (mem_placeBelow.mpr ?_)⟩
          exact ⟨ws, old, subword, there, omitted, if_neg omitted⟩
      rcases List.mem_append.mp mem with mem | mem
      · exact here mem
      · rcases ih mem with mem | ⟨place, mem⟩
        · exact here mem
        · exact .inr ⟨place, List.mem_append_right _ mem⟩

/-! ## The blocks -/

/-- A command, and the address `strdup` copies its line to. -/
structure StringBlock (φ : Type) where
  header : CommandHeader φ
  base : Nat

/-- Where in the line of a command the string of the node is that it makes at this path. -/
def wordPlace (commandLine : List Byte) (path : List (List Byte)) : Option Nat :=
  ((specPlaces commandLine).find? fun place => place.2 = path).map Prod.fst

/-- Where the string of a node at this path is, when the commands are installed in this order. -/
def stringAt (lines : List (StringBlock φ)) (path : List (List Byte)) : Nat :=
  (lines.findSome? fun line =>
    (wordPlace line.header.cmdstr path).map fun place => line.base + place).getD 0

/-- The octets of the block with the line. -/
def StringBlock.stop (line : StringBlock φ) : Nat := line.base + line.header.cmdstr.length + 1

/-- What `strdup` promises: blocks in the lower half of the address space, none at NULL, each
    aligned as `malloc` does it, and no two with an octet in common. -/
structure Blocks (lines : List (StringBlock φ)) : Prop where
  mapped : ∀ line ∈ lines, 0 < line.base ∧ line.stop ≤ 2 ^ 47
  aligned : ∀ line ∈ lines, line.base % 16 = 0
  apart : lines.Pairwise fun a b => a.stop ≤ b.base ∨ b.stop ≤ a.base

/-- The calls that install the commands. -/
def installCalls (lines : List (StringBlock φ)) : List (InstallCall φ) :=
  (lines.map StringBlock.header).map .install2

section
variable {lines : List (StringBlock φ)} {path : List (List Byte)}

theorem mem_of_wordPlace {commandLine : List Byte} {place : Nat}
    (found : wordPlace commandLine path = some place) : (place, path) ∈ specPlaces commandLine := by
  obtain ⟨⟨place, path'⟩, first, rfl⟩ := Option.map_eq_some_iff.mp found
  have own := List.find?_some first
  have same : path' = path := by simpa using own
  subst same
  exact List.mem_of_find?_eq_some first

theorem wordPlace_ne_none {header : CommandHeader φ} (some_ : path ≠ [])
    (mem : path ∈ (InstallCall.install2 header).paths) : wordPlace header.cmdstr path ≠ none := by
  have levels : (strsepTokens commandWordDelimiters header.cmdstr).map subwordsOf =
      ((placeTokens 0 (strsepTokens commandWordDelimiters header.cmdstr)).map
        fun word => placeSubwords word.1 word.2).map (·.map Prod.snd) := by
    rw [List.map_map]
    conv_lhs => rw [← map_snd_placeTokens 0 (strsepTokens _ _), List.map_map]
    refine List.map_congr_left fun word _ => ?_
    simp [placeSubwords]
  rw [InstallCall.paths, levels] at mem
  obtain ⟨place, there⟩ := (exists_levelPlace mem).resolve_left (by simpa using some_)
  intro nothing
  rw [wordPlace, Option.map_eq_none_iff, List.find?_eq_none] at nothing
  exact nothing _ there (decide_eq_true rfl)

/-- The string of a node is in the line of a command that has the path. -/
theorem stringAt_cases (lines : List (StringBlock φ)) (path : List (List Byte)) :
    ((∀ line ∈ lines, wordPlace line.header.cmdstr path = none) ∧ stringAt lines path = 0) ∨
      ∃ line ∈ lines, ∃ place, wordPlace line.header.cmdstr path = some place ∧
        stringAt lines path = line.base + place := by
  rw [stringAt]
  cases found : lines.findSome? fun line =>
      (wordPlace line.header.cmdstr path).map fun place => line.base + place with
  | none =>
      refine .inl ⟨fun line inside => ?_, rfl⟩
      exact Option.map_eq_none_iff.mp (List.findSome?_eq_none_iff.mp found line inside)
  | some addr =>
      obtain ⟨line, inside, here⟩ := List.exists_of_findSome?_eq_some found
      obtain ⟨place, first, rfl⟩ := Option.map_eq_some_iff.mp here
      exact .inr ⟨line, inside, place, first, rfl⟩

/-- At the address of a node's string is its word, in the line of some command. -/
theorem stringAt_spells (some_ : path ≠ []) (mem : path ∈ createdPaths (installCalls lines)) :
    ∃ line ∈ lines, ∃ place ws word, stringAt lines path = line.base + place ∧
      path = ws ++ [word] ∧ Spells line.header.cmdstr place word := by
  rw [createdPaths, mem_addPaths, List.mem_singleton, or_iff_right some_, List.mem_flatMap] at mem
  obtain ⟨call, called, mem⟩ := mem
  obtain ⟨header, named, rfl⟩ := List.mem_map.mp called
  obtain ⟨line, inside, rfl⟩ := List.mem_map.mp named
  rcases stringAt_cases lines path with ⟨nothing, -⟩ | ⟨line, inside, place, first, here⟩
  · exact absurd (nothing line inside) (wordPlace_ne_none some_ mem)
  · obtain ⟨ws, word, same, spells⟩ := spells_of_mem_specPlaces (mem_of_wordPlace first)
    exact ⟨line, inside, place, ws, word, here, same, spells⟩

theorem Blocks.stringAt_lt (blocks : Blocks lines) (path : List (List Byte)) :
    stringAt lines path < 2 ^ 56 := by
  rcases stringAt_cases lines path with ⟨-, zero⟩ | ⟨line, inside, place, first, here⟩
  · rw [zero]
    exact Nat.two_pow_pos 56
  · obtain ⟨ws, word, -, spells⟩ := spells_of_mem_specPlaces (mem_of_wordPlace first)
    have within := spells.within
    have low := (blocks.mapped line inside).2
    rw [StringBlock.stop] at low
    omega

/-- The words only one command has are all in its line. -/
theorem exists_line_of_own {spec : CommandHeader φ} (mem : spec ∈ lines.map StringBlock.header) :
    ∃ line ∈ lines, line.header = spec ∧ ∀ path place, wordPlace spec.cmdstr path = some place →
      (∀ other ∈ lines.map StringBlock.header, other ≠ spec → wordPlace other.cmdstr path = none) →
      stringAt lines path = line.base + place := by
  induction lines with
  | nil => cases mem
  | cons line lines ih =>
      by_cases own : line.header = spec
      · refine ⟨line, List.mem_cons_self, own, fun path place here _ => ?_⟩
        rw [stringAt, List.findSome?_cons, own, here]
        rfl
      · rw [List.map_cons, List.mem_cons, or_iff_right (Ne.symm own)] at mem
        obtain ⟨found, inside, header, at_⟩ := ih mem
        refine ⟨found, List.mem_cons_of_mem _ inside, header, fun path place here others => ?_⟩
        rw [List.map_cons, List.forall_mem_cons] at others
        have rest := at_ path place here others.2
        rw [stringAt] at rest ⊢
        rw [List.findSome?_cons, others.1 own]
        exact rest

/-- The strings of the nodes in these blocks. -/
def Blocks.places (blocks : Blocks lines) : StringPlaces where
  cmdstrAt := fun node => stringAt lines ((createdPaths (installCalls lines)).getD node [])
  userland := fun _ => blocks.stringAt_lt _

/-- What `vector_sort` compares of a node at this path. -/
def stringKey (lines : List (StringBlock φ)) (path : List (List Byte)) : List Nat :=
  strcmpKey (pointerString (stringAt lines path))

/-- Among the addresses of sixteen octets that `malloc` keeps together, the lower one comes
    first. -/
theorem pointerString_lt_of_row {base place place' : Nat} (aligned : base % 16 = 0)
    (row : place / 16 = place' / 16) (less : place < place') :
    strcmpKey (pointerString (base + place)) < strcmpKey (pointerString (base + place')) := by
  have low : (BitVec.ofNat 8 (base + place)).toNat < (BitVec.ofNat 8 (base + place')).toNat := by
    rw [BitVec.toNat_ofNat, BitVec.toNat_ofNat]
    omega
  have named : BitVec.ofNat 8 (base + place') ≠ 0 := by
    intro zero
    rw [zero] at low
    exact absurd low (Nat.not_lt_zero _)
  have second : strcmpKey (pointerString (base + place')) =
      (BitVec.ofNat 8 (base + place')).toNat ::
        strcmpKey ((toLe 7 ((base + place') / 256)).takeWhile (· ≠ 0)) := by
    rw [pointerString, toLe, List.takeWhile_cons_of_pos (by simpa using named)]
    rfl
  rw [second]
  by_cases empty : BitVec.ofNat 8 (base + place) = 0
  · rw [pointerString, toLe, List.takeWhile_cons_of_neg (by simpa using empty)]
    exact List.nil_lt_cons _ _
  · rw [pointerString, toLe, List.takeWhile_cons_of_pos (by simpa using empty)]
    exact List.cons_lt_cons_iff.mpr (.inl low)

theorem Blocks.slotKey_eq (blocks : Blocks lines) {node : Nat}
    (here : PathAt (createdPaths (installCalls lines)) node path) :
    slotKey blocks.places.cmdstrAt node = stringKey lines path := by
  rw [slotKey, stringKey, places]
  dsimp only
  rw [here.getD]

end

end Sdplane
