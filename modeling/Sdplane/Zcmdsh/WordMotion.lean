import Sdplane.Misc.Words
import Sdplane.Zcmdsh.WordBounds

/-!
# Moving over words

`shell_word_next_head` looks at the token behind the one the cursor is in. Where this one is
empty, because another space follows, the search ends, and the cursor goes to the end of the
line over the words in between.
-/

namespace Sdplane

open Words

/-- Where `shell_word_next_head` goes in a text. -/
def wordNextHead (t : List Byte) (point : Nat) : Nat :=
  (nextLoop point false 0 (t.splitOn space)).getD t.length

/-- Past the token with the cursor in it. -/
theorem nextLoop_passed {point w : Nat} {tokens : List (List Byte)} {token : List Byte}
    (start : w + tokensLength tokens ≤ point)
    (stop : point ≤ w + tokensLength tokens + token.length) (rest : List (List Byte)) :
    nextLoop point false w (tokens ++ token :: rest) =
      nextLoop point true (w + tokensLength tokens + token.length + 1) rest := by
  induction tokens generalizing w with
  | nil =>
      have here : w ≤ point ∧ point ≤ w + token.length := ⟨start, stop⟩
      simp [nextLoop, here, tokensLength]
  | cons t ts ih =>
      rw [tokensLength_cons] at start stop ⊢
      have behind : ¬(w ≤ point ∧ point ≤ w + t.length) := by omega
      have rest := @ih (w + t.length + 1) (by omega) (by omega)
      rw [List.cons_append, nextLoop, decide_eq_false behind, rest]
      congr 1
      omega

/-- The last token of a text holds the place behind its last space. -/
theorem splitOn_last {x : List Byte} {c : Nat} (hc : c ≤ x.length)
    (none : ∀ i, c ≤ i → x[i]? ≠ some space) :
    ∃ tokens token, x.splitOn space = tokens ++ [token] ∧ tokensLength tokens ≤ c ∧
      tokensLength tokens + token.length = x.length := by
  by_cases found : space ∈ x
  · obtain ⟨u, v, rfl, last⟩ := exists_last found
    have here : (u ++ space :: v)[u.length]? = some space := by simp
    have before : u.length < c := by
      by_contra behind
      exact none u.length (Nat.not_lt.mp behind) here
    have length : tokensLength (u.splitOn space) = u.length + 1 := by
      rw [← strsepTokens_singleton]
      exact tokensLength_strsepTokens [space] u
    refine ⟨u.splitOn space, v, ?_, by omega, ?_⟩
    · rw [List.splitOn_append_cons_self, List.splitOn_eq_singleton last]
    · rw [length, List.length_append, List.length_cons]
      omega
  · refine ⟨[], x, List.splitOn_eq_singleton found, Nat.zero_le _, ?_⟩
    simp [tokensLength]

/-- No space follows: to the end of the line. -/
theorem wordNextHead_of_none {t : List Byte} {c : Nat} (hc : c ≤ t.length)
    (none : ∀ i, c ≤ i → t[i]? ≠ some space) : wordNextHead t c = t.length := by
  obtain ⟨tokens, token, split, start, length⟩ := splitOn_last hc none
  rw [wordNextHead, split, nextLoop_passed (by omega) (by omega)]
  rfl

/-- The first space that follows is at `p`: behind it, unless another one follows. -/
theorem wordNextHead_of_space {t : List Byte} {c p : Nat} (hp : c ≤ p) (here : t[p]? = some space)
    (first : ∀ i, c ≤ i → i < p → t[i]? ≠ some space) :
    wordNextHead t c =
      if p + 1 < t.length ∧ t[p + 1]? ≠ some space then p + 1 else t.length := by
  obtain ⟨inside, octet⟩ := List.getElem?_eq_some_iff.mp here
  have cut : t = t.take p ++ space :: t.drop (p + 1) := by
    rw [← octet, ← List.drop_eq_getElem_cons inside, List.take_append_drop]
  have length : (t.take p).length = p := List.length_take_of_le inside.le
  have none : ∀ i, c ≤ i → (t.take p)[i]? ≠ some space := by
    intro i hi
    rcases Nat.lt_or_ge i p with before | behind
    · rw [List.getElem?_take_of_lt before]
      exact first i hi before
    · simp [List.getElem?_eq_none (show (t.take p).length ≤ i by omega)]
  obtain ⟨tokens, token, split, start, total⟩ := splitOn_last (x := t.take p) (by omega) none
  have whole : t.splitOn space = tokens ++ token :: (t.drop (p + 1)).splitOn space := by
    conv_lhs => rw [cut]
    rw [List.splitOn_append_cons_self, split]
    simp
  rw [wordNextHead, whole, nextLoop_passed (by omega) (by omega)]
  have place : 0 + tokensLength tokens + token.length + 1 = p + 1 := by omega
  rw [place]
  rcases Nat.lt_or_ge (p + 1) t.length with more | last
  · rw [List.drop_eq_getElem_cons more, List.getElem?_eq_getElem more]
    by_cases again : t[p + 1] = space
    · rw [List.splitOn_cons_eq_if_modifyHead, if_pos (by simpa using again), if_neg (by simp [again])]
      rfl
    · obtain ⟨u, us, tokens'⟩ := List.exists_cons_of_ne_nil
        (List.splitOn_ne_nil space (t.drop (p + 1 + 1)))
      rw [List.splitOn_cons_eq_if_modifyHead, if_neg (by simpa using again), tokens',
        if_pos ⟨more, by simpa using again⟩]
      rfl
  · rw [List.drop_eq_nil_of_le last, if_neg (by omega)]
    rfl

/-- From this place on, the first space is followed by no other one, or only by spaces. -/
def OneSpaceAhead (t : List Byte) (c : Nat) : Prop :=
  ∀ p, c ≤ p → t[p]? = some space → (∀ i, c ≤ i → i < p → t[i]? ≠ some space) →
    t[p + 1]? = some space → ∀ i, p < i → i < t.length → t[i]? = some space

/-- No two spaces follow each other, but at the end. -/
def SingleSpaces (t : List Byte) : Prop :=
  ∀ p, t[p]? = some space → t[p + 1]? = some space →
    ∀ i, p < i → i < t.length → t[i]? = some space

theorem SingleSpaces.ahead {t : List Byte} (h : SingleSpaces t) (c : Nat) : OneSpaceAhead t c :=
  fun p _ here _ again => h p here again

theorem singleSpaces_of_none {t : List Byte}
    (none : ∀ p < t.length, t[p]? = some space → t[p + 1]? ≠ some space) : SingleSpaces t := by
  intro p here again
  obtain ⟨inside, -⟩ := List.getElem?_eq_some_iff.mp here
  exact absurd again (none p inside here)

/-- Between a place and the first space behind it no word starts. -/
theorem not_isStart_of_first {t : List Byte} {c p i : Nat}
    (first : ∀ i, c ≤ i → i < p → t[i]? ≠ some space) (behind : c < i) (hi : i ≤ p) :
    ¬IsStart space t i := by
  intro start
  rcases start.2.2 with zero | space
  · omega
  · exact first (i - 1) (by omega) (by omega) space

/-- There is one first space. -/
theorem firstSpace_eq {t : List Byte} {c p q : Nat} (hp : c ≤ p) (here : t[p]? = some space)
    (first : ∀ i, c ≤ i → i < p → t[i]? ≠ some space) (hq : c ≤ q) (here' : t[q]? = some space)
    (first' : ∀ i, c ≤ i → i < q → t[i]? ≠ some space) : q = p := by
  rcases Nat.lt_trichotomy p q with before | same | before
  · exact absurd here (first' p hp before)
  · exact same.symm
  · exact absurd here' (first q hq before)

/-- `shell_word_next_head` finds the next start of a word exactly where one space is ahead. -/
theorem wordNextHead_eq_iff {t : List Byte} {c : Nat} (hc : c ≤ t.length) :
    wordNextHead t c = nextStart space t c ↔ OneSpaceAhead t c := by
  by_cases ahead : ∃ p, c ≤ p ∧ t[p]? = some space
  · obtain ⟨hp, here⟩ := Nat.find_spec ahead
    have first : ∀ i, c ≤ i → i < Nat.find ahead → t[i]? ≠ some space :=
      fun i hi before found => Nat.find_min ahead before ⟨hi, found⟩
    generalize Nat.find ahead = p at hp here first
    have inside := (List.getElem?_eq_some_iff.mp here).1
    rw [wordNextHead_of_space hp here first]
    by_cases next : p + 1 < t.length ∧ t[p + 1]? ≠ some space
    · -- a word starts behind the space
      have start : IsStart space t (p + 1) := ⟨next.1, next.2, .inr here⟩
      rw [if_pos next, nextStart_eq (by omega) start
        fun j hj behind => not_isStart_of_first first behind (by omega)]
      refine ⟨fun _ q hq here' first' again => ?_, fun _ => rfl⟩
      have same := firstSpace_eq hp here first hq here' first'
      exact absurd (same ▸ again) next.2
    · rw [if_neg next]
      constructor
      · intro found q hq here' first' again i behind hi
        have same := firstSpace_eq hp here first hq here' first'
        by_contra other
        obtain ⟨j, -, after, start⟩ := exists_start here' behind hi other
        have missed := nextStart_lt (show c < j by omega) start
        omega
      · intro single
        symm
        apply nextStart_eq_length
        intro i behind start
        rcases Nat.lt_or_ge p i with after | before
        · have again : t[p + 1]? = some space := by
            by_contra other
            exact next ⟨by have := start.1; omega, other⟩
          exact start.2.1 (single p hp here first again i after start.1)
        · exact not_isStart_of_first first behind before start
  · have none : ∀ i, c ≤ i → t[i]? ≠ some space := fun i hi found => ahead ⟨i, hi, found⟩
    rw [wordNextHead_of_none hc none]
    constructor
    · intro _ p hp here
      exact absurd here (none p hp)
    · intro _
      symm
      apply nextStart_eq_length
      intro i behind start
      exact not_isStart_of_first (fun i hi _ => none i hi) behind le_rfl start

theorem wordNextHead_le (t : List Byte) (c : Nat) : wordNextHead t c ≤ t.length := by
  rw [wordNextHead]
  cases found : nextLoop c false 0 (t.splitOn space) with
  | none => exact le_rfl
  | some i =>
      rw [← strsepTokens_singleton] at found
      apply nextLoop_le _ found
      rw [Nat.zero_add, tokensLength_strsepTokens]

theorem iterate_wordNextHead_le {t : List Byte} (k : Nat) {c : Nat} (hc : c ≤ t.length) :
    (wordNextHead t)^[k] c ≤ t.length := by
  induction k generalizing c with
  | zero => exact hc
  | succ k ih => exact ih (wordNextHead_le t c)

/-- From the beginning on, every later start of a word is visited once, in order, and then the
    end, exactly where there are single spaces only. -/
theorem iterate_wordNextHead_iff (t : List Byte) :
    (∀ k, (wordNextHead t)^[k + 1] 0 = (laterStarts space t)[k]?.getD t.length) ↔
      SingleSpaces t := by
  constructor
  · intro visits p here again i behind hi
    by_contra other
    have later : p + 1 < i := by
      rcases Nat.eq_or_lt_of_le (Nat.succ_le_of_lt behind) with same | later
      · exact absurd (same ▸ again) other
      · exact later
    have missed : ∃ j, p < j ∧ IsStart space t j := by
      obtain ⟨j, -, after, start⟩ := exists_start again later hi other
      exact ⟨j, by omega, start⟩
    -- the first start that is missed would be reached from before the two spaces
    obtain ⟨after, start⟩ := Nat.find_spec missed
    have first : ∀ s < Nat.find missed, p < s → ¬IsStart space t s :=
      fun s hs behind found => Nat.find_min missed hs ⟨behind, found⟩
    generalize Nat.find missed = j at after start first
    have mem := mem_laterStarts.mpr ⟨by omega, start⟩
    obtain ⟨k, place⟩ := List.getElem?_of_mem mem
    have reached := visits k
    rw [place, Option.getD_some, Function.iterate_succ_apply'] at reached
    have before : (wordNextHead t)^[k] 0 ≤ p := by
      cases k with
      | zero => exact Nat.zero_le p
      | succ k =>
          obtain ⟨inside, -⟩ := List.getElem?_eq_some_iff.mp place
          have previous := List.getElem?_eq_getElem (show k < (laterStarts space t).length by omega)
          have smaller : (laterStarts space t)[k] < j := by
            obtain ⟨_, rfl⟩ := List.getElem?_eq_some_iff.mp place
            exact List.pairwise_iff_getElem.mp (laterStarts_sorted t) k (k + 1) _ inside (by omega)
          have isStart := (mem_laterStarts.mp (List.mem_of_getElem? previous)).2
          rw [visits k, previous, Option.getD_some]
          exact Nat.not_lt.mp fun behind => first _ smaller behind isStart
    have ahead : ∃ q, (wordNextHead t)^[k] 0 ≤ q ∧ t[q]? = some space := ⟨p, before, here⟩
    obtain ⟨hq, found⟩ := Nat.find_spec ahead
    have nearest : Nat.find ahead ≤ p := Nat.find_min' ahead ⟨before, here⟩
    rw [wordNextHead_of_space hq found
      fun i hi hlt found => Nat.find_min ahead hlt ⟨hi, found⟩] at reached
    split at reached
    · have same : j = p + 1 := by omega
      exact start.2.1 (same ▸ again)
    · have inside := start.1
      omega
  · intro single k
    have same : ∀ k, (wordNextHead t)^[k] 0 = (nextStart space t)^[k] 0 := by
      intro k
      induction k with
      | zero => rfl
      | succ k ih =>
          have inside := iterate_wordNextHead_le (t := t) k (Nat.zero_le _)
          rw [Function.iterate_succ_apply', Function.iterate_succ_apply', ← ih]
          exact (wordNextHead_eq_iff inside).mpr (single.ahead _)
    rw [same, nextStart_iterate]

/-! ## The cursor -/

/-- `shell_move_word_forward` again and again. -/
def moveWordForwardTimes : Nat → Editor → Except Stop Editor
  | 0, e => .ok e
  | k + 1, e => do
      let e ← shellMoveWordForward e
      moveWordForwardTimes k e

namespace Editor.Holds

variable {e : Editor} {l : Line} (h : e.Holds l)

include h

theorem shellMoveWordForward_head :
    ∃ e', shellMoveWordForward e = .ok e' ∧
      e'.Holds (l.moveTo (wordNextHead l.text l.before.length)) := by
  have inside : l.before.length ≤ l.text.length := l.length_before_le
  have next : shellWordNextHead e.cursor e =
      .ok ((wordNextHead l.text l.before.length : Nat), e) := by
    rw [shellWordNextHead, h.cursor, h.withTokens_spec _ _ inside, Int.toNat_natCast,
      shellWordDelimiters, strsepTokens_singleton, wordNextHead, h.lineEnd]
    cases nextLoop l.before.length false 0 (l.text.splitOn space) <;> rfl
  obtain ⟨e', moved, becomes⟩ := h.shellMoveto_spec (wordNextHead_le l.text l.before.length)
  refine ⟨e', ?_, becomes.holds⟩
  rw [shellMoveWordForward, next]
  exact moved

theorem moveWordForwardTimes_spec (k : Nat) :
    ∃ e', moveWordForwardTimes k e = .ok e' ∧
      e'.Holds (l.moveTo ((wordNextHead l.text)^[k] l.before.length)) := by
  have inside : l.before.length ≤ l.text.length := l.length_before_le
  induction k generalizing e l with
  | zero =>
      refine ⟨e, rfl, ?_⟩
      rw [Function.iterate_zero_apply, l.moveTo_self]
      exact h
  | succ k ih =>
      obtain ⟨e₁, moved, holds⟩ := h.shellMoveWordForward_head
      have place : (l.moveTo (wordNextHead l.text l.before.length)).before.length =
          wordNextHead l.text l.before.length := Line.length_before_ofText (wordNextHead_le _ _)
      obtain ⟨e', rest, holds'⟩ := ih holds (by rw [place, l.text_moveTo]; exact wordNextHead_le _ _)
      rw [place, Line.moveTo, l.text_moveTo] at holds'
      refine ⟨e', ?_, holds'⟩
      rw [moveWordForwardTimes, moved]
      exact rest

omit h in
/-- One cursor at a time. -/
theorem moveTo_inj {i j : Nat} (first : e.Holds (l.moveTo i)) (second : e.Holds (l.moveTo j))
    (hi : i ≤ l.text.length) (hj : j ≤ l.text.length) : i = j := by
  have cursor := first.cursor.symm.trans second.cursor
  rw [Line.moveTo, Line.moveTo, Line.length_before_ofText hi, Line.length_before_ofText hj] at cursor
  exact Int.ofNat.inj cursor

end Editor.Holds

/-- An editor with this text, and the cursor before it. -/
def Editor.withText (t : List Byte) : Editor where
  writefd := 1
  commandLine := .ofList t
  cursor := 0
  lineEnd := t.length
  size := t.length + 1
  cutBuffer := none
  out := []

theorem Editor.withText_holds {t : List Byte} (noNul : 0 ∉ t) (small : t.length + 1 < 2 ^ 31) :
    (withText t).Holds (.ofText t 0) where
  terminal := Int.one_nonneg
  cursor := rfl
  lineEnd := rfl
  room := Int.lt_succ t.length
  small := by
    change (t.length : Int) + 1 < 2 ^ 31
    omega
  line := ByteMem.read_ofList t
  nul := by simp [withText, ByteMem.ofList, Line.text_ofText]
  noNul := noNul

/-- `shell_move_word_forward` goes to the next start of a word, or to the end, exactly where one
    space is ahead; and from the beginning of the line on it visits each later word exactly
    where there are single spaces only. -/
theorem wordMotion_iff (e : Editor) (l : Line) (h : e.Holds l) :
    ((∃ e', shellMoveWordForward e = .ok e' ∧
        e'.Holds (l.moveTo (nextStart space l.text l.before.length))) ↔
      OneSpaceAhead l.text l.before.length) ∧
    ((∀ k, ∃ e', moveWordForwardTimes (k + 1) { e with cursor := 0 } = .ok e' ∧
        e'.Holds (l.moveTo ((laterStarts space l.text)[k]?.getD l.text.length))) ↔
      SingleSpaces l.text) := by
  have inside : l.before.length ≤ l.text.length := l.length_before_le
  constructor
  · obtain ⟨e', moved, holds⟩ := h.shellMoveWordForward_head
    rw [← wordNextHead_eq_iff inside]
    constructor
    · rintro ⟨e'', moved', there⟩
      cases moved.symm.trans moved'
      exact holds.moveTo_inj there (wordNextHead_le _ _) (nextStart_le _ _ _)
    · intro same
      exact ⟨e', moved, same ▸ holds⟩
  · have start := h.moved (Nat.zero_le l.text.length)
    rw [Nat.cast_zero] at start
    have reached : ∀ k, ∃ e', moveWordForwardTimes k { e with cursor := 0 } = .ok e' ∧
        e'.Holds (l.moveTo ((wordNextHead l.text)^[k] 0)) := by
      intro k
      obtain ⟨e', moved, holds⟩ := start.moveWordForwardTimes_spec k
      rw [Line.moveTo, l.text_moveTo] at holds
      exact ⟨e', moved, holds⟩
    rw [← iterate_wordNextHead_iff]
    apply forall_congr'
    intro k
    obtain ⟨e', moved, holds⟩ := reached (k + 1)
    constructor
    · rintro ⟨e'', moved', there⟩
      cases moved.symm.trans moved'
      exact holds.moveTo_inj there (iterate_wordNextHead_le (k + 1) (Nat.zero_le _))
        (laterStarts_getD_le _ _)
    · intro same
      exact ⟨e', moved, same ▸ holds⟩

/-- Two words with one space between them. -/
theorem wordMotion_iff_single :
    (∃ e', shellMoveWordForward (Editor.withText (litString "show port")) = .ok e' ∧
      e'.Holds ((Line.ofText (litString "show port") 0).moveTo
        (nextStart space (litString "show port") 0))) ∧
    ∀ k, ∃ e', moveWordForwardTimes (k + 1) (Editor.withText (litString "show port")) = .ok e' ∧
      e'.Holds ((Line.ofText (litString "show port") 0).moveTo
        ((laterStarts space (litString "show port"))[k]?.getD 9)) := by
  have holds : (Editor.withText (litString "show port")).Holds
      (.ofText (litString "show port") 0) := Editor.withText_holds (by decide) (by decide)
  have single : SingleSpaces (litString "show port") := singleSpaces_of_none (by decide)
  have motion := wordMotion_iff _ _ holds
  exact ⟨motion.1.mpr (single.ahead 0), motion.2.mpr single⟩

/-- With two spaces between the words, the cursor goes over the second one. -/
theorem wordMotion_not :
    ∃ e', shellMoveWordForward (Editor.withText (litString "show  port")) = .ok e' ∧
      e'.cursor = 10 ∧ nextStart space (litString "show  port") 0 = 6 := by
  exact ⟨_, rfl, by decide, by decide⟩

end Sdplane
