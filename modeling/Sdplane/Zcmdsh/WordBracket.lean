import Sdplane.Zcmdsh.WordMotion

/-!
# The word around an index

`shell_word_head` and `shell_word_end` keep the last token that is not empty and starts at the
index or before. The index is in that word or right behind it, or in no word at all.
-/

namespace Sdplane

open Words

/-- The word is the last one that starts before `n`, or what the loop begins with, if none
    does. -/
def Remembers (t : List Byte) (n : Nat) (word : Nat × List Byte) : Prop :=
  IsRun space t word.1 (word.1 + word.2.length) ∧ (∀ i < n, IsStart space t i → i ≤ word.1) ∨
    word = (0, []) ∧ ∀ i < n, ¬IsStart space t i

variable {t token : List Byte} {n next point : Nat} {word : Nat × List Byte}

/-- An empty token is between two spaces or at an end of the line, another one is a word. -/
theorem Remembers.behind (h : Remembers t next word)
    (boundary : next = 0 ∨ t[next - 1]? = some space) (inside : next + token.length ≤ t.length)
    (other : ∀ i, next ≤ i → i < next + token.length → t[i]? ≠ some space)
    (ends : next + token.length = t.length ∨ t[next + token.length]? = some space) :
    Remembers t (next + token.length + 1) (if token ≠ [] then (next, token) else word) := by
  by_cases empty : token = []
  · rw [if_neg (by simpa using empty)]
    rw [empty, List.length_nil, Nat.add_zero] at ends ⊢
    have here : ¬IsStart space t next := by
      intro start
      rcases ends with all | space
      · exact absurd start.1 (by omega)
      · exact start.2.1 space
    have before : ∀ i < next + 1, IsStart space t i → i < next := by
      intro i hi start
      rcases Nat.lt_or_eq_of_le (Nat.le_of_lt_succ hi) with less | same
      · exact less
      · exact absurd (same ▸ start) here
    rcases h with ⟨run, last⟩ | ⟨none, no_start⟩
    · exact .inl ⟨run, fun i hi start => last i (before i hi start) start⟩
    · exact .inr ⟨none, fun i hi start => no_start i (before i hi start) start⟩
  · have length := List.length_pos_of_ne_nil empty
    have run : IsRun space t next (next + token.length) :=
      ⟨by omega, inside, other, boundary, ends⟩
    rw [if_pos empty]
    refine .inl ⟨run, ?_⟩
    intro i hi start
    by_contra behind
    exact run.not_isStart (by omega) (by omega) start

/-- The loop ends with the last word that starts before some place behind `point`. -/
theorem wordLoop_remembers (hp : point ≤ t.length) (inside : next ≤ t.length)
    (boundary : next = 0 ∨ t[next - 1]? = some space) (h : Remembers t next word)
    (start : word.1 ≤ point) :
    let found := wordLoop point word next ((t.drop next).splitOn space)
    found.1 ≤ point ∧ ∃ n, point < n ∧ Remembers t n found := by
  induction left : t.length - next using Nat.strong_induction_on generalizing next word with
  | h left_ ih =>
      obtain ⟨token, within, other, tokens⟩ := @splitOn_drop _ _ space t next inside
      by_cases here : word.1 ≤ point ∧ point < next
      · have stays : wordLoop point word next ((t.drop next).splitOn space) = word := by
          rcases tokens with ⟨-, split⟩ | ⟨-, split⟩ <;> rw [split, wordLoop, if_pos here]
        rw [stays]
        exact ⟨start, next, here.2, h⟩
      · have start' : (if token ≠ [] then (next, token) else word).1 ≤ point := by
          split
          · dsimp only
            omega
          · exact start
        rcases tokens with ⟨all, split⟩ | ⟨separator, split⟩
        · rw [split, wordLoop, if_neg here, wordLoop]
          exact ⟨start', _, by omega, h.behind boundary within other (.inl all)⟩
        · have before := (List.getElem?_eq_some_iff.mp separator).1
          rw [split, wordLoop, if_neg here]
          apply ih _ _ _ _ _ start' rfl
          · omega
          · omega
          · exact .inr separator
          · exact h.behind boundary within other (.inr separator)

/-- The word that `shell_word_head` and `shell_word_end` find. -/
def wordAt (t : List Byte) (point : Nat) : Nat × List Byte :=
  wordLoop point (0, []) 0 (strsepTokens shellWordDelimiters t)

/-- `point` is in the word that is found or right behind it, and in no other one, or it is in no
    word at all, and the one that is found ends before it. -/
theorem wordAt_cases (hp : point ≤ t.length) :
    let word := wordAt t point
    (word.1 ≤ point ∧ point ≤ word.1 + word.2.length ∧
        IsRun space t word.1 (word.1 + word.2.length)) ∨
      (∀ head stop, IsRun space t head stop → head ≤ point → stop < point) ∧
        (word.1 + word.2.length < point ∨ point = 0 ∧ word = (0, [])) := by
  have begins : Remembers t 0 (0, []) := .inr ⟨rfl, fun i hi => absurd hi (Nat.not_lt_zero i)⟩
  obtain ⟨start, n, behind, remembers⟩ :=
    wordLoop_remembers hp (Nat.zero_le _) (.inl rfl) begins (Nat.zero_le _)
  rw [List.drop_zero, ← strsepTokens_singleton] at start remembers
  change (wordAt t point).1 ≤ point at start
  change Remembers t n (wordAt t point) at remembers
  generalize wordAt t point = word at start remembers
  rcases remembers with ⟨run, last⟩ | ⟨none, no_start⟩
  · rcases Nat.lt_or_ge (word.1 + word.2.length) point with before | within
    · refine .inr ⟨?_, .inl before⟩
      intro head stop run' head_le
      by_contra reaches
      have le := last head (by omega) run'.isStart
      have same := run'.unique run le (by omega) le_rfl (Nat.le_add_right _ _)
      omega
    · exact .inl ⟨start, within, run⟩
  · refine .inr ⟨?_, ?_⟩
    · intro head stop run head_le
      exact absurd run.isStart (no_start head (by omega))
    · rw [none]
      rcases Nat.eq_zero_or_pos point with zero | pos
      · exact .inr ⟨zero, rfl⟩
      · exact .inl pos

/-- What `shell_word_head` returns. -/
def wordHead (t : List Byte) (point : Nat) : Nat :=
  if (wordAt t point).1 + (wordAt t point).2.length < point then point else (wordAt t point).1

/-- What `shell_word_end` returns. -/
def wordEnd (t : List Byte) (point : Nat) : Nat :=
  if (wordAt t point).1 + (wordAt t point).2.length < point then point
  else (wordAt t point).1 + (wordAt t point).2.length

/-- Where a word is around `point`, it is the one between the two. -/
theorem wordHead_wordEnd_cases (hp : point ≤ t.length) :
    (wordHead t point ≤ point ∧ point ≤ wordEnd t point ∧
        IsRun space t (wordHead t point) (wordEnd t point)) ∨
      (∀ head stop, IsRun space t head stop → head ≤ point → stop < point) ∧
        wordHead t point = point ∧ wordEnd t point = point := by
  unfold wordHead wordEnd
  rcases wordAt_cases hp with ⟨start, within, run⟩ | ⟨no_word, before | ⟨zero, none⟩⟩
  · rw [if_neg (by omega), if_neg (by omega)]
    exact .inl ⟨start, within, run⟩
  · rw [if_pos before, if_pos before]
    exact .inr ⟨no_word, rfl, rfl⟩
  · rw [if_neg (by omega), if_neg (by omega), none, zero]
    refine .inr ⟨?_, rfl, rfl⟩
    rwa [zero] at no_word

namespace Editor.Holds

variable {e : Editor} {l : Line} (h : e.Holds l)

include h

theorem shellWordHead_eq (hp : point ≤ l.text.length) :
    shellWordHead point e = .ok (wordHead l.text point, e) := by
  rw [shellWordHead, h.withTokens_spec _ _ hp, headAt, Int.toNat_natCast, wordHead, wordAt]
  split <;> split <;> first | rfl | omega

theorem shellWordEnd_eq (hp : point ≤ l.text.length) :
    shellWordEnd point e = .ok (wordEnd l.text point, e) := by
  rw [shellWordEnd, h.withTokens_spec _ _ hp, Int.toNat_natCast, wordEnd, wordAt]
  dsimp only
  split <;> split <;> first | rfl | omega

end Editor.Holds

/-- `shell_word_head` and `shell_word_end` put an index between the ends of the word it is in or
    right behind, and elsewhere both return the index itself. -/
theorem wordBracket (e : Editor) (l : Line) (h : e.Holds l) (point : Nat)
    (hp : point ≤ l.text.length) :
    ∃ head stop : Nat, shellWordHead point e = .ok (head, e) ∧
      shellWordEnd point e = .ok (stop, e) ∧
      head ≤ point ∧ point ≤ stop ∧ stop ≤ l.text.length ∧
      (∀ head' stop', IsRun space l.text head' stop' → head' ≤ point → point ≤ stop' →
        head = head' ∧ stop = stop') ∧
      (IsStart space l.text point → head = point) ∧
      ((∀ head' stop', IsRun space l.text head' stop' → ¬(head' ≤ point ∧ point ≤ stop')) →
        head = point ∧ stop = point) := by
  refine ⟨_, _, h.shellWordHead_eq hp, h.shellWordEnd_eq hp, ?_⟩
  rcases wordHead_wordEnd_cases hp with ⟨start, within, run⟩ | ⟨no_word, head, stop⟩
  · refine ⟨start, within, run.inside, ?_, ?_, ?_⟩
    · intro head' stop' run' first last
      exact run.unique run' start within first last
    · intro begins
      by_contra other
      exact run.not_isStart (by omega) within begins
    · intro none
      exact absurd ⟨start, within⟩ (none _ _ run)
  · rw [head, stop]
    refine ⟨le_rfl, le_rfl, hp, ?_, fun _ => rfl, fun _ => ⟨rfl, rfl⟩⟩
    intro head' stop' run' first last
    have before := no_word head' stop' run' first
    omega

/-- Right behind the first of two words, that word is found. -/
theorem wordBracket_show : ∃ head stop : Nat,
    shellWordHead (4 : Nat) (Editor.withText (litString "show  port")) =
      .ok (head, Editor.withText (litString "show  port")) ∧
    shellWordEnd (4 : Nat) (Editor.withText (litString "show  port")) =
      .ok (stop, Editor.withText (litString "show  port")) ∧ head = 0 ∧ stop = 4 := by
  have holds : (Editor.withText (litString "show  port")).Holds
      (.ofText (litString "show  port") 0) := Editor.withText_holds (by decide) (by decide)
  have other : ∀ i < 4, (litString "show  port")[i]? ≠ some space := by decide
  have run : IsRun space (litString "show  port") 0 4 :=
    ⟨by decide, by decide, fun i _ hi => other i hi, .inl rfl, .inr (by decide)⟩
  obtain ⟨head, stop, headed, ended, -, -, -, found, -⟩ := wordBracket _ _ holds 4 (by decide)
  obtain ⟨head_eq, stop_eq⟩ := found 0 4 run (by decide) le_rfl
  exact ⟨head, stop, headed, ended, head_eq, stop_eq⟩

end Sdplane
