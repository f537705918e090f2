import Sdplane.Zcmdsh.Line

/-!
# Where words begin and end

The functions that look for a word return an index of the line, the ones that go backward
one that is not behind the cursor. With that the functions that move over a word or delete
one stay within the bounds of the editor.
-/

namespace Sdplane

/-- How long the tokens are with a delimiter behind each. -/
def tokensLength (tokens : List (List Byte)) : Nat := (tokens.map fun t => t.length + 1).sum

theorem tokensLength_cons (t : List Byte) (ts : List (List Byte)) :
    tokensLength (t :: ts) = t.length + 1 + tokensLength ts := by
  rw [tokensLength, List.map_cons, List.sum_cons, tokensLength]

/-- The word found starts at `point` or before, and ends in the line of length `n`. -/
theorem wordLoop_bounds {point n : Nat} {word : Nat × List Byte} {next : Nat}
    {tokens : List (List Byte)} (start : word.1 ≤ point) (stop : word.1 + word.2.length ≤ n)
    (rest : next + tokensLength tokens = n + 1) :
    (wordLoop point word next tokens).1 ≤ point ∧
      (wordLoop point word next tokens).1 + (wordLoop point word next tokens).2.length ≤ n := by
  induction tokens generalizing word next with
  | nil => exact ⟨start, stop⟩
  | cons t ts ih =>
      rw [tokensLength_cons] at rest
      rw [wordLoop]
      by_cases found : word.1 ≤ point ∧ point < next
      · rw [if_pos found]
        exact ⟨start, stop⟩
      · rw [if_neg found]
        have behind : next ≤ point := by
          by_contra before
          exact found ⟨start, Nat.lt_of_not_le before⟩
        apply ih
        · split
          · exact behind
          · exact start
        · split
          · dsimp only
            omega
          · exact stop
        · omega

theorem prevLoop_le {point prev word : Nat} {tokens : List (List Byte)} (start : prev ≤ point)
    (here : word ≤ point) : prevLoop point prev word tokens ≤ point := by
  induction tokens generalizing prev word with
  | nil => exact start
  | cons t ts ih =>
      rw [prevLoop]
      by_cases found : word ≤ point ∧ point ≤ word + t.length
      · rw [if_pos found]
        exact start
      · rw [if_neg found]
        apply ih
        · split
          · exact here
          · exact start
        · by_contra before
          exact found ⟨here, by omega⟩

theorem nextLoop_le {point n word i : Nat} {passed : Bool} {tokens : List (List Byte)}
    (rest : word + tokensLength tokens = n + 1)
    (found : nextLoop point passed word tokens = some i) : i ≤ n := by
  induction tokens generalizing passed word with
  | nil => simp [nextLoop] at found
  | cons t ts ih =>
      rw [tokensLength_cons] at rest
      cases passed with
      | true =>
          rw [nextLoop] at found
          split at found
          · cases found
            omega
          · cases found
      | false =>
          rw [nextLoop] at found
          exact ih (by omega) found

theorem tokensLength_strsepTokens (delim s : List Byte) :
    tokensLength (strsepTokens delim s) = s.length + 1 :=
  sum_length_strsepTokens delim s

theorem wordLoop_strsepTokens_bounds (point : Nat) (delim t : List Byte) :
    let word := wordLoop point (0, []) 0 (strsepTokens delim t)
    word.1 ≤ point ∧ word.1 + word.2.length ≤ t.length := by
  apply wordLoop_bounds
  · exact Nat.zero_le _
  · exact Nat.zero_le _
  · rw [Nat.zero_add, tokensLength_strsepTokens delim t]

/-- The start of the word is not behind `point`. -/
theorem headAt_bounds (point : Nat) (delim t : List Byte) :
    ∃ i ≤ point, headAt point (strsepTokens delim t) = (i : Nat) := by
  obtain ⟨start, -⟩ := wordLoop_strsepTokens_bounds point delim t
  rw [headAt, Int.toNat_natCast]
  split
  · exact ⟨point, le_rfl, rfl⟩
  · exact ⟨_, start, rfl⟩

namespace Editor.Holds

variable {e : Editor} {l : Line} (h : e.Holds l)

include h

theorem withTokens_spec (delim : List Byte) (find : List (List Byte) → Int) {i : Nat}
    (hi : i ≤ l.text.length) :
    withTokens delim find i e = .ok (find (strsepTokens delim l.text), e) := by
  have inside : ¬ ¬ ((0 : Int) ≤ i ∧ (i : Int) ≤ e.lineEnd) := by
    rw [h.lineEnd]
    omega
  have all := h.stringAt (i := 0) (Nat.zero_le _)
  rw [Nat.cast_zero, List.drop_zero] at all
  rw [withTokens, if_neg inside, h.shellTerminate_spec]
  simp only [all]

theorem shellWordHead_spec {i : Nat} (hi : i ≤ l.text.length) :
    ∃ j ≤ i, shellWordHead i e = .ok ((j : Nat), e) := by
  obtain ⟨j, hj, head⟩ := headAt_bounds i shellWordDelimiters l.text
  exact ⟨j, hj, by rw [shellWordHead, h.withTokens_spec _ _ hi, head]⟩

theorem shellSubwordHead_spec {i : Nat} (hi : i ≤ l.text.length) :
    ∃ j ≤ i, shellSubwordHead i e = .ok ((j : Nat), e) := by
  obtain ⟨j, hj, head⟩ := headAt_bounds i shellWordDelimitersSub l.text
  exact ⟨j, hj, by rw [shellSubwordHead, h.withTokens_spec _ _ hi, head]⟩

theorem shellWordEnd_spec {i : Nat} (hi : i ≤ l.text.length) :
    ∃ j ≤ l.text.length, shellWordEnd i e = .ok ((j : Nat), e) := by
  obtain ⟨-, stop⟩ := wordLoop_strsepTokens_bounds i shellWordDelimiters l.text
  rw [shellWordEnd, h.withTokens_spec _ _ hi, Int.toNat_natCast]
  dsimp only
  split
  · exact ⟨i, hi, rfl⟩
  · exact ⟨_, stop, rfl⟩

theorem shellWordNextHead_spec {i : Nat} (hi : i ≤ l.text.length) :
    ∃ j ≤ l.text.length, shellWordNextHead i e = .ok ((j : Nat), e) := by
  rw [shellWordNextHead, h.withTokens_spec _ _ hi, Int.toNat_natCast]
  cases found : nextLoop i false 0 (strsepTokens shellWordDelimiters l.text) with
  | none => exact ⟨_, le_rfl, by rw [h.lineEnd]⟩
  | some j =>
      refine ⟨j, nextLoop_le ?_ found, rfl⟩
      rw [Nat.zero_add, tokensLength_strsepTokens]

theorem shellWordPrevHead_spec {i : Nat} (hi : i ≤ l.text.length) :
    ∃ j ≤ i, shellWordPrevHead i e = .ok ((j : Nat), e) := by
  rw [shellWordPrevHead, h.withTokens_spec _ _ hi, Int.toNat_natCast]
  exact ⟨_, prevLoop_le (Nat.zero_le _) (Nat.zero_le _), rfl⟩

theorem shellSubwordPrevHead_spec {i : Nat} (hi : i ≤ l.text.length) :
    ∃ j ≤ i, shellSubwordPrevHead i e = .ok ((j : Nat), e) := by
  rw [shellSubwordPrevHead, h.withTokens_spec _ _ hi, Int.toNat_natCast]
  exact ⟨_, prevLoop_le (Nat.zero_le _) (Nat.zero_le _), rfl⟩

theorem wordBackward_spec : ∃ i ≤ l.before.length, wordBackward e = .ok ((i : Nat), e) := by
  have inside : l.before.length ≤ l.text.length := l.length_before_le
  obtain ⟨i, hi, head⟩ := h.shellSubwordHead_spec inside
  obtain ⟨j, hj, prev⟩ := h.shellSubwordPrevHead_spec inside
  rw [wordBackward, h.cursor, head]
  change ∃ i' ≤ l.before.length,
    (if (i : Int) = e.cursor then shellSubwordPrevHead e.cursor e else .ok ((i : Nat), e)) =
      .ok ((i' : Nat), e)
  split
  · exact ⟨j, hj, by rw [h.cursor, prev]⟩
  · exact ⟨i, hi, rfl⟩

/-- `shell_delete_word_backward`: nothing is cut at the start of the line. -/
theorem shellDeleteWordBackward_spec (mem : Memory) : ∃ i ≤ l.before.length,
    ∃ e', shellDeleteWordBackward mem e = .ok e' ∧
      (i = l.before.length ∧ e' = { e with cutBuffer := none } ∨
        i < l.before.length ∧
          { e with cutBuffer :=
              if mem.cut then some (l.cutString i l.before.length) else none }.Becomes
            (l.delete i l.before.length) (l.deleteSent i l.before.length) e') := by
  have inside : l.before.length ≤ l.text.length := l.length_before_le
  obtain ⟨i, hi, back⟩ := h.wordBackward_spec
  refine ⟨i, hi, ?_⟩
  rw [shellDeleteWordBackward, back]
  have cut : ∀ e', shellCut mem i l.before.length e = .ok e' →
      (Except.ok ((i : Int), e) >>= fun r => shellCut mem r.1 r.2.cursor r.2) = .ok e' := by
    intro e' cut
    rw [← h.cursor] at cut
    exact cut
  rcases hi.eq_or_lt with rfl | before
  · exact ⟨_, cut _ (h.shellCut_empty mem inside), .inl ⟨rfl, rfl⟩⟩
  · obtain ⟨e', done, becomes⟩ := h.shellCut_spec mem before inside
    exact ⟨e', cut e' done, .inr ⟨before, becomes⟩⟩

theorem shellMoveWordBackward_spec : ∃ i ≤ l.text.length, ∃ e',
    shellMoveWordBackward e = .ok e' ∧ e.Becomes (l.moveTo i) (l.moveSent i) e' := by
  obtain ⟨i, hi, back⟩ := h.wordBackward_spec
  have inside : i ≤ l.text.length := hi.trans l.length_before_le
  rw [shellMoveWordBackward, back]
  exact ⟨i, inside, h.shellMoveto_spec inside⟩

theorem shellMoveWordForward_spec : ∃ i ≤ l.text.length, ∃ e',
    shellMoveWordForward e = .ok e' ∧ e.Becomes (l.moveTo i) (l.moveSent i) e' := by
  have inside : l.before.length ≤ l.text.length := l.length_before_le
  obtain ⟨i, hi, next⟩ := h.shellWordNextHead_spec inside
  rw [shellMoveWordForward, h.cursor, next]
  exact ⟨i, hi, h.shellMoveto_spec hi⟩

end Editor.Holds

end Sdplane
