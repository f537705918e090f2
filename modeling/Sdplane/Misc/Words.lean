import Mathlib.Data.List.Basic
import Mathlib.Data.List.Induction
import Mathlib.Data.List.Range
import Mathlib.Data.List.TakeWhile
import Mathlib.Data.Nat.Find
import Mathlib.Logic.Function.Iterate

/-!
# Words of a list

The words of a list are its maximal runs without the separator. `squeeze` drops the separators
in front of the first word and all but the first between two words and at the end; `Kept` says
which places it keeps, `IsStart` where words start, `nextStart` where the next one does, and
`IsRun` which places a word takes.
-/

namespace Sdplane.Words

variable {α : Type} [DecidableEq α] (sep : α)

/-- The words of a list. -/
def words (t : List α) : List (List α) := (t.splitOn sep).filter (· ≠ [])

/-- The list without redundant separators; the flag tells whether a separator would be one. -/
def squeeze : Bool → List α → List α
  | _, [] => []
  | redundant, b :: t =>
      if b = sep ∧ redundant then squeeze true t else b :: squeeze (b = sep) t

/-- The words joined by single separators, and one behind them if the list ends in one. -/
def joined (t : List α) : List α :=
  [sep].intercalate (words sep t) ++
    if words sep t ≠ [] ∧ t.getLast? = some sep then [sep] else []

variable {sep} {b c : α}

/-! ## Words -/

@[simp] theorem words_nil : words sep [] = [] := by simp [words]

@[simp] theorem words_cons_self (t : List α) : words sep (sep :: t) = words sep t := by
  simp [words, List.splitOn_cons_eq_if_modifyHead]

theorem words_singleton (hb : b ≠ sep) : words sep [b] = [[b]] := by
  simp [words, List.splitOn_cons_eq_if_modifyHead, hb]

theorem words_cons_cons_self (hb : b ≠ sep) (t : List α) :
    words sep (b :: sep :: t) = [b] :: words sep t := by
  simp [words, List.splitOn_cons_eq_if_modifyHead, hb]

/-- An element in front of a word is the first one of that word. -/
theorem words_cons_cons (hb : b ≠ sep) (hc : c ≠ sep) (t : List α) :
    ∃ w ws, words sep (c :: t) = w :: ws ∧ words sep (b :: c :: t) = (b :: w) :: ws := by
  obtain ⟨u, us, tokens⟩ := List.exists_cons_of_ne_nil (List.splitOn_ne_nil sep t)
  refine ⟨c :: u, us.filter (· ≠ []), ?_, ?_⟩
  · simp [words, List.splitOn_cons_eq_if_modifyHead, hc, tokens]
  · simp [words, List.splitOn_cons_eq_if_modifyHead, hb, hc, tokens]

/-- A word is not empty and has no separator. -/
theorem mem_words {t w : List α} (h : w ∈ words sep t) : w ≠ [] ∧ sep ∉ w := by
  obtain ⟨token, nonempty⟩ := List.mem_filter.mp h
  refine ⟨by simpa using nonempty, ?_⟩
  clear h nonempty
  induction t generalizing w with
  | nil =>
      obtain rfl : w = [] := by simpa using token
      exact List.not_mem_nil
  | cons b t ih =>
      rw [List.splitOn_cons_eq_if_modifyHead] at token
      obtain ⟨u, us, tokens⟩ := List.exists_cons_of_ne_nil (List.splitOn_ne_nil sep t)
      rw [tokens] at token ih
      by_cases hb : b = sep
      · rw [if_pos (by simpa using hb)] at token
        rcases List.mem_cons.mp token with rfl | token
        · exact List.not_mem_nil
        · exact ih token
      · rw [if_neg (by simpa using hb)] at token
        rcases List.mem_cons.mp token with rfl | token
        · have rest := ih List.mem_cons_self
          simp [Ne.symm hb, rest]
        · exact ih (List.mem_cons_of_mem u token)

/-- Nothing but separators. -/
theorem words_eq_nil : ∀ {t : List α}, words sep t = [] ↔ ∀ b ∈ t, b = sep
  | [] => by simp
  | [b] => by
      by_cases hb : b = sep
      · simp [hb]
      · simp [hb, words_singleton]
  | b :: c :: t => by
      by_cases hb : b = sep
      · simp [hb, words_eq_nil (t := c :: t)]
      · by_cases hc : c = sep
        · simp [hb, hc, words_cons_cons_self]
        · obtain ⟨w, ws, -, first⟩ := words_cons_cons hb hc t
          simp [hb, first]

omit [DecidableEq α] in
/-- The last occurrence of an element. -/
theorem exists_last {t : List α} (found : b ∈ t) : ∃ u v, t = u ++ b :: v ∧ b ∉ v := by
  obtain ⟨v, u, split, first⟩ := List.eq_append_cons_of_mem (List.mem_reverse.mpr found)
  refine ⟨u.reverse, v.reverse, ?_, by simpa using first⟩
  rw [← List.reverse_reverse t, split]
  simp

/-! ## Squeezing -/

theorem squeeze_append (redundant : Bool) (t u : List α) :
    ∃ redundant', squeeze sep redundant (t ++ u) = squeeze sep redundant t ++ squeeze sep redundant' u := by
  induction t generalizing redundant with
  | nil => exact ⟨redundant, rfl⟩
  | cons b t ih =>
      rw [List.cons_append, squeeze, squeeze]
      split
      · exact ih true
      · obtain ⟨redundant', rest⟩ := ih (b = sep)
        exact ⟨redundant', by rw [rest, List.cons_append]⟩

/-- What is squeezed has no redundant separator. -/
theorem squeeze_squeeze (redundant : Bool) (t : List α) :
    squeeze sep redundant (squeeze sep redundant t) = squeeze sep redundant t := by
  induction t generalizing redundant with
  | nil => rfl
  | cons b t ih =>
      rw [squeeze]
      split
      · next dropped =>
          rw [dropped.2]
          exact ih true
      · next kept => rw [squeeze, if_neg kept, ih]

theorem joined_nil : joined sep [] = [] := by simp [joined]

theorem joined_cons_self (t : List α) : joined sep (sep :: t) = joined sep t := by
  cases t with
  | nil => simp [joined]
  | cons c t => simp [joined, List.getLast?_cons]

/-- Squeezing joins the words. -/
theorem squeeze_eq_joined : ∀ t : List α, squeeze sep true t = joined sep t
  | [] => joined_nil.symm
  | [b] => by
      by_cases hb : b = sep
      · simp [squeeze, hb, joined]
      · simp [squeeze, hb, joined, words_singleton]
  | b :: c :: t => by
      by_cases hb : b = sep
      · rw [hb, joined_cons_self, ← squeeze_eq_joined (c :: t), squeeze, if_pos ⟨rfl, rfl⟩]
      · by_cases hc : c = sep
        · have squeezed : squeeze sep true (b :: c :: t) = b :: sep :: squeeze sep true t := by
            simp [squeeze, hb, hc]
          rw [squeezed, squeeze_eq_joined t, hc, joined, joined, words_cons_cons_self hb]
          cases rest : words sep t with
          | nil =>
              have last : (b :: sep :: t).getLast? = some sep := by
                rcases List.eq_nil_or_concat t with rfl | ⟨u, x, rfl⟩
                · rfl
                · rw [words_eq_nil.mp rest x (by simp)]
                  simp [List.getLast?_cons]
              simp [last]
          | cons w ws =>
              have last : (b :: sep :: t).getLast? = t.getLast? := by
                rcases List.eq_nil_or_concat t with rfl | ⟨u, x, rfl⟩
                · simp at rest
                · simp [List.getLast?_cons]
              simp [last, List.intercalate_cons_cons]
        · have squeezed : squeeze sep true (b :: c :: t) = b :: squeeze sep true (c :: t) := by
            simp [squeeze, hb, hc]
          obtain ⟨w, ws, rest, first⟩ := words_cons_cons hb hc t
          rw [squeezed, squeeze_eq_joined (c :: t), joined, joined, rest, first]
          cases ws <;> simp [List.intercalate_cons_cons]

omit [DecidableEq α] in
theorem intercalate_concat_nil {ws : List (List α)} (some_word : ws ≠ []) :
    [sep].intercalate (ws ++ [[]]) = [sep].intercalate ws ++ [sep] := by
  induction ws with
  | nil => exact absurd rfl some_word
  | cons w ws ih =>
      cases ws with
      | nil => simp [List.intercalate_cons_cons]
      | cons w' ws =>
          have rest := ih (List.cons_ne_nil w' ws)
          rw [List.cons_append, List.cons_append, List.intercalate_cons_cons, ← List.cons_append,
            rest, List.intercalate_cons_cons]
          simp

omit [DecidableEq α] in
theorem getLast?_intercalate {ws : List (List α)} (whole : ∀ w ∈ ws, w ≠ [] ∧ sep ∉ w) :
    ([sep].intercalate ws).getLast? ≠ some sep := by
  induction ws with
  | nil => simp
  | cons w ws ih =>
      obtain ⟨⟨-, inside⟩, rest⟩ := List.forall_mem_cons.mp whole
      intro last
      cases ws with
      | nil =>
          rw [List.intercalate_singleton] at last
          exact inside (List.mem_of_getLast? last)
      | cons w' ws =>
          have some_ : [sep].intercalate (w' :: ws) ≠ [] := by
            have first := (rest w' List.mem_cons_self).1
            cases ws <;> simp [List.intercalate_cons_cons, first]
          rw [List.intercalate_cons_cons, List.getLast?_append_of_ne_nil _ some_] at last
          exact ih rest last

/-- Words with single separators between them are joined already. -/
theorem joined_intercalate {ws : List (List α)} (some_word : ws ≠ [])
    (whole : ∀ w ∈ ws, w ≠ [] ∧ sep ∉ w) :
    joined sep ([sep].intercalate ws) = [sep].intercalate ws := by
  have same : words sep ([sep].intercalate ws) = ws := by
    rw [words, List.splitOn_intercalate sep (fun w mem => (whole w mem).2) some_word]
    exact List.filter_eq_self.mpr fun w mem => decide_eq_true (whole w mem).1
  rw [joined, same, if_neg fun ends => getLast?_intercalate whole ends.2, List.append_nil]

/-- The tokens of what is joined, up to the first empty one, are the words. -/
theorem splitOn_joined (t : List α) :
    ((joined sep t).splitOn sep).takeWhile (· ≠ []) = words sep t := by
  have whole : ∀ w ∈ words sep t, sep ∉ w := fun w hw => (mem_words hw).2
  have all : ∀ w ∈ words sep t, decide (w ≠ []) = true := fun w hw => by
    simpa using (mem_words hw).1
  cases ws : words sep t with
  | nil => simp [joined, ws]
  | cons w us =>
      rw [← ws, joined]
      have some_word : words sep t ≠ [] := by simp [ws]
      by_cases trailing : t.getLast? = some sep
      · have ends : ∀ w ∈ words sep t ++ [[]], sep ∉ w := by
          intro w hw
          rcases List.mem_append.mp hw with hw | hw
          · exact whole w hw
          · rw [List.mem_singleton.mp hw]
            exact List.not_mem_nil
        rw [if_pos ⟨some_word, trailing⟩, ← intercalate_concat_nil some_word,
          List.splitOn_intercalate _ ends (by simp), List.takeWhile_append_of_pos all]
        simp
      · rw [if_neg (fun both => trailing both.2), List.append_nil,
          List.splitOn_intercalate _ whole some_word]
        exact List.takeWhile_eq_self_iff.mpr all

/-! ## What is kept -/

/-- The element at this place is kept: no separator, or the first one behind a word. -/
def Kept (sep : α) (t : List α) (i : Nat) : Prop :=
  t[i]? ≠ some sep ∨ 0 < i ∧ t[i - 1]? ≠ some sep

instance (t : List α) (i : Nat) : Decidable (Kept sep t i) :=
  inferInstanceAs (Decidable (_ ∨ _))

/-- The places that are kept. -/
def keptPlaces (sep : α) (t : List α) : List Nat := (List.range t.length).filter (Kept sep t ·)

omit [DecidableEq α] in
theorem getLast?_cons_eq_some (c : α) (t : List α) :
    (c :: t).getLast? = some sep ↔ t.getLast? = some sep ∨ t = [] ∧ c = sep := by
  cases t <;> simp [List.getLast?_cons]

theorem squeeze_concat (redundant : Bool) (t : List α) (b : α) :
    squeeze sep redundant (t ++ [b]) = squeeze sep redundant t ++
      if b = sep ∧ (t.getLast? = some sep ∨ t = [] ∧ redundant) then [] else [b] := by
  induction t generalizing redundant with
  | nil =>
      by_cases dropped : b = sep ∧ redundant = true
      · simp [squeeze, dropped]
      · simp [squeeze, dropped]
  | cons c t ih =>
      rw [List.cons_append, squeeze, squeeze]
      by_cases dropped : c = sep ∧ redundant = true
      · rw [if_pos dropped, if_pos dropped, ih]
        simp [getLast?_cons_eq_some, dropped.1]
      · rw [if_neg dropped, if_neg dropped, ih]
        simp [getLast?_cons_eq_some]

theorem keptPlaces_concat (t : List α) (b : α) :
    keptPlaces sep (t ++ [b]) = keptPlaces sep t ++
      if b = sep ∧ (t.getLast? = some sep ∨ t = []) then [] else [t.length] := by
  have before : ∀ i ∈ List.range t.length,
      decide (Kept sep (t ++ [b]) i) = decide (Kept sep t i) := by
    intro i hi
    have inside := List.mem_range.mp hi
    apply decide_eq_decide.mpr
    rw [Kept, Kept, List.getElem?_append_left inside, List.getElem?_append_left (by omega)]
  rw [keptPlaces, List.length_append, List.length_singleton, List.range_succ, List.filter_append,
    List.filter_congr before, keptPlaces, List.getLast?_eq_getElem?]
  congr 1
  have last : Kept sep (t ++ [b]) t.length ↔
      ¬(b = sep ∧ (t[t.length - 1]? = some sep ∨ t = [])) := by
    rw [Kept, List.getElem?_concat_length]
    cases t using List.reverseRecOn with
    | nil => simp
    | append_singleton t c => simp [imp_iff_not_or]
  by_cases kept : Kept sep (t ++ [b]) t.length
  · rw [if_neg (last.mp kept)]
    simp [kept]
  · rw [if_pos (not_not.mp (mt last.mpr kept))]
    simp [kept]

/-- What is left are the elements at the places that are kept. -/
theorem squeeze_eq_kept (t : List α) :
    (squeeze sep true t).map some = (keptPlaces sep t).map (t[·]?) := by
  induction t using List.reverseRecOn with
  | nil => rfl
  | append_singleton t b ih =>
      have before : ∀ i ∈ keptPlaces sep t, (t ++ [b])[i]? = t[i]? := by
        intro i hi
        have inside := List.mem_range.mp (List.mem_of_mem_filter hi)
        exact List.getElem?_append_left inside
      rw [squeeze_concat, keptPlaces_concat, List.map_append, List.map_append, ih,
        List.map_congr_left before]
      congr 1
      by_cases dropped : b = sep ∧ (t.getLast? = some sep ∨ t = [])
      · simp [dropped]
      · simp [dropped]

theorem length_squeeze (t : List α) : (squeeze sep true t).length = (keptPlaces sep t).length := by
  have same := congrArg List.length (@squeeze_eq_kept _ _ sep t)
  simpa using same

/-- Squeezing what is before a place keeps the places before it. -/
theorem length_squeeze_take (t : List α) (n : Nat) :
    (squeeze sep true (t.take n)).length = ((keptPlaces sep t).filter (· < n)).length := by
  induction t using List.reverseRecOn with
  | nil => simp [squeeze, keptPlaces]
  | append_singleton t b ih =>
      rcases Nat.lt_or_ge t.length n with beyond | inside
      · have all : ∀ i ∈ keptPlaces sep (t ++ [b]), decide (i < n) = true := by
          intro i hi
          have before := List.mem_range.mp (List.mem_of_mem_filter hi)
          rw [List.length_append, List.length_singleton] at before
          exact decide_eq_true (by omega)
        rw [List.take_of_length_le (by simp; omega), List.filter_eq_self.mpr all, length_squeeze]
      · rw [List.take_append_of_le_length inside, ih, keptPlaces_concat, List.filter_append]
        have none : (if b = sep ∧ (t.getLast? = some sep ∨ t = []) then [] else [t.length]).filter
            (· < n) = [] := by
          split <;> simp [inside]
        rw [none, List.append_nil]

/-! ## Where words start -/

/-- A word starts here. -/
def IsStart (sep : α) (t : List α) (i : Nat) : Prop :=
  i < t.length ∧ t[i]? ≠ some sep ∧ (i = 0 ∨ t[i - 1]? = some sep)

instance (t : List α) (i : Nat) : Decidable (IsStart sep t i) := inferInstanceAs (Decidable (_ ∧ _))

/-- The first start of a word behind a place, or the end of the list. -/
def nextStart (sep : α) (t : List α) (n : Nat) : Nat :=
  ((List.range t.length).find? fun i => n < i ∧ IsStart sep t i).getD t.length

/-- The starts of all words but one at the beginning, in order. -/
def laterStarts (sep : α) (t : List α) : List Nat :=
  (List.range t.length).filter fun i => 0 < i ∧ IsStart sep t i

section
variable {t : List α} {n i : Nat}

theorem nextStart_eq (behind : n < i) (start : IsStart sep t i)
    (first : ∀ j < i, n < j → ¬IsStart sep t j) : nextStart sep t n = i := by
  have found : (List.range t.length).find? (fun i => n < i ∧ IsStart sep t i) = some i := by
    rw [List.find?_range_eq_some]
    refine ⟨by simp [behind, start], List.mem_range.mpr start.1, ?_⟩
    intro j hj
    simpa [imp_iff_not_or] using first j hj
  rw [nextStart, found]
  rfl

theorem nextStart_eq_length (none : ∀ i, n < i → ¬IsStart sep t i) :
    nextStart sep t n = t.length := by
  have nothing : (List.range t.length).find? (fun i => n < i ∧ IsStart sep t i) = Option.none := by
    rw [List.find?_range_eq_none]
    intro i _
    simpa [imp_iff_not_or] using none i
  rw [nextStart, nothing]
  rfl

theorem nextStart_le (sep : α) (t : List α) (n : Nat) : nextStart sep t n ≤ t.length := by
  rw [nextStart]
  cases found : (List.range t.length).find? fun i => n < i ∧ IsStart sep t i with
  | none => exact le_rfl
  | some i => exact (List.mem_range.mp (List.mem_of_find?_eq_some found)).le

theorem nextStart_lt (behind : n < i) (start : IsStart sep t i) : nextStart sep t n < t.length := by
  rw [nextStart]
  cases found : (List.range t.length).find? fun i => n < i ∧ IsStart sep t i with
  | none =>
      have none := List.find?_range_eq_none.mp found i start.1
      simp [behind, start] at none
  | some j => exact List.mem_range.mp (List.mem_of_find?_eq_some found)

/-- Behind a separator, the first place that is none starts a word. -/
theorem exists_start (here : t[n]? = some sep) (behind : n < i) (inside : i < t.length)
    (other : t[i]? ≠ some sep) : ∃ j ≤ i, n < j ∧ IsStart sep t j := by
  have some_other : ∃ j, n < j ∧ t[j]? ≠ some sep := ⟨i, behind, other⟩
  obtain ⟨after, isOther⟩ := Nat.find_spec some_other
  have le : Nat.find some_other ≤ i := Nat.find_min' some_other ⟨behind, other⟩
  refine ⟨Nat.find some_other, le, after, by omega, isOther, .inr ?_⟩
  by_contra before
  rcases Nat.eq_or_lt_of_le (Nat.le_sub_one_of_lt after) with same | between
  · exact before (same ▸ here)
  · exact Nat.find_min some_other (by omega) ⟨between, before⟩

theorem mem_laterStarts : i ∈ laterStarts sep t ↔ 0 < i ∧ IsStart sep t i := by
  rw [laterStarts, List.mem_filter, List.mem_range, decide_eq_true_eq]
  exact ⟨fun h => h.2, fun h => ⟨h.2.1, h⟩⟩

theorem nextStart_eq_find (t : List α) (n : Nat) :
    nextStart sep t n = ((laterStarts sep t).find? (n < ·)).getD t.length := by
  rw [nextStart, laterStarts, List.find?_filter]
  congr 2
  funext i
  rw [Bool.eq_iff_iff]
  simp only [decide_eq_true_eq]
  constructor
  · intro ⟨behind, start⟩
    exact ⟨⟨Nat.zero_lt_of_lt behind, start⟩, behind⟩
  · intro ⟨⟨_, start⟩, behind⟩
    exact ⟨behind, start⟩

theorem laterStarts_getD_le (t : List α) (k : Nat) :
    (laterStarts sep t)[k]?.getD t.length ≤ t.length := by
  cases here : (laterStarts sep t)[k]? with
  | none => exact le_rfl
  | some i => exact (mem_laterStarts.mp (List.mem_of_getElem? here)).2.1.le

theorem laterStarts_sorted (t : List α) : (laterStarts sep t).Pairwise (· < ·) :=
  List.pairwise_lt_range.filter _

/-- In a sorted list the first entry behind one is the next one. -/
theorem find?_lt_of_sorted {places : List Nat} (sorted : places.Pairwise (· < ·)) {k s : Nat}
    (here : places[k]? = some s) : places.find? (s < ·) = places[k + 1]? := by
  induction places generalizing k with
  | nil => simp at here
  | cons a places ih =>
      rw [List.pairwise_cons] at sorted
      cases k with
      | zero =>
          obtain rfl : a = s := by simpa using here
          cases places with
          | nil => simp
          | cons b places => simp [sorted.1 b List.mem_cons_self]
      | succ k =>
          rw [List.getElem?_cons_succ] at here
          have before := sorted.1 s (List.mem_of_getElem? here)
          rw [List.find?_cons_of_neg (by simpa using before.le), ih sorted.2 here]
          rfl

/-- Behind the `k`-th start comes the next one. -/
theorem nextStart_getElem {k s : Nat} (here : (laterStarts sep t)[k]? = some s) :
    nextStart sep t s = (laterStarts sep t)[k + 1]?.getD t.length := by
  rw [nextStart_eq_find, find?_lt_of_sorted (laterStarts_sorted t) here]

theorem nextStart_zero (t : List α) :
    nextStart sep t 0 = (laterStarts sep t)[0]?.getD t.length := by
  have all : ∀ i ∈ laterStarts sep t, 0 < i := fun i hi => (mem_laterStarts.mp hi).1
  rw [nextStart_eq_find]
  cases places : laterStarts sep t with
  | nil => rfl
  | cons a places' =>
      rw [places] at all
      rw [List.find?_cons_of_pos (by simpa using all a List.mem_cons_self)]
      rfl

theorem nextStart_length (t : List α) : nextStart sep t t.length = t.length := by
  apply nextStart_eq_length
  intro i behind start
  exact absurd start.1 (Nat.not_lt.mpr behind.le)

/-- Going from one start to the next, from the beginning on, visits each later start once, in
    order, and then stays at the end. -/
theorem nextStart_iterate (t : List α) (k : Nat) :
    (nextStart sep t)^[k + 1] 0 = (laterStarts sep t)[k]?.getD t.length := by
  induction k with
  | zero => exact nextStart_zero t
  | succ k ih =>
      rw [Function.iterate_succ_apply', ih]
      cases here : (laterStarts sep t)[k]? with
      | some s => exact nextStart_getElem here
      | none =>
          have beyond := List.getElem?_eq_none_iff.mp here
          rw [List.getElem?_eq_none (by omega)]
          exact nextStart_length t

end

/-! ## Where words are -/

/-- The first token behind a place ends at the next separator or at the end of the list. -/
theorem splitOn_drop {t : List α} {n : Nat} (inside : n ≤ t.length) :
    ∃ token : List α, n + token.length ≤ t.length ∧
      (∀ i, n ≤ i → i < n + token.length → t[i]? ≠ some sep) ∧
      (n + token.length = t.length ∧ (t.drop n).splitOn sep = [token] ∨
        t[n + token.length]? = some sep ∧ (t.drop n).splitOn sep =
          token :: (t.drop (n + token.length + 1)).splitOn sep) := by
  have octet : ∀ i, n ≤ i → t[i]? = (t.drop n)[i - n]? := by
    intro i behind
    rw [List.getElem?_drop, Nat.add_sub_cancel' behind]
  by_cases more : sep ∈ t.drop n
  · obtain ⟨token, rest, split, first⟩ := List.eq_append_cons_of_mem more
    have length := congrArg List.length split
    rw [List.length_drop, List.length_append, List.length_cons] at length
    have behind : t.drop (n + token.length + 1) = rest := by
      rw [Nat.add_assoc, ← List.drop_drop, split]
      simp
    refine ⟨token, by omega, ?_, .inr ⟨?_, ?_⟩⟩
    · intro i hi before
      rw [octet i hi, split, List.getElem?_append_left (by omega)]
      exact fun found => first (List.mem_of_getElem? found)
    · rw [octet _ (by omega), split]
      simp
    · rw [behind, split, List.splitOn_append_cons_self, List.splitOn_eq_singleton first]
      rfl
  · refine ⟨t.drop n, ?_, ?_, .inl ⟨?_, List.splitOn_eq_singleton more⟩⟩
    · rw [List.length_drop]
      omega
    · intro i hi _
      rw [octet i hi]
      exact fun found => more (List.mem_of_getElem? found)
    · rw [List.length_drop]
      omega

/-- A word takes the places from `head` to before `stop`. -/
structure IsRun (sep : α) (t : List α) (head stop : Nat) : Prop where
  nonempty : head < stop
  inside : stop ≤ t.length
  other : ∀ i, head ≤ i → i < stop → t[i]? ≠ some sep
  start : head = 0 ∨ t[head - 1]? = some sep
  ends : stop = t.length ∨ t[stop]? = some sep

namespace IsRun

variable {t : List α} {head stop head' stop' n : Nat} (h : IsRun sep t head stop)

include h

omit [DecidableEq α] in
theorem isStart : IsStart sep t head :=
  ⟨h.nonempty.trans_le h.inside, h.other head le_rfl h.nonempty, h.start⟩

omit [DecidableEq α] in
/-- No word starts in another one, nor right behind it. -/
theorem not_isStart (behind : head < n) (before : n ≤ stop) : ¬IsStart sep t n := by
  intro start
  rcases start.2.2 with first | space
  · omega
  · exact h.other (n - 1) (by omega) (by omega) space

omit [DecidableEq α] in
/-- A place is in one word at most, or right behind it. -/
theorem unique (h' : IsRun sep t head' stop') (first : head ≤ n) (last : n ≤ stop)
    (first' : head' ≤ n) (last' : n ≤ stop') : head = head' ∧ stop = stop' := by
  have le : head ≤ head' := by
    by_contra before
    exact h'.not_isStart (by omega) (by omega) h.isStart
  have ge : head' ≤ head := by
    by_contra before
    exact h.not_isStart (by omega) (by omega) h'.isStart
  refine ⟨by omega, ?_⟩
  rcases Nat.lt_trichotomy stop stop' with less | same | more
  · rcases h.ends with all | space
    · have inside' := h'.inside
      omega
    · exact absurd space (h'.other stop (by have := h.nonempty; omega) less)
  · exact same
  · rcases h'.ends with all | space
    · have inside := h.inside
      omega
    · exact absurd space (h.other stop' (by have := h'.nonempty; omega) more)

end IsRun

end Sdplane.Words
