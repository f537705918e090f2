import Mathlib.Tactic.Common

/-!
# Binary search by halves

A window of `size` slots from `index` on is searched by the sign at its middle. Both halves
have `size / 2` slots: of an even window the middle stays in the upper one. Nothing here
depends on what is searched.
-/

namespace Sdplane.BinarySearch

/-! ## Comparisons -/

variable {β : Type}

/-- A three-way comparison of a total preorder. -/
structure ThreeWay (cmp : β → β → Int) : Prop where
  swap : ∀ a b, cmp a b < 0 ↔ 0 < cmp b a
  trans : ∀ a b c, cmp a b ≤ 0 → cmp b c ≤ 0 → cmp a c ≤ 0

namespace ThreeWay

variable {cmp : β → β → Int} (h : ThreeWay cmp) {a b c : β}

include h

theorem le_swap : cmp a b ≤ 0 ↔ 0 ≤ cmp b a := by
  have less := h.swap b a
  omega

theorem lt_of_lt_of_le (less : cmp a b < 0) (le : cmp b c ≤ 0) : cmp a c < 0 := by
  by_contra not_less
  have back : cmp c a ≤ 0 := h.le_swap.mpr (by omega)
  have around := h.trans b c a le back
  have greater := (h.swap a b).mp less
  omega

theorem gt_of_gt_of_le (greater : 0 < cmp a c) (le : cmp b c ≤ 0) : 0 < cmp a b := by
  have less : cmp c a < 0 := (h.swap c a).mpr greater
  by_contra not_greater
  have below : cmp b a < 0 := by
    by_contra not_less
    have other : cmp a b ≤ 0 := by omega
    have around := h.trans a b c other le
    omega
  have signs := h.swap b a
  omega

end ThreeWay

/-! ## Windows -/

variable (sign : Nat → Int)

/-- Where the sign is zero, and the places that were looked at. -/
def search (index size : Nat) : Option Nat × List Nat :=
  let middle := index + size / 2
  if sign middle = 0 then (some middle, [middle])
  else if size ≤ 1 then (none, [middle])
  else
    let lower := if sign middle < 0 then index else middle + size % 2
    let rest := search lower (size / 2)
    (rest.1, middle :: rest.2)
termination_by size

/-- The sign falls along the first `n` places. -/
structure Falls (n : Nat) : Prop where
  neg : ∀ i j, i ≤ j → j < n → sign i < 0 → sign j < 0
  pos : ∀ i j, i ≤ j → j < n → 0 < sign j → 0 < sign i

variable {sign}

/-- Only the window is looked at. -/
theorem mem_search {index size : Nat} (nonempty : 0 < size) :
    ∀ i ∈ (search sign index size).2, index ≤ i ∧ i < index + size := by
  fun_induction search sign index size with
  | case1 index size middle found => simp; omega
  | case2 index size middle other small => simp; omega
  | case3 index size middle other large lower rest ih =>
      intro i mem
      rcases List.mem_cons.mp mem with here | later
      · omega
      · have inside := ih (by omega) i later
        dsimp only [lower] at inside
        split at inside <;> omega

/-- What is found is looked at, and its sign is zero. -/
theorem search_found {index size i : Nat} (found : (search sign index size).1 = some i) :
    sign i = 0 ∧ i ∈ (search sign index size).2 := by
  fun_induction search sign index size with
  | case1 index size middle zero =>
      rw [← Option.some.inj found]
      exact ⟨zero, List.mem_singleton_self _⟩
  | case2 index size middle other small => cases found
  | case3 index size middle other large lower rest ih =>
      obtain ⟨zero, later⟩ := ih found
      exact ⟨zero, List.mem_cons_of_mem _ later⟩

/-- What is not found is not in the window: the half that is left out is on one side of zero. -/
theorem search_missing {n index size : Nat} (falls : Falls sign n) (inside : index + size ≤ n)
    (missing : (search sign index size).1 = none) :
    ∀ i, index ≤ i → i < index + size → sign i ≠ 0 := by
  fun_induction search sign index size with
  | case1 index size middle zero => cases missing
  | case2 index size middle other small =>
      intro i first last
      have here : i = middle := by omega
      rw [here]
      exact other
  | case3 index size middle other large lower rest ih =>
      intro i first last
      have half : lower + size / 2 ≤ n := by
        dsimp only [lower]
        split <;> omega
      have rest_missing := ih half missing i
      by_cases less : sign middle < 0
      · have lower_eq : lower = index := if_pos less
        by_cases below : i < middle
        · exact rest_missing (by omega) (by omega)
        · exact Int.ne_of_lt (falls.neg middle i (by omega) (by omega) less)
      · have lower_eq : lower = middle + size % 2 := if_neg less
        have greater : 0 < sign middle := by omega
        by_cases above : lower ≤ i
        · exact rest_missing above (by omega)
        · exact Int.ne_of_gt (falls.pos i middle (by omega) (by omega) greater)

/-- Along a sorted list, the comparison with a key falls. -/
theorem falls_of_sorted {cmp : β → β → Int} (h : ThreeWay cmp) {xs : List β} (key : β)
    (sorted : xs.Pairwise fun a b => cmp a b ≤ 0)
    (signs : ∀ i (inside : i < xs.length), sign i = cmp key xs[i]) : Falls sign xs.length := by
  have le : ∀ i j (before : i ≤ j) (inside : j < xs.length), cmp xs[i] xs[j] ≤ 0 := by
    intro i j before inside
    rcases Nat.lt_or_eq_of_le before with before | rfl
    · exact List.pairwise_iff_getElem.mp sorted i j (by omega) inside before
    · have self := h.swap xs[i] xs[i]
      omega
  constructor
  · intro i j before inside less
    rw [signs i (by omega)] at less
    rw [signs j inside]
    exact h.lt_of_lt_of_le less (le i j before inside)
  · intro i j before inside greater
    rw [signs j inside] at greater
    rw [signs i (by omega)]
    exact h.gt_of_gt_of_le greater (le i j before inside)

end Sdplane.BinarySearch
