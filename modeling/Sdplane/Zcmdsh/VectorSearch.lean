import Sdplane.Misc.BinarySearch
import Sdplane.Zcmdsh.VectorWalk

/-!
# Binary search in a vector

`vector_binsearch` takes the size of its window as an `int`, and asserts that it is not
negative. The comparison is given the element that is looked for and one of the vector.
-/

namespace Sdplane.CVector

open BinarySearch

variable {α : Type}

/-- An `unsigned int` as an `int`. -/
def toInt (n : Nat) : Int := if n < 2 ^ 31 then n else n - 2 ^ 32

section
variable (cmp : Option α → Option α → Int)

/-- `vector_binsearch`, and the indices of the elements that are compared. -/
def vectorBinsearch (data : Option α) (index size : Int) (v : CVector α) :
    Except Stop (Int × List Int) :=
  let middle := index + size.tdiv 2
  let shift := if size.tmod 2 = 1 then 1 else 0
  if size < 0 then .error .assertion
  else do
    let current ← v.slot middle
    let ret := cmp data current
    if ret = 0 then .ok (middle, [middle])
    -- search failed
    else if size = 0 ∨ size = 1 then .ok (-1, [middle])
    else do
      let rest ←
        if ret < 0 then vectorBinsearch data index (size.tdiv 2) v
        else vectorBinsearch data (middle + shift) (size.tdiv 2) v
      .ok (rest.1, middle :: rest.2)
termination_by size.toNat
decreasing_by
  all_goals
    rw [Int.tdiv_eq_ediv_of_nonneg (by omega)]
    omega

/-- `vector_lookup_index_bsearch`, and the indices of the elements that are compared. -/
def lookupIndexBsearch (data : Option α) (v : CVector α) : Except Stop (Int × List Int) :=
  if v.size = 0 then .ok (-1, [])
  else do
    let (index, compared) ← vectorBinsearch cmp data 0 (toInt v.size) v
    if index < 0 then .ok (-1, compared)
    else do
      let current ← v.slot index
      let compared := compared ++ [index]
      if cmp data current = 0 then .ok (index, compared) else .ok (-1, compared)

end

variable {cmp : Option α → Option α → Int} {v : CVector α} {xs : List (Option α)}

/-- What `vector_binsearch` returns. -/
def indexOrMinusOne : Option Nat → Int
  | none => -1
  | some i => i

theorem half_natCast (size : Nat) : (size : Int).tdiv 2 = (size / 2 : Nat) := by
  rw [Int.tdiv_eq_ediv_of_nonneg (by omega)]
  omega

/-- The middle of an odd window is left out of its upper half. -/
theorem shift_natCast (size : Nat) :
    (if (size : Int).tmod 2 = 1 then (1 : Int) else 0) = (size % 2 : Nat) := by
  rw [Int.tmod_eq_emod_of_nonneg (by omega)]
  split <;> omega

/-- A round of `vector_binsearch` whose middle is in the block. -/
theorem vectorBinsearch_natCast (data : Option α) {index size : Nat}
    (inside : index + size / 2 < v.limit) :
    vectorBinsearch cmp data index size v =
      let middle := index + size / 2
      if cmp data (v.array middle) = 0 then .ok ((middle : Int), [(middle : Int)])
      else if size ≤ 1 then .ok (-1, [(middle : Int)])
      else
        (vectorBinsearch cmp data
          (if cmp data (v.array middle) < 0 then index else middle + size % 2 : Nat)
          (size / 2 : Nat) v).map fun rest => (rest.1, (middle : Int) :: rest.2) := by
  have middle_natCast : (index : Int) + (size : Int).tdiv 2 = (index + size / 2 : Nat) := by
    rw [half_natCast, Nat.cast_add]
  have small : ((size : Int) = 0 ∨ (size : Int) = 1) ↔ size ≤ 1 := by omega
  rw [vectorBinsearch, if_neg (by omega), middle_natCast, slot_natCast inside]
  dsimp only [bind, Except.bind]
  simp only [small]
  rw [half_natCast, shift_natCast, ← Nat.cast_add]
  by_cases less : cmp data (v.array (index + size / 2)) < 0
  · rw [if_pos less, if_pos less]
    rfl
  · rw [if_neg less, if_neg less]
    rfl

/-- Inside the block, `vector_binsearch` is the search by halves. -/
theorem vectorBinsearch_eq (data : Option α) {index size : Nat} (nonempty : 0 < size)
    (inside : index + size ≤ v.limit) :
    vectorBinsearch cmp data index size v =
      let found := search (fun i => cmp data (v.array i)) index size
      .ok (indexOrMinusOne found.1, found.2.map fun i : Nat => (i : Int)) := by
  fun_induction search (fun i => cmp data (v.array i)) index size with
  | case1 index size middle zero =>
      rw [vectorBinsearch_natCast data (show index + size / 2 < v.limit by omega)]
      exact if_pos zero
  | case2 index size middle other small =>
      rw [vectorBinsearch_natCast data (show index + size / 2 < v.limit by omega)]
      exact (if_neg other).trans (if_pos small)
  | case3 index size middle other large lower rest ih =>
      have half : lower + size / 2 ≤ v.limit := by
        dsimp only [lower]
        split <;> omega
      have later : vectorBinsearch cmp data lower (size / 2 : Nat) v =
          .ok (indexOrMinusOne rest.1, rest.2.map fun i : Nat => (i : Int)) := ih (by omega) half
      rw [vectorBinsearch_natCast data (show index + size / 2 < v.limit by omega)]
      refine (if_neg other).trans ((if_neg large).trans ?_)
      exact congrArg (Except.map _) later

/-- The lookup compares what the search by halves looks at, and once more what it finds. -/
theorem Elements.lookupIndexBsearch_eq (h : v.Elements xs) (some_ : v.size ≠ 0)
    (small : v.size < 2 ^ 31) (data : Option α) :
    v.lookupIndexBsearch cmp data =
      let found := search (fun i => cmp data (v.array i)) 0 v.size
      .ok (indexOrMinusOne found.1, (found.2 ++ found.1.toList).map fun i : Nat => (i : Int)) := by
  have window : vectorBinsearch cmp data (0 : Nat) v.size v = _ :=
    vectorBinsearch_eq data (Nat.pos_of_ne_zero some_) (by simpa using h.size_le)
  have toInt_eq : toInt v.size = v.size := if_pos small
  rw [Nat.cast_zero] at window
  rw [lookupIndexBsearch, if_neg some_, toInt_eq, window]
  dsimp only [bind, Except.bind]
  cases found : (search (fun i => cmp data (v.array i)) 0 v.size).1 with
  | none =>
      rw [indexOrMinusOne, if_pos (by decide)]
      simp
  | some i =>
      obtain ⟨zero, mem⟩ := search_found found
      have inside := (mem_search (Nat.pos_of_ne_zero some_) i mem).2
      have read : v.slot i = .ok (v.array i) := slot_natCast (by
        have size_le := h.size_le
        omega)
      rw [indexOrMinusOne, if_neg (by omega), read]
      dsimp only
      rw [if_pos zero]
      simp

/-- A vector whose size is an `int` is searched through: only its elements are compared, and what
    is returned is the index of one that compares equal, where there is one. -/
theorem lookupIndexBsearch_sorted (order : ThreeWay cmp) (h : v.Elements xs)
    (sorted : xs.Pairwise fun a b => cmp a b ≤ 0) (small : v.size < 2 ^ 31) (data : Option α) :
    ∃ index compared, v.lookupIndexBsearch cmp data = .ok (index, compared) ∧
      (∀ i ∈ compared, 0 ≤ i ∧ i < v.size) ∧
      ((∃ (i : Nat) (inside : i < xs.length), index = i ∧ cmp data xs[i] = 0) ∨
        index = -1 ∧ ∀ x ∈ xs, cmp data x ≠ 0) := by
  have size := h.size
  by_cases empty : v.size = 0
  · refine ⟨-1, [], if_pos empty, by simp, .inr ⟨rfl, ?_⟩⟩
    have nil : xs = [] := List.eq_nil_of_length_eq_zero (by omega)
    simp [nil]
  · refine ⟨_, _, h.lookupIndexBsearch_eq empty small data, ?_, ?_⟩
    · intro i mem
      obtain ⟨place, looked, rfl⟩ := List.mem_map.mp mem
      have looked_at : place ∈ (search (fun i => cmp data (v.array i)) 0 v.size).2 := by
        rcases List.mem_append.mp looked with probed | found
        · exact probed
        · exact (search_found (Option.mem_toList.mp found)).2
      have inside := mem_search (Nat.pos_of_ne_zero empty) place looked_at
      omega
    · have signs (i : Nat) (inside : i < xs.length) : cmp data (v.array i) = cmp data xs[i] := by
        rw [h.slots i inside]
      cases found : (search (fun i => cmp data (v.array i)) 0 v.size).1 with
      | some i =>
          obtain ⟨zero, mem⟩ := search_found found
          have inside := mem_search (Nat.pos_of_ne_zero empty) i mem
          exact .inl ⟨i, by omega, rfl, (signs i (by omega)).symm.trans zero⟩
      | none =>
          refine .inr ⟨rfl, ?_⟩
          intro x mem
          obtain ⟨i, inside, rfl⟩ := List.getElem_of_mem mem
          rw [← signs i inside]
          have falls := falls_of_sorted order data sorted signs
          exact search_missing falls (by omega) found i (Nat.zero_le i) (by omega)

/-- The order of numbers; `NULL` counts as zero. -/
def compareNumbers (a b : Option Nat) : Int := (a.getD 0 : Int) - b.getD 0

theorem threeWay_compareNumbers : ThreeWay compareNumbers where
  swap := by
    intro a b
    unfold compareNumbers
    omega
  trans := by
    intro a b c
    unfold compareNumbers
    omega

/-- Three numbers in four slots. -/
def tens : CVector Nat := ⟨fun i => [some 10, some 20, some 30][i]?.join, 4, 3⟩

theorem lookupIndexBsearch_sorted_tens : ∃ index compared,
    tens.lookupIndexBsearch compareNumbers (some 20) = .ok (index, compared) ∧
      (∀ i ∈ compared, 0 ≤ i ∧ i < tens.size) ∧
      ((∃ (i : Nat) (inside : i < [some 10, some 20, some 30].length),
          index = i ∧ compareNumbers (some 20) [some 10, some 20, some 30][i] = 0) ∨
        index = -1 ∧ ∀ x ∈ [some 10, some 20, some 30], compareNumbers (some 20) x ≠ 0) := by
  apply lookupIndexBsearch_sorted threeWay_compareNumbers
  · refine ⟨rfl, by decide, ?_⟩
    intro i inside
    rw [tens]
    dsimp only
    rw [List.getElem?_eq_getElem inside]
    rfl
  · decide
  · decide

/-- From 2^31 elements on the size is negative as an `int`. -/
theorem lookupIndexBsearch_large (large : 2 ^ 31 ≤ v.size) (wide : v.size < 2 ^ 32)
    (data : Option α) : v.lookupIndexBsearch cmp data = .error .assertion := by
  have negative : toInt v.size < 0 := by
    rw [toInt, if_neg (by omega)]
    omega
  rw [lookupIndexBsearch, if_neg (by omega), vectorBinsearch, if_pos negative]
  rfl

/-- A vector of 2^31 elements, all of them seven: looking for seven ends in the assertion. -/
theorem lookupIndexBsearch_sorted_not : ThreeWay compareNumbers ∧
    ∃ (v : CVector Nat) (xs : List (Option Nat)),
      v.Reachable ∧ v.Elements xs ∧ xs.Pairwise (fun a b => compareNumbers a b ≤ 0) ∧
        some 7 ∈ xs ∧ v.lookupIndexBsearch compareNumbers (some 7) = .error .assertion := by
  have length : (List.replicate (2 ^ 31) (some 7)).length = 2 ^ 31 := List.length_replicate
  obtain ⟨v, reached, h⟩ := exists_represents (List.replicate (2 ^ 31) (some 7)) length.le
  have size : v.size = 2 ^ 31 := h.size.trans length
  refine ⟨threeWay_compareNumbers, v, _, reached, h.elements, ?_, ?_, ?_⟩
  · apply List.pairwise_replicate.mpr
    right
    decide
  · exact List.mem_replicate.mpr ⟨by omega, rfl⟩
  · exact lookupIndexBsearch_large size.ge (by omega) (some 7)

end Sdplane.CVector
