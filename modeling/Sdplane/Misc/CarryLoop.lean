import Mathlib.Data.List.Basic

/-!
# Loops that carry a value

A `for` loop over the elements of an array that changes the selected ones in place and
carries a value from round to round.
-/

namespace Sdplane

variable {κ α : Type}

/-- The elements after the loop, which is at index `i` and carries `k`. -/
def carryLoop (body : κ → α → κ × α) (selected : Nat → Bool) : Nat → κ → List α → List α
  | _, _, [] => []
  | i, k, a :: as =>
      if selected i then (body k a).2 :: carryLoop body selected (i + 1) (body k a).1 as
      else a :: carryLoop body selected (i + 1) k as

/-- What is carried behind rounds over `as`. -/
def carried (body : κ → α → κ × α) (k : κ) (as : List α) : κ :=
  as.foldl (fun k a => (body k a).1) k

/-- With all rounds taken, an element meets what the elements before it left. -/
theorem carryLoop_all (body : κ → α → κ × α) {selected : Nat → Bool}
    (all : ∀ i, selected i = true) (i : Nat) (k : κ) (as : List α) (j : Nat) :
    (carryLoop body selected i k as)[j]? =
      as[j]?.map fun a => (body (carried body k (as.take j)) a).2 := by
  induction as generalizing i k j with
  | nil => rfl
  | cons a as ih =>
      rw [carryLoop, if_pos (all i)]
      cases j with
      | zero => rfl
      | succ j =>
          rw [List.getElem?_cons_succ, ih, List.getElem?_cons_succ, List.take_succ_cons]
          rfl

/-- With one round taken, its element meets what the loop started with. -/
theorem carryLoop_one (body : κ → α → κ × α) {selected : Nat → Bool} {i j : Nat}
    (one : ∀ i', selected i' = true ↔ i' = i + j) (k : κ) (as : List α) :
    (carryLoop body selected i k as)[j]? = as[j]?.map fun a => (body k a).2 := by
  induction as generalizing i j with
  | nil => rfl
  | cons a as ih =>
      rw [carryLoop]
      cases j with
      | zero => rw [if_pos ((one i).mpr rfl)]; rfl
      | succ j =>
          rw [if_neg (fun taken => by have := (one i).mp taken; omega), List.getElem?_cons_succ,
            List.getElem?_cons_succ]
          refine ih fun i' => ?_
          rw [one]
          omega

/-- All elements fare as each would alone exactly when no element tells what is carried to it
    from what the loop started with. -/
theorem carryLoop_all_eq_one_iff (body : κ → α → κ × α) {all : Nat → Bool}
    {one : Nat → Nat → Bool} (takes : ∀ i, all i = true) (takesOne : ∀ j i, one j i = true ↔ i = j)
    (k : κ) (as : List α) :
    (∀ j : Nat, (carryLoop body all 0 k as)[j]? = (carryLoop body (one j) 0 k as)[j]?) ↔
      ∀ j a, as[j]? = some a → (body (carried body k (as.take j)) a).2 = (body k a).2 := by
  refine forall_congr' fun j => ?_
  rw [carryLoop_all body takes, carryLoop_one body fun i' => by rw [takesOne, Nat.zero_add]]
  cases as[j]? with
  | none => simp
  | some a => simp

/-! ## Flags -/

/-- A carried flag that each element may raise and none lowers. -/
theorem carried_flag {body : κ → α → κ × α} {get : κ → Bool} {flag : α → Bool}
    (raise : ∀ k a, get (body k a).1 = (get k || flag a)) (k : κ) (as : List α) :
    get (carried body k as) = (get k || as.any flag) := by
  induction as generalizing k with
  | nil => simp [carried]
  | cons a as ih =>
      rw [carried, List.foldl_cons, List.any_cons, ← Bool.or_assoc, ← raise k a]
      exact ih (body k a).1

/-- What every element needs of the flags before it, said about pairs. -/
theorem pairwise_flag_iff (flag : α → Bool) (R : α → Prop) (as : List α) :
    as.Pairwise (fun a b => flag a = true → R b) ↔
      ∀ (j : Nat) b, as[j]? = some b → (as.take j).any flag = true → R b := by
  rw [List.pairwise_iff_getElem]
  constructor
  · intro pairs j b here raised
    obtain ⟨inside, rfl⟩ := List.getElem?_eq_some_iff.mp here
    obtain ⟨a, mem, flagged⟩ := List.any_eq_true.mp raised
    obtain ⟨i, before, rfl⟩ := List.mem_take_iff_getElem.mp mem
    exact pairs i j (by omega) inside (by omega) flagged
  · intro prefixes i j _ inside before flagged
    refine prefixes j as[j] (List.getElem?_eq_getElem inside) ?_
    exact List.any_eq_true.mpr
      ⟨as[i], List.mem_take_iff_getElem.mpr ⟨i, by omega, rfl⟩, flagged⟩

end Sdplane
