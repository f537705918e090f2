import Mathlib.Data.Nat.Find
import Mathlib.Logic.Function.Iterate
import Mathlib.Data.List.Range

/-!
# Do-while loops that emit

A `do ... while` loop whose every round emits one item, run with an explicit bound on the
number of rounds. The flag of the result tells whether the loop ended by itself; a loop
that never does so leaves it false at every bound.
-/

namespace Sdplane.DoWhile

variable {σ β : Type} (emit : Nat → σ → β) (next : σ → σ) (again : σ → Bool)

/-- The loop from its `i`-th round on, for at most `fuel` rounds. -/
def run : Nat → Nat → σ → List β × Bool
  | 0, _, _ => ([], false)
  | fuel + 1, i, s =>
      if again (next s) then
        let rest := run fuel (i + 1) (next s)
        (emit i s :: rest.1, rest.2)
      else ([emit i s], true)

/-- What `n` rounds emit. -/
def rounds (n i : Nat) (s : σ) : List β := (List.range n).map fun j => emit (i + j) (next^[j] s)

theorem rounds_succ (n i : Nat) (s : σ) :
    rounds emit next (n + 1) i s = emit i s :: rounds emit next n (i + 1) (next s) := by
  simp only [rounds, List.range_succ_eq_map, List.map_cons, List.map_map, Nat.add_zero,
    Function.iterate_zero, id_eq, List.cons.injEq, true_and]
  apply List.map_congr_left
  intro j _
  simp only [Function.comp_apply, Function.iterate_succ_apply, Nat.succ_eq_add_one]
  rw [Nat.add_right_comm, Nat.add_assoc]

variable {next again}

/-- While every round asks for another one, the bound is used up. -/
theorem run_of_again {fuel i : Nat} {s : σ} (more : ∀ j < fuel, again (next^[j + 1] s) = true) :
    run emit next again fuel i s = (rounds emit next fuel i s, false) := by
  induction fuel generalizing i s with
  | zero => rfl
  | succ fuel ih =>
      have first : again (next s) = true := more 0 (Nat.succ_pos fuel)
      have rest := @ih (i + 1) (next s) fun j hj => more (j + 1) (Nat.succ_lt_succ hj)
      simp only [run, first, if_true, rest, rounds_succ]

/-- A loop whose `n`-th round is the first that asks for no other one ends after it. -/
theorem run_of_first {n fuel i : Nat} {s : σ} (more : ∀ j < n, again (next^[j + 1] s) = true)
    (last : again (next^[n + 1] s) = false) (bound : n < fuel) :
    run emit next again fuel i s = (rounds emit next (n + 1) i s, true) := by
  induction n generalizing fuel i s with
  | zero =>
      obtain ⟨fuel, rfl⟩ := Nat.exists_eq_succ_of_ne_zero (Nat.ne_of_gt bound)
      simp only [Nat.zero_add, Function.iterate_one] at last
      simp [run, last, rounds]
  | succ n ih =>
      obtain ⟨fuel, rfl⟩ := Nat.exists_eq_succ_of_ne_zero (Nat.ne_of_gt (Nat.zero_lt_of_lt bound))
      have first : again (next s) = true := more 0 (Nat.succ_pos n)
      have rest := @ih fuel (i + 1) (next s) (fun j hj => more (j + 1) (Nat.succ_lt_succ hj)) last
        (Nat.lt_of_succ_lt_succ bound)
      simp only [run, first, if_true, rest, rounds_succ emit next (n + 1)]

/-- At any bound the loop either uses it up or ends after the first round that asks for no
    other one. -/
theorem run_cases (next : σ → σ) (again : σ → Bool) (fuel i : Nat) (s : σ) :
    (∀ j < fuel, again (next^[j + 1] s) = true) ∧
        run emit next again fuel i s = (rounds emit next fuel i s, false) ∨
      ∃ n < fuel, (∀ j < n, again (next^[j + 1] s) = true) ∧ again (next^[n + 1] s) = false ∧
        run emit next again fuel i s = (rounds emit next (n + 1) i s, true) := by
  by_cases ends : ∃ n, n < fuel ∧ again (next^[n + 1] s) = false
  · right
    obtain ⟨bound, last⟩ := Nat.find_spec ends
    have more : ∀ j < Nat.find ends, again (next^[j + 1] s) = true := by
      intro j hj
      have not_last := Nat.find_min ends hj
      by_contra stop
      exact not_last ⟨by omega, by simpa using stop⟩
    exact ⟨_, bound, more, last, run_of_first emit more last bound⟩
  · left
    have more : ∀ j < fuel, again (next^[j + 1] s) = true := by
      intro j hj
      by_contra stop
      exact ends ⟨j, hj, by simpa using stop⟩
    exact ⟨more, run_of_again emit more⟩

/-- Round `j` is reached when each one before it asked for another one. -/
theorem mem_run_iff {fuel i : Nat} {s : σ} {x : β} :
    x ∈ (run emit next again fuel i s).1 ↔
      ∃ j < fuel, (∀ k < j, again (next^[k + 1] s) = true) ∧ x = emit (i + j) (next^[j] s) := by
  have mem_rounds : ∀ n, x ∈ rounds emit next n i s ↔ ∃ j < n, x = emit (i + j) (next^[j] s) := by
    intro n
    simp only [rounds, List.mem_map, List.mem_range, eq_comm]
  rcases run_cases emit next again fuel i s with
    ⟨more, ran⟩ | ⟨n, bound, more, last, ran⟩
  · rw [ran, mem_rounds]
    constructor
    · rintro ⟨j, hj, rfl⟩
      exact ⟨j, hj, fun k hk => more k (hk.trans hj), rfl⟩
    · rintro ⟨j, hj, -, rfl⟩
      exact ⟨j, hj, rfl⟩
  · rw [ran, mem_rounds]
    constructor
    · rintro ⟨j, hj, rfl⟩
      exact ⟨j, by omega, fun k hk => more k (by omega), rfl⟩
    · rintro ⟨j, -, reached, rfl⟩
      refine ⟨j, ?_, rfl⟩
      by_contra past
      have again := reached n (by omega)
      rw [last] at again
      exact Bool.noConfusion again

/-- Round `k` of a run, what it started from, and the rounds before it. -/
theorem getElem?_run {fuel i k : Nat} {s : σ} {x : β}
    (item : (run emit next again fuel i s).1[k]? = some x) :
    x = emit (i + k) (next^[k] s) ∧
      (run emit next again fuel i s).1.take k = rounds emit next k i s ∧
      ∀ j < k, again (next^[j + 1] s) = true := by
  have ofRounds (n : Nat) (item : (rounds emit next n i s)[k]? = some x) :
      k < n ∧ x = emit (i + k) (next^[k] s) ∧
        (rounds emit next n i s).take k = rounds emit next k i s := by
    obtain ⟨inside, same⟩ := List.getElem?_eq_some_iff.mp item
    have bound : k < n := by simpa [rounds] using inside
    refine ⟨bound, by simpa [rounds] using same.symm, ?_⟩
    rw [rounds, rounds, ← List.map_take, List.take_range, Nat.min_eq_left (Nat.le_of_lt bound)]
  rcases run_cases emit next again fuel i s with
    ⟨more, ran⟩ | ⟨n, bound, more, last, ran⟩
  · rw [ran] at item ⊢
    obtain ⟨inside, same, before⟩ := ofRounds fuel item
    exact ⟨same, before, fun j hj => more j (hj.trans inside)⟩
  · rw [ran] at item ⊢
    obtain ⟨inside, same, before⟩ := ofRounds (n + 1) item
    exact ⟨same, before, fun j hj => more j (by omega)⟩

end Sdplane.DoWhile
