import Mathlib.Data.List.Basic
import Mathlib.Logic.Function.Basic

/-!
# `for` loops over a list

A loop whose body knows its round, with what its rounds preserve. Nothing here depends on
what the loop is about.
-/

namespace Sdplane

/-- `for` over a list with a counter. -/
def forEach {σ α : Type} (body : Nat → α → σ → σ) : Nat → List α → σ → σ
  | _, [], s => s
  | i, a :: as, s => forEach body (i + 1) as (body i a s)

/-- The positions of a list, the first one apart. -/
theorem forall_getElem?_cons {α : Type} {P : Nat → α → Prop} {i : Nat} {a : α} {as : List α} :
    (∀ j b, (a :: as)[j]? = some b → P (i + j) b) ↔
      P i a ∧ ∀ j b, as[j]? = some b → P (i + 1 + j) b := by
  constructor
  · intro all
    refine ⟨all 0 a rfl, ?_⟩
    intro j b hb
    have next := all (j + 1) b (by simpa using hb)
    rwa [← Nat.add_assoc, Nat.add_right_comm] at next
  · rintro ⟨head, rest⟩ j b hb
    cases j with
    | zero =>
        rw [← Option.some.inj hb]
        exact head
    | succ j =>
        rw [← Nat.add_assoc, Nat.add_right_comm]
        exact rest j b (by simpa using hb)

/-- What holds after each round exactly when it did before and the round is `ok`. -/
theorem forEach_iff {σ α : Type} {body : Nat → α → σ → σ} {P : σ → Prop} {ok : Nat → α → Prop}
    (step : ∀ i a s, P (body i a s) ↔ P s ∧ ok i a) (i : Nat) (as : List α) (s : σ) :
    P (forEach body i as s) ↔ P s ∧ ∀ j a, as[j]? = some a → ok (i + j) a := by
  induction as generalizing i s with
  | nil => simp [forEach]
  | cons a as ih => rw [forEach, ih, step, forall_getElem?_cons, and_assoc]

/-- What no round changes, the loop does not change. -/
theorem forEach_keeps {σ α β : Type} {body : Nat → α → σ → σ} (part : σ → β)
    (step : ∀ i a s, part (body i a s) = part s) (i : Nat) (as : List α) (s : σ) :
    part (forEach body i as s) = part s := by
  induction as generalizing i s with
  | nil => rfl
  | cons a as ih => rw [forEach, ih, step]

/-- A loop whose rounds each change the entry of their own element. -/
theorem forEach_update {α ι β : Type} [DecidableEq ι] {k : α → ι} (inj : Function.Injective k)
    (F : α → β → β) (i : Nat) {as : List α} (distinct : as.Nodup) (g : ι → β) (j : ι) :
    (∀ a ∈ as, k a = j → forEach (fun _ a g => Function.update g (k a) (F a (g (k a)))) i as g j =
        F a (g j)) ∧
      ((∀ a ∈ as, k a ≠ j) →
        forEach (fun _ a g => Function.update g (k a) (F a (g (k a)))) i as g j = g j) := by
  induction as generalizing i g with
  | nil => exact ⟨fun a none => absurd none List.not_mem_nil, fun _ => rfl⟩
  | cons b as ih =>
      obtain ⟨fresh, rest⟩ := List.nodup_cons.mp distinct
      obtain ⟨inside, outside⟩ := ih (i + 1) rest (Function.update g (k b) (F b (g (k b))))
      rw [forEach]
      constructor
      · intro a mem here
        rcases List.mem_cons.mp mem with rfl | later
        · rw [outside fun b mem' same => fresh (inj (same.trans here.symm) ▸ mem'), ← here,
            Function.update_self]
        · have other : k b ≠ j := by
            rintro rfl
            exact fresh (inj here ▸ later)
          rw [inside a later here, Function.update_of_ne other.symm]
      · intro none
        rw [outside fun a mem => none a (List.mem_cons_of_mem b mem),
          Function.update_of_ne (none b List.mem_cons_self).symm]

/-- What a loop remembers of its rounds with `p`: nothing new, where no round has it, or that
    of a round that has it. -/
theorem forEach_found {α β : Type} (p : α → Prop) [DecidablePred p] (g : Nat → β) (i : Nat)
    (as : List α) (r : β) :
    (forEach (fun i a r => if p a then g i else r) i as r = r ∧
        ∀ (j : Nat) (a : α), as[j]? = some a → ¬p a) ∨
      ∃ j a, as[j]? = some a ∧ p a ∧
        forEach (fun i a r => if p a then g i else r) i as r = g (i + j) := by
  induction as generalizing i r with
  | nil => simp [forEach]
  | cons a as ih =>
      rw [forEach]
      rcases ih (i + 1) (if p a then g i else r) with ⟨kept, none⟩ | ⟨j, b, hb, pb, last⟩
      · by_cases pa : p a
        · exact .inr ⟨0, a, rfl, pa, by rw [kept, if_pos pa, Nat.add_zero]⟩
        · refine .inl ⟨by rw [kept, if_neg pa], ?_⟩
          intro j b hb
          cases j with
          | zero => exact Option.some.inj hb ▸ pa
          | succ j => exact none j b (by simpa using hb)
      · refine .inr ⟨j + 1, b, by simpa using hb, pb, ?_⟩
        rw [last, Nat.add_right_comm, Nat.add_assoc]

end Sdplane
