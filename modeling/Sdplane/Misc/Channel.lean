import Mathlib.Data.List.Basic

/-!
# Channels

A bounded queue that may refuse what it is offered, and may be emptied into something that
refuses a part, with its history: what it was offered, what it gave, and how much was lost on
the way. That things leave in the order in which they came, each at most once, is a part of
what a channel is; that nothing was lost makes it exact.
-/

namespace Sdplane

/-- A channel with its history. -/
structure Channel (α : Type) where
  offered : List α
  given : List α
  held : List α
  lost : Nat
  inOrder : (given ++ held).Sublist offered
  counted : given.length + held.length + lost = offered.length

namespace Channel

variable {α : Type}

def empty : Channel α := ⟨[], [], [], 0, .slnil, rfl⟩

/-- Something is offered, and there is room for it or not. -/
def put (c : Channel α) (room : Bool) (x : α) : Channel α :=
  if room then
    { offered := c.offered ++ [x]
      given := c.given
      held := c.held ++ [x]
      lost := c.lost
      inOrder := by
        rw [← List.append_assoc]
        exact c.inOrder.append_right [x]
      counted := by
        have counted := c.counted
        rw [List.length_append, List.length_append]
        omega }
  else
    { offered := c.offered ++ [x]
      given := c.given
      held := c.held
      lost := c.lost + 1
      inOrder := c.inOrder.trans (List.sublist_append_left _ _)
      counted := by
        have counted := c.counted
        rw [List.length_append, List.length_singleton]
        omega }

/-- The first `n` are taken out. -/
def take (c : Channel α) (n : Nat) : Channel α where
  offered := c.offered
  given := c.given ++ c.held.take n
  held := c.held.drop n
  lost := c.lost
  inOrder := by
    rw [List.append_assoc, List.take_append_drop]
    exact c.inOrder
  counted := by
    have counted := c.counted
    have parts := congrArg List.length (List.take_append_drop n c.held)
    rw [List.length_append] at parts ⊢
    omega

/-- All are taken out, and those after the first `n` are thrown away. -/
def flush (c : Channel α) (n : Nat) : Channel α where
  offered := c.offered
  given := c.given ++ c.held.take n
  held := []
  lost := c.lost + (c.held.drop n).length
  inOrder := by
    rw [List.append_nil]
    exact ((List.take_sublist n c.held).append_left c.given).trans c.inOrder
  counted := by
    have counted := c.counted
    have parts := congrArg List.length (List.take_append_drop n c.held)
    rw [List.length_append] at parts ⊢
    rw [List.length_nil]
    omega

section
variable (c : Channel α) (room : Bool) (x : α) (n : Nat)

@[simp] theorem put_offered : (c.put room x).offered = c.offered ++ [x] := by
  unfold put
  split <;> rfl

@[simp] theorem put_given : (c.put room x).given = c.given := by
  unfold put
  split <;> rfl

@[simp] theorem put_held : (c.put true x).held = c.held ++ [x] := rfl

/-- Offering something does not bring back what was lost. -/
theorem lost_le_put : c.lost ≤ (c.put room x).lost := by
  unfold put
  split
  · exact Nat.le_refl _
  · exact Nat.le_succ _

@[simp] theorem take_held : (c.take n).held = c.held.drop n := rfl
@[simp] theorem take_offered : (c.take n).offered = c.offered := rfl
@[simp] theorem take_given : (c.take n).given = c.given ++ c.held.take n := rfl
@[simp] theorem flush_offered : (c.flush n).offered = c.offered := rfl
@[simp] theorem flush_given : (c.flush n).given = c.given ++ c.held.take n := rfl

/-- What came out went in, in the same order. -/
theorem given_sublist : c.given.Sublist c.offered :=
  (List.sublist_append_left c.given c.held).trans c.inOrder

variable {c room x} in
/-- What was not lost found room. -/
theorem room_of_lost (kept : (c.put room x).lost = c.lost) : room = true := by
  cases room with
  | true => rfl
  | false => exact absurd kept (Nat.succ_ne_self c.lost)

/-- A channel that lost nothing gave or holds everything. -/
theorem eq_offered_of_lost (whole : c.lost = 0) : c.given ++ c.held = c.offered := by
  have counted := c.counted
  apply c.inOrder.eq_of_length
  rw [List.length_append]
  omega

end

end Channel

end Sdplane
