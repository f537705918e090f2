import Mathlib.Data.List.ReduceOption
import Mathlib.Logic.Function.Basic

/-!
# Rings with a hole

A ring of slots, one of which is empty: the hole. What is added goes into the hole, and the
slot in front of it becomes the next one. So the slots behind the hole hold what was added
last, one entry fewer than there are slots; where nothing could be added, the slot stays empty.
`back` counts the slots from the hole.
-/

namespace Sdplane.Ring

variable {α : Type}

/-- The slot in front of slot `i`. -/
def next (size i : Nat) : Nat := if i + 1 = size then 0 else i + 1

/-- The slot behind slot `i`. -/
def prev (size i : Nat) : Nat := if i = 0 then size - 1 else i - 1

/-- The slot `d` steps behind slot `i`. -/
def back (size i d : Nat) : Nat := if d ≤ i then i - d else i + size - d

/-- The slots that hold something, from slot `i` on and before the slot `stop`; none where
    `fuel` slots are not enough. -/
def collect (size : Nat) (array : Nat → Option α) (stop : Nat) : Nat → Nat → Option (List (Nat × α))
  | 0, _ => none
  | fuel + 1, i =>
      if i = stop then some []
      else (collect size array stop fuel (next size i)).map
        ((array i).toList.map (fun x => (i, x)) ++ ·)

section
variable {size i d d' : Nat}

@[simp] theorem back_zero (size i : Nat) : back size i 0 = i := by simp [back]

theorem back_lt (hi : i < size) (hd : d < size) : back size i d < size := by
  unfold back
  split <;> omega

theorem back_inj (hd : d < size) (hd' : d' < size) :
    back size i d = back size i d' ↔ d = d' := by
  unfold back
  split <;> split <;> omega

theorem prev_back (hi : i < size) (hd : d < size) :
    prev size (back size i d) = back size i (d + 1) := by
  unfold prev back
  split <;> split <;> split <;> omega

theorem next_back (hi : i < size) (hd : d < size) :
    next size (back size i (d + 1)) = back size i d := by
  unfold next back
  split <;> split <;> split <;> omega

theorem back_next (hd : d < size) :
    back size (next size i) (d + 1) = back size i d := by
  unfold next back
  split <;> split <;> split <;> omega

theorem next_eq_back (hi : i < size) : next size i = back size i (size - 1) := by
  unfold next back
  split <;> split <;> omega

theorem next_lt (hi : i < size) : next size i < size := by
  rw [next_eq_back hi]
  exact back_lt hi (by omega)

end

/-- The slots behind the hole hold the newest of the items, the last of them first. -/
structure Holds (size : Nat) (array : Nat → Option α) (hole : Nat) (items : List (Option α)) :
    Prop where
  hole_lt : hole < size
  empty : array hole = none
  slot : ∀ d, d + 1 < size → array (back size hole (d + 1)) = items.reverse[d]?.join

namespace Holds

variable {size hole : Nat} {array : Nat → Option α} {items : List (Option α)}

/-- An empty ring holds nothing. -/
theorem nil (hole_lt : hole < size) (array_none : ∀ i, array i = none) :
    Holds size array hole [] := by
  refine ⟨hole_lt, array_none hole, ?_⟩
  intro d _
  rw [array_none]
  rfl

variable (h : Holds size array hole items)

include h

/-- Adding an item fills the hole, and forgets what is in front of it. -/
theorem push (x : Option α) :
    Holds size (Function.update (Function.update array hole x) (next size hole) none)
      (next size hole) (items ++ [x]) := by
  have hole_lt := h.hole_lt
  refine ⟨next_lt hole_lt, Function.update_self .., ?_⟩
  intro d inside
  have other : back size hole d ≠ next size hole := by
    rw [next_eq_back hole_lt, ne_eq, back_inj (by omega) (by omega)]
    omega
  rw [back_next (by omega), Function.update_of_ne other]
  cases d with
  | zero => simp
  | succ d =>
      have behind : back size hole (d + 1) ≠ hole := by
        have apart : back size hole (d + 1) = back size hole 0 ↔ d + 1 = 0 :=
          back_inj (by omega) (by omega)
        rw [back_zero] at apart
        simp [apart]
      rw [Function.update_of_ne behind, h.slot d (by omega)]
      simp

/-- What the slots from `d` steps behind the hole on hold. -/
theorem collect_back {d fuel : Nat} (inside : d < size) (enough : d < fuel) :
    ∃ entries, collect size array hole fuel (back size hole d) = some entries ∧
      entries.map Prod.snd = (items.reverse.take d).reverse.reduceOption := by
  induction d generalizing fuel with
  | zero =>
      cases fuel with
      | zero => cases enough
      | succ fuel =>
          refine ⟨[], ?_, rfl⟩
          simp [collect]
  | succ d ih =>
      cases fuel with
      | zero => cases enough
      | succ fuel =>
          obtain ⟨entries, rest, values⟩ := @ih fuel (by omega) (by omega)
          have apart : back size hole (d + 1) ≠ hole := by
            have apart : back size hole (d + 1) = back size hole 0 ↔ d + 1 = 0 :=
              back_inj inside (by omega)
            rw [back_zero] at apart
            simp [apart]
          rw [collect, if_neg apart, next_back h.hole_lt (by omega), rest]
          refine ⟨_, rfl, ?_⟩
          rw [List.map_append, values, h.slot d inside, List.take_add_one, List.reverse_append]
          cases items.reverse[d]? with
          | none => simp
          | some x => cases x <;> simp

/-- From the slot in front of the hole on, the ring holds the items added last, in order. -/
theorem collect_all (fuel : Nat) (enough : size ≤ fuel) :
    ∃ entries, collect size array hole fuel (next size hole) = some entries ∧
      entries.map Prod.snd = (items.drop (items.length - (size - 1))).reduceOption := by
  have hole_lt := h.hole_lt
  have inside : size - 1 < size := by omega
  have enough' : size - 1 < fuel := by omega
  obtain ⟨entries, read, values⟩ := h.collect_back inside enough'
  rw [next_eq_back hole_lt]
  refine ⟨entries, read, ?_⟩
  rw [values, List.take_reverse, List.reverse_reverse]

end Holds

end Sdplane.Ring
