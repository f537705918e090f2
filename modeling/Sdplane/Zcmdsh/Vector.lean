import Sdplane.Misc.Runs
import Sdplane.Zcmdsh.Command

/-!
# Vectors

`lib/zcmdsh/vector.c`: an array of pointers with a size and a limit. `Represents` says which
list a vector holds: the slots behind the list are `NULL`. Removing from a full vector shifts
all slots but the last one, which keeps its pointer.
-/

namespace Sdplane

/-- `struct vector`; `none` is `NULL`. -/
structure CVector (α : Type) where
  array : Nat → Option α
  limit : Nat
  size : Nat

namespace CVector

variable {α : Type}

/-- `VECTOR_DEFSIZ`. -/
def defsiz : Nat := 1

/-- `VECTOR_RETRY`. -/
def vectorRetry : Nat := 16

/-- `sizeof (void *)`. -/
def sizeofPointer : Nat := 8

/-- `vector_create`. -/
def create : CVector α := ⟨fun _ => none, defsiz, 0⟩

section
variable (realloc : Nat → Bool)

/-- `vector_expand`; `realloc` tells whether there is a block of that many octets. The number of
    slots is an `unsigned int`: from 2^31 on, the block is smaller than what `memset` clears. -/
def expand (v : CVector α) : Except Stop (CVector α) :=
  if 2 ^ 32 ≤ v.limit * 2 then .error .overrun
  else if realloc (v.limit * 2 * sizeofPointer) then
    .ok { v with
      array := fun i => if i < v.limit then v.array i else none
      limit := v.limit * 2 }
  else .ok v

/-- `while (retry-- && ...) vector_expand (v)`. -/
def expandWhile (small : Nat → Bool) : Nat → CVector α → Except Stop (CVector α)
  | 0, v => .ok v
  | retry + 1, v =>
      if small v.limit then do
        let v ← v.expand realloc
        expandWhile small retry v
      else .ok v

/-- `vector_add_allow_dup`. -/
def addAllowDup (data : Option α) (v : CVector α) : Except Stop (CVector α) := do
  let v ←
    if v.size = v.limit then expandWhile realloc (fun limit => v.size = limit) vectorRetry v
    else .ok v
  -- give up to add the data
  if v.size = v.limit then .ok v
  else .ok { v with array := Function.update v.array v.size data, size := v.size + 1 }

/-- `vector_set`. -/
def set (index : Nat) (data : Option α) (v : CVector α) : Except Stop (CVector α) := do
  let v ←
    if v.limit ≤ index then expandWhile realloc (fun limit => limit ≤ index) vectorRetry v
    else .ok v
  -- give up to set the data
  if v.limit ≤ index then .ok v
  else .ok { v with
    array := Function.update v.array index data
    size := if v.size ≤ index then index + 1 else v.size }

end

/-- `vector_get`. -/
def get (v : CVector α) (index : Nat) : Option α :=
  if v.size ≤ index then none else v.array index

/-- `vector_clear`. -/
def clear (v : CVector α) : CVector α :=
  { v with array := fun i => if i < v.limit then none else v.array i, size := 0 }

/-- The end of `vector_remove` and `vector_remove_index`; the size is unsigned. -/
def removeAt (index : Nat) (v : CVector α) : CVector α :=
  -- remove
  let array := Function.update v.array index none
  { v with
    size := if v.size = 0 then 2 ^ 32 - 1 else v.size - 1
    -- shift
    array := fun i =>
      if index + 1 < v.limit ∧ index ≤ i ∧ i < v.limit - 1 then array (i + 1) else array i }

/-- `vector_remove_index`. -/
def removeIndex (index : Int) (v : CVector α) : Except Stop (CVector α) :=
  if index < 0 then .error .assertion
  else if v.limit ≤ index.toNat then .error .overrun
  else .ok (v.removeAt index.toNat)

section
variable [DecidableEq α]

/-- `vector_lookup_index`. -/
def lookupIndex (data : Option α) (v : CVector α) : Option Nat :=
  (List.range v.size).find? fun i => v.array i = data

/-- `vector_lookup`. -/
def lookup (data : Option α) (v : CVector α) : Option α := (v.lookupIndex data).bind v.array

/-- `vector_add`. -/
def add (realloc : Nat → Bool) (data : Option α) (v : CVector α) : Except Stop (CVector α) :=
  if (v.lookup data).isSome then .error .assertion else v.addAllowDup realloc data

/-- `vector_remove`. -/
def remove (data : Option α) (v : CVector α) : Except Stop (CVector α) :=
  match v.lookupIndex data with
  | none => .error .assertion
  | some index => .ok (v.removeAt index)

end

/-! ## The list of a vector -/

/-- The vector holds the list: its size is that of the list, the slots behind it are `NULL`, and
    `vector_get` reads the list. -/
structure Represents (v : CVector α) (xs : List (Option α)) : Prop where
  size : v.size = xs.length
  size_le : v.size ≤ v.limit
  some_slot : 0 < v.limit
  blank : ∀ i, v.size ≤ i → i < v.limit → v.array i = none
  get : ∀ i, v.get i = xs[i]?.join

/-- The list is what the first `size` slots hold, whatever is behind them. -/
structure Elements (v : CVector α) (xs : List (Option α)) : Prop where
  size : v.size = xs.length
  size_le : v.size ≤ v.limit
  slots : ∀ i (inside : i < xs.length), v.array i = xs[i]

variable {v : CVector α} {xs : List (Option α)} {realloc : Nat → Bool}

/-- But for the last slot of the block, all slots from the removed one on are shifted. -/
theorem removeAt_shifted {index i : Nat} (last : i + 1 < v.limit) :
    (v.removeAt index).array i = if i < index then v.array i else v.array (i + 1) := by
  rw [CVector.removeAt]
  dsimp only
  by_cases before : i < index
  · rw [if_neg (by omega), if_pos before, Function.update_of_ne before.ne]
  · rw [if_pos (by omega), if_neg before, Function.update_of_ne (by omega)]

namespace Elements

variable (h : v.Elements xs)

include h

theorem removeAt {index : Nat} (inside : index < xs.length) :
    (v.removeAt index).Elements (xs.eraseIdx index) := by
  have size := h.size
  have size_le := h.size_le
  have length := List.length_eraseIdx_of_lt inside
  have size' : (v.removeAt index).size = v.size - 1 := if_neg (by omega)
  refine ⟨by omega, size'.trans_le (by omega : v.size - 1 ≤ v.limit), ?_⟩
  intro i hi
  rw [removeAt_shifted (by omega), List.getElem_eraseIdx]
  split
  · exact h.slots i (by omega)
  · exact h.slots (i + 1) (by omega)

theorem removeIndex {index : Nat} (inside : index < xs.length) :
    v.removeIndex index = .ok (v.removeAt index) := by
  have size := h.size
  have size_le := h.size_le
  rw [CVector.removeIndex, if_neg (by omega), Int.toNat_natCast, if_neg (by omega)]

variable [DecidableEq α]

/-- The slots of the list are looked through. -/
theorem lookupIndex {data : Option α} (mem : data ∈ xs) :
    v.lookupIndex data = some (xs.idxOf data) := by
  have inside := List.idxOf_lt_length_of_mem mem
  have size := h.size
  rw [CVector.lookupIndex, List.find?_range_eq_some]
  refine ⟨?_, ?_, ?_⟩
  · simp [h.slots _ inside]
  · simpa [size] using inside
  · intro j before
    have other : xs[j] ≠ data := by
      simpa using List.not_of_lt_findIdx before
    simp [h.slots j (by omega), other]

theorem lookup {data : Option α} (absent : data ∉ xs) : v.lookup data = none := by
  have size := h.size
  have none_ : v.lookupIndex data = none := by
    rw [CVector.lookupIndex, List.find?_range_eq_none]
    intro i inside
    have other : xs[i] ≠ data := fun same => absent (same ▸ List.getElem_mem _)
    simp [h.slots i (by omega), other]
  rw [CVector.lookup, none_]
  rfl

theorem remove {data : Option α} (mem : data ∈ xs) :
    v.remove data = .ok (v.removeAt (xs.idxOf data)) := by
  rw [CVector.remove, h.lookupIndex mem]

end Elements

theorem Represents.of_slots (size : v.size = xs.length) (size_le : v.size ≤ v.limit)
    (some_slot : 0 < v.limit) (slots : ∀ i < v.limit, v.array i = xs[i]?.join) :
    v.Represents xs where
  size := size
  size_le := size_le
  some_slot := some_slot
  blank := by
    intro i behind inside
    rw [slots i inside]
    simp [← size, behind]
  get := by
    intro i
    unfold CVector.get
    split
    · next behind => simp [← size, behind]
    · next before => exact slots i (by omega)

/-- The loop ends once the vector is large enough. -/
theorem expandWhile_of_large {small : Nat → Bool} (large : small v.limit = false) (retry : Nat) :
    expandWhile realloc small retry v = .ok v := by
  cases retry with
  | zero => rfl
  | succ retry => simp [expandWhile, large]

theorem expandWhile_of_small {small : Nat → Bool} (again : small v.limit = true) (retry : Nat) :
    expandWhile realloc small (retry + 1) v =
      v.expand realloc >>= expandWhile realloc small retry := by
  simp [expandWhile, again]

/-- From 2^31 slots on a vector cannot grow. -/
theorem expand_full (full : 2 ^ 31 ≤ v.limit) : v.expand realloc = .error .overrun := by
  rw [expand, if_pos (by omega)]

theorem addAllowDup_full (full : v.size = v.limit) (large : 2 ^ 31 ≤ v.limit)
    (data : Option α) : v.addAllowDup realloc data = .error .overrun := by
  rw [CVector.addAllowDup, if_pos full, vectorRetry, expandWhile_of_small (decide_eq_true full),
    expand_full large]
  rfl

theorem represents_create : (create : CVector α).Represents [] := by
  apply Represents.of_slots
  all_goals simp [create, defsiz]

namespace Represents

variable (h : v.Represents xs)

include h

theorem slot {i : Nat} (inside : i < v.limit) : v.array i = xs[i]?.join := by
  have read := h.get i
  unfold CVector.get at read
  split at read
  · next behind => rw [h.blank i behind inside, read]
  · exact read

theorem elements : v.Elements xs where
  size := h.size
  size_le := h.size_le
  slots := by
    intro i inside
    have size := h.size
    have size_le := h.size_le
    simp [h.slot (show i < v.limit by omega), inside]

/-- A vector that grows holds the same list. -/
theorem expand (grants : ∀ n, realloc n = true) (small : v.limit < 2 ^ 31) :
    ∃ v', v.expand realloc = .ok v' ∧ v'.Represents xs ∧ v'.size = v.size ∧
      v'.limit = v.limit * 2 := by
  have size_le := h.size_le
  have some_slot := h.some_slot
  refine ⟨{ v with
    array := fun i => if i < v.limit then v.array i else none
    limit := v.limit * 2 }, ?_, ?_, rfl, rfl⟩
  · rw [CVector.expand, if_neg (by omega), if_pos (grants _)]
  · apply of_slots
    · exact h.size
    · dsimp only
      omega
    · dsimp only
      omega
    · intro i _
      dsimp only
      split
      · exact h.slot ‹_›
      · next behind =>
          have beyond : xs.length ≤ i := by
            rw [← h.size]
            omega
          simp [beyond]

/-- What `vector_add` stores behind the list. -/
theorem push (room : v.size < v.limit) (data : Option α) :
    CVector.Represents
      { v with array := Function.update v.array v.size data, size := v.size + 1 }
      (xs ++ [data]) := by
  apply of_slots
  · simp [h.size]
  · exact room
  · exact h.some_slot
  · intro i inside
    dsimp only
    by_cases here : i = v.size
    · simp [here, h.size]
    · rw [Function.update_of_ne here, h.slot inside]
      rcases Nat.lt_or_ge i xs.length with before | behind
      · rw [List.getElem?_append_left before]
      · have beyond : (xs ++ [data]).length ≤ i := by
          rw [h.size] at here
          rw [List.length_append, List.length_singleton]
          omega
        rw [List.getElem?_eq_none behind, List.getElem?_eq_none beyond]

theorem addAllowDup (grants : ∀ n, realloc n = true) (room : v.size < v.limit ∨ v.limit < 2 ^ 31)
    (data : Option α) :
    ∃ v', v.addAllowDup realloc data = .ok v' ∧ v'.Represents (xs ++ [data]) := by
  have size_le := h.size_le
  have some_slot := h.some_slot
  by_cases full : v.size = v.limit
  · obtain ⟨v', grown, h', size, limit⟩ := h.expand grants (by omega)
    have inside : v'.size < v'.limit := by omega
    refine ⟨_, ?_, h'.push inside data⟩
    have large : ¬v.size = v'.limit := by omega
    have once : expandWhile realloc (fun limit => v.size = limit) vectorRetry v = .ok v' := by
      rw [vectorRetry, expandWhile_of_small (decide_eq_true full), grown]
      apply expandWhile_of_large
      exact decide_eq_false large
    rw [CVector.addAllowDup, if_pos full, once]
    exact if_neg inside.ne
  · refine ⟨_, ?_, h.push (by omega) data⟩
    rw [CVector.addAllowDup, if_neg full]
    exact if_neg full

/-- The loop of `vector_set` makes room for any index below 2^16. -/
theorem expandWhile_le (grants : ∀ n, realloc n = true) {index : Nat} (low : index < 2 ^ 16)
    (retry : Nat) (enough : index < v.limit * 2 ^ retry) :
    ∃ v', expandWhile realloc (fun limit => limit ≤ index) retry v = .ok v' ∧
      v'.Represents xs ∧ index < v'.limit := by
  induction retry generalizing v with
  | zero => exact ⟨v, rfl, h, by simpa using enough⟩
  | succ retry ih =>
      by_cases small : v.limit ≤ index
      · obtain ⟨v₁, grown, h₁, -, limit⟩ := h.expand grants (by omega)
        have enough₁ : index < v₁.limit * 2 ^ retry := by
          rw [limit, Nat.mul_assoc, ← Nat.pow_succ']
          exact enough
        obtain ⟨v', done, h', inside⟩ := ih h₁ enough₁
        refine ⟨v', ?_, h', inside⟩
        rw [expandWhile_of_small (decide_eq_true small), grown]
        exact done
      · exact ⟨v, expandWhile_of_large (decide_eq_false small) _, h, Nat.lt_of_not_le small⟩

/-- What `vector_set` stores, with `NULL` between it and the list. -/
theorem store {index : Nat} (inside : index < v.limit) (data : Option α) :
    CVector.Represents
      { v with
        array := Function.update v.array index data
        size := if v.size ≤ index then index + 1 else v.size }
      ((xs.rightpad (index + 1) none).set index data) := by
  have size := h.size
  have length : (xs.rightpad (index + 1) none).length = max xs.length (index + 1) := by
    rw [List.rightpad, List.length_append, List.length_replicate]
    omega
  apply of_slots
  · rw [List.length_set, length]
    dsimp only
    split <;> omega
  · have size_le := h.size_le
    dsimp only
    split <;> omega
  · exact h.some_slot
  · intro i hi
    dsimp only
    by_cases here : i = index
    · rw [here, Function.update_self, List.getElem?_set_self (by omega)]
      rfl
    · rw [Function.update_of_ne here, h.slot hi, List.getElem?_set_ne (Ne.symm here), List.rightpad]
      rcases Nat.lt_or_ge i xs.length with before | behind
      · rw [List.getElem?_append_left before]
      · rw [List.getElem?_append_right behind, List.getElem?_replicate]
        split
        · simp [behind]
        · simp [behind]

theorem set (grants : ∀ n, realloc n = true) {index : Nat} (low : index < 2 ^ 16)
    (data : Option α) : ∃ v', v.set realloc index data = .ok v' ∧
      v'.Represents ((xs.rightpad (index + 1) none).set index data) := by
  have some_slot := h.some_slot
  by_cases small : v.limit ≤ index
  · have enough : index < v.limit * 2 ^ vectorRetry := by
      rw [vectorRetry]
      omega
    obtain ⟨v', grown, h', inside⟩ := h.expandWhile_le grants low vectorRetry enough
    refine ⟨_, ?_, h'.store inside data⟩
    rw [CVector.set, if_pos small, grown]
    exact if_neg (Nat.not_le.mpr inside)
  · refine ⟨_, ?_, h.store (Nat.lt_of_not_le small) data⟩
    rw [CVector.set, if_neg small]
    exact if_neg small

theorem clear : v.clear.Represents [] := by
  apply of_slots
  · rfl
  · exact Nat.zero_le _
  · exact h.some_slot
  · intro i inside
    exact if_pos inside

end Represents

/-- Removing at `index` leaves `NULL` in the last slot of the block: that slot is behind the list,
    it is the one removed, or it was `NULL`. -/
def LeavesNothing (v : CVector α) (index : Nat) : Prop :=
  v.size < v.limit ∨ index + 1 = v.limit ∨ v.array (v.limit - 1) = none

namespace Represents

variable (h : v.Represents xs)

include h

theorem removeAt_size {index : Nat} (inside : index < xs.length) :
    (v.removeAt index).size = (xs.eraseIdx index).length := (h.elements.removeAt inside).size

/-- But for the last slot of the block, all slots are shifted. -/
theorem removeAt_slot {index i : Nat} (hi : i < v.limit)
    (shifted : i + 1 < v.limit ∨ v.LeavesNothing index) :
    (v.removeAt index).array i = (xs.eraseIdx index)[i]?.join := by
  have size := h.size
  have size_le := h.size_le
  rw [List.getElem?_eraseIdx]
  by_cases last : i + 1 < v.limit
  · rw [removeAt_shifted last]
    split
    · exact h.slot hi
    · exact h.slot last
  · rw [CVector.removeAt]
    dsimp only
    rw [if_neg (by omega)]
    by_cases before : i < index
    · rw [if_pos before, Function.update_of_ne before.ne, h.slot hi]
    · have beyond : xs.length ≤ i + 1 := by omega
      rw [if_neg before, List.getElem?_eq_none beyond]
      have here : i = v.limit - 1 := by omega
      by_cases removed : i = index
      · rw [removed, Function.update_self]
        rfl
      · rw [Function.update_of_ne removed]
        rcases shifted with shifted | free | removed' | null
        · exact absurd shifted last
        · exact h.blank i (by omega) hi
        · omega
        · rw [here, null]
          rfl

/-- What is removed is removed from the list, but a slot behind it may keep its pointer. -/
theorem removeAt_iff {index : Nat} (inside : index < xs.length) :
    (v.removeAt index).Represents (xs.eraseIdx index) ↔ v.LeavesNothing index := by
  have size := h.size
  have size_le := h.size_le
  have some_slot := h.some_slot
  have size' := h.removeAt_size inside
  rw [List.length_eraseIdx_of_lt inside] at size'
  have limit : (v.removeAt index).limit = v.limit := rfl
  constructor
  · intro h'
    unfold LeavesNothing
    by_cases full : v.size < v.limit
    · exact .inl full
    · by_cases last : index + 1 = v.limit
      · exact .inr (.inl last)
      · right
        right
        have blank := h'.blank (v.limit - 1) (by omega) (by omega)
        rw [CVector.removeAt] at blank
        dsimp only at blank
        rwa [if_neg (by omega), Function.update_of_ne (by omega)] at blank
  · intro clean
    apply of_slots
    · exact h.removeAt_size inside
    · omega
    · exact some_slot
    · intro i hi
      exact h.removeAt_slot hi (.inr clean)

variable [DecidableEq α]

theorem add {data : Option α} (absent : data ∉ xs) :
    v.add realloc data = v.addAllowDup realloc data := by
  rw [CVector.add, h.elements.lookup absent]
  rfl

end Represents

/-! ## Runs -/

/-- What is done with a vector. -/
inductive Act (α : Type)
  | add (data : Option α)
  | addAllowDup (data : Option α)
  | remove (data : Option α)
  | removeIndex (index : Nat)
  | set (index : Nat) (data : Option α)
  | clear

section
variable [DecidableEq α]

/-- What it does with the vector, where memory is never short. -/
def Act.run : Act α → CVector α → Except Stop (CVector α)
  | .add data, v => v.add (fun _ => true) data
  | .addAllowDup data, v => v.addAllowDup (fun _ => true) data
  | .remove data, v => v.remove data
  | .removeIndex index, v => v.removeIndex index
  | .set index data, v => v.set (fun _ => true) index data
  | .clear, v => .ok v.clear

/-- What it does with the list. -/
def Act.onList : Act α → List (Option α) → List (Option α)
  | .add data, xs => xs ++ [data]
  | .addAllowDup data, xs => xs ++ [data]
  | .remove data, xs => xs.erase data
  | .removeIndex index, xs => xs.eraseIdx index
  | .set index data, xs => (xs.rightpad (index + 1) none).set index data
  | .clear, _ => []

/-- What is added is absent, what is removed is there, and indices are low. -/
def Act.Legal : Act α → List (Option α) → Prop
  | .add data, xs => data ∉ xs
  | .addAllowDup _, _ => True
  | .remove data, xs => data ∈ xs
  | .removeIndex index, xs => index < xs.length
  | .set index _, _ => index < 2 ^ 16
  | .clear, _ => True

instance : (act : Act α) → (xs : List (Option α)) → Decidable (act.Legal xs)
  | .add data, xs => inferInstanceAs (Decidable (data ∉ xs))
  | .addAllowDup _, _ => inferInstanceAs (Decidable True)
  | .remove data, xs => inferInstanceAs (Decidable (data ∈ xs))
  | .removeIndex index, xs => inferInstanceAs (Decidable (index < xs.length))
  | .set index _, _ => inferInstanceAs (Decidable (index < 2 ^ 16))
  | .clear, _ => inferInstanceAs (Decidable True)

/-- A vector, or what went wrong, and the list that was asked for. -/
abbrev State (α : Type) := Except Stop (CVector α) × List (Option α)

def step (s : State α) (act : Act α) : Option (State α) :=
  if act.Legal s.2 then some (s.1 >>= act.run, act.onList s.2) else none

/-- The vector is there and holds what was asked for. -/
def Represented (s : State α) : Prop := ∃ v, s.1 = .ok v ∧ v.Represents s.2

/-- There is a free slot, or the number of slots can be doubled. -/
def Room (v : CVector α) : Prop := v.size < v.limit ∨ v.limit < 2 ^ 31

/-- Where an action leaves the slots as they are meant to be. -/
def Act.Clean (v : CVector α) : Act α → Prop
  | .add _ => v.Room
  | .addAllowDup _ => v.Room
  | .remove data => ∀ index, v.lookupIndex data = some index → v.LeavesNothing index
  | .removeIndex index => v.LeavesNothing index
  | .set _ _ => True
  | .clear => True

def Clean (s : State α) (act : Act α) : Prop := ∀ v, s.1 = .ok v → act.Clean v

omit [DecidableEq α] in
theorem Represents.addAllowDup_iff (h : v.Represents xs) (data : Option α) :
    Represented (v.addAllowDup (fun _ => true) data, xs ++ [data]) ↔ v.Room := by
  have size_le := h.size_le
  constructor
  · rintro ⟨v', added, -⟩
    by_cases room : v.Room
    · exact room
    · unfold Room at room
      rw [addAllowDup_full (by omega) (by omega)] at added
      cases added
  · intro room
    exact h.addAllowDup (fun _ => rfl) room data

omit [DecidableEq α] in
theorem Represents.removed_iff (h : v.Represents xs) {index : Nat} (inside : index < xs.length) :
    Represented (Except.ok (v.removeAt index), xs.eraseIdx index) ↔ v.LeavesNothing index := by
  rw [← h.removeAt_iff inside]
  constructor
  · rintro ⟨v', same, h'⟩
    cases same
    exact h'
  · intro h'
    exact ⟨_, rfl, h'⟩

/-- One action keeps the list exactly where it is clean. -/
theorem Represents.run_iff (h : v.Represents xs) (act : Act α) (legal : act.Legal xs) :
    Represented (act.run v, act.onList xs) ↔ act.Clean v := by
  cases act with
  | add data =>
      have added : (Act.add data).run v = v.addAllowDup (fun _ => true) data := h.add legal
      rw [added]
      exact h.addAllowDup_iff data
  | addAllowDup data => exact h.addAllowDup_iff data
  | remove data =>
      have inside := List.idxOf_lt_length_of_mem legal
      have removed : (Act.remove data).run v = .ok (v.removeAt (xs.idxOf data)) :=
        h.elements.remove legal
      have erased : (Act.remove data).onList xs = xs.eraseIdx (xs.idxOf data) := by
        simp only [Act.onList, List.erase_eq_eraseIdx_of_idxOf]
      rw [removed, erased, h.removed_iff inside]
      simp [Act.Clean, h.elements.lookupIndex legal]
  | removeIndex index =>
      have removed : (Act.removeIndex index).run v = .ok (v.removeAt index) :=
        h.elements.removeIndex legal
      rw [removed]
      exact h.removed_iff legal
  | set index data =>
      have held : Represented ((Act.set index data).run v, (Act.set index data).onList xs) :=
        h.set (fun _ => rfl) legal data
      simp [held, Act.Clean]
  | clear =>
      have held : Represented ((Act.clear).run v, (Act.clear).onList xs) := ⟨_, rfl, h.clear⟩
      simp [held, Act.Clean]

/-- One step of a run keeps the list exactly where it is clean. -/
theorem represented_step_iff (s : State α) (act : Act α) (s' : State α) (held : Represented s)
    (taken : step s act = some s') : Represented s' ↔ Clean s act := by
  obtain ⟨v, here, h⟩ := held
  obtain ⟨r, xs⟩ := s
  cases here
  unfold step at taken
  split at taken
  · next legal =>
      cases taken
      have one := h.run_iff act legal
      constructor
      · intro held v' same
        cases same
        exact one.mp held
      · intro clean
        exact one.mpr (clean v rfl)
  · cases taken

/-- From `vector_create`, a vector holds the list asked for in every state of a run exactly when
    no removal leaves a pointer behind, and no vector has to grow beyond 2^31 slots. -/
theorem vector_represented_iff (acts : List (Act α)) :
    Throughout step Represented (.ok create, []) acts ↔
      EachStep step Clean (.ok create, []) acts := by
  have base : ∀ s act s', True → step (α := α) s act = some s' → True := fun _ _ _ _ _ => trivial
  have keeps := fun s act s' (_ : True) => represented_step_iff (α := α) s act s'
  exact throughout_iff_eachStep base keeps acts _ trivial ⟨_, rfl, represents_create⟩

/-- Two pointers are added, the first one is removed, and a third is set behind a gap. -/
def removedThenSet : List (Act Nat) :=
  [.add (some 10), .add (some 20), .remove (some 10), .set 2 (some 30)]

/-- The second pointer stays in its slot, too, when it is shifted over the first one, and
    `vector_set` behind it makes it an entry again. -/
theorem vector_represented_not :
    ¬Throughout step Represented (.ok create, []) removedThenSet ∧
      ∃ v, removedThenSet.foldlM step (.ok create, []) =
          some (.ok v, [some 20, none, some 30]) ∧ v.get 1 = some 20 := by
  constructor
  · intro held
    obtain ⟨v, here, h⟩ := held.last rfl
    cases here
    exact absurd (h.get 1) (by decide)
  · exact ⟨_, rfl, rfl⟩

end

end CVector

/-- The children of a node and the parents of a word are lists of nodes: on these, `vector_add`
    is `vectorAdd`. -/
theorem vectorAdd_represents {v : CVector Nat} {nodes nodes' : List Nat} {node : Nat}
    (h : v.Represents (nodes.map some)) (room : v.Room)
    (added : vectorAdd node nodes = .ok nodes') :
    ∃ v', v.add (fun _ => true) (some node) = .ok v' ∧ v'.Represents (nodes'.map some) := by
  rw [vectorAdd] at added
  split at added
  · cases added
  · next absent =>
      cases added
      have absent' : some node ∉ nodes.map some := by simpa using absent
      rw [h.add absent', List.map_append]
      exact h.addAllowDup (fun _ => rfl) room (some node)

end Sdplane
