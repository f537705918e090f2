import Mathlib.Data.List.Induction
import Mathlib.Data.List.Nodup
import Sdplane.Zcmdsh.Vector

/-!
# Loops over a vector

`vector_head` and `vector_next`: a loop whose body may remove the element it is at. The node
remembers the element, and `vector_next` goes on to the next slot only where the element is
still in its own.
-/

namespace Sdplane.CVector

variable {α : Type}

/-- `struct vector_node`, of a vector that is known. -/
structure VectorNode (α : Type) where
  index : Int
  data : Option α

/-- `sizeof (struct vector_node)`. -/
def sizeofVectorNode : Nat := 24

/-- `array[index]`. -/
def slot (v : CVector α) (index : Int) : Except Stop (Option α) :=
  if index < 0 ∨ (v.limit : Int) ≤ index then .error .overrun else .ok (v.array index.toNat)

/-- An `int` next to an `unsigned int`. -/
def toUnsigned (index : Int) : Nat := (index % 2 ^ 32).toNat

/-- `index++`; behind the largest `int` is the smallest one. -/
def increment (index : Int) : Int := if index = 2 ^ 31 - 1 then -2 ^ 31 else index + 1

/-- `vector_head`; `malloc` tells whether there is a block of that many octets. -/
def vectorHead (malloc : Nat → Bool) (v : CVector α) : Except Stop (Option (VectorNode α)) :=
  if v.size = 0 then .ok none
  else if malloc sizeofVectorNode then do
    let data ← v.slot 0
    .ok (some ⟨0, data⟩)
  else .ok none

section
variable [DecidableEq α]

/-- `vector_next`. -/
def vectorNext (node : VectorNode α) (v : CVector α) : Except Stop (Option (VectorNode α)) := do
  let current ← v.slot node.index
  -- an element that was removed is no longer in its slot
  let index :=
    if node.data = current ∧ toUnsigned node.index < v.size then increment node.index
    else node.index
  if toUnsigned index = v.size then .ok none
  else do
    let data ← v.slot index
    .ok (some ⟨index, data⟩)

/-- What the body of a loop does with the vector: nothing, or `vector_remove` of the current
    element, or `vector_remove_index` of its index. -/
inductive Body
  | leave
  | remove
  | removeIndex
deriving DecidableEq

def Body.run : Body → VectorNode α → CVector α → Except Stop (CVector α)
  | .leave, _, v => .ok v
  | .remove, node, v => v.remove node.data
  | .removeIndex, node, v => v.removeIndex node.index

/-- The loop from a node on, for at most `fuel` nodes, with what the body does at the `k`-th one:
    the elements the body sees and the vector behind the loop, or none where it goes on. -/
def walk (body : Nat → Body) : Nat → Nat → Option (VectorNode α) → CVector α →
    Except Stop (Option (List (Option α) × CVector α))
  | _, _, none, v => .ok (some ([], v))
  | 0, _, some _, _ => .ok none
  | fuel + 1, k, some node, v => do
      let v ← (body k).run node v
      let next ← vectorNext node v
      let rest ← walk body fuel (k + 1) next v
      .ok (rest.map fun (seen, v) => (node.data :: seen, v))

/-- `for (n = vector_head (v); n; n = vector_next (n))`. -/
def forNodes (malloc : Nat → Bool) (body : Nat → Body) (fuel : Nat) (v : CVector α) :
    Except Stop (Option (List (Option α) × CVector α)) := do
  let head ← v.vectorHead malloc
  walk body fuel 0 head v

end

/-! ## Nodes of a list -/

variable {v : CVector α} {kept rest : List (Option α)} {x : Option α}

theorem slot_natCast {i : Nat} (inside : i < v.limit) : v.slot i = .ok (v.array i) := by
  rw [CVector.slot, if_neg (by omega), Int.toNat_natCast]

theorem toUnsigned_natCast {i : Nat} (small : i < 2 ^ 32) : toUnsigned i = i := by
  unfold toUnsigned
  omega

/-- Past the largest `int` the sign is lost, not the number of the slot. -/
theorem toUnsigned_increment {i : Nat} (small : i < 2 ^ 31) : toUnsigned (increment i) = i + 1 := by
  unfold toUnsigned increment
  split <;> omega

theorem increment_natCast {i : Nat} (small : i + 1 < 2 ^ 31) : increment i = (i + 1 : Nat) := by
  rw [increment, if_neg (by omega)]
  rfl

/-- The node behind `kept`, where `rest` is what is left of the list. -/
def nodeAt (kept rest : List (Option α)) : Option (VectorNode α) :=
  rest.head?.map fun data => ⟨kept.length, data⟩

/-- The elements a body leaves, from its `k`-th round on. -/
def leftBy (body : Nat → Body) : Nat → List (Option α) → List (Option α)
  | _, [] => []
  | k, x :: rest =>
      if body k = .leave then x :: leftBy body (k + 1) rest else leftBy body (k + 1) rest

theorem walk_of_next [DecidableEq α] {body : Nat → Body} {fuel k : Nat} {node : VectorNode α}
    {next : Option (VectorNode α)} {seen : List (Option α)} {v' v'' : CVector α}
    (ran : (body k).run node v = .ok v'') (went : vectorNext node v'' = .ok next)
    (walked : walk body fuel (k + 1) next v'' = .ok (some (seen, v'))) :
    walk body (fuel + 1) k (some node) v = .ok (some (node.data :: seen, v')) := by
  rw [walk, ran]
  dsimp only [bind, Except.bind]
  rw [went]
  dsimp only
  rw [walked]
  rfl

namespace Elements

theorem slot_append (h : v.Elements (kept ++ x :: rest)) : v.slot kept.length = .ok x := by
  have size := h.size
  have size_le := h.size_le
  have inside : kept.length < (kept ++ x :: rest).length := by simp
  rw [slot_natCast (by omega), h.slots _ inside]
  simp

theorem vectorHead (h : v.Elements rest) {malloc : Nat → Bool}
    (granted : malloc sizeofVectorNode = true) :
    v.vectorHead malloc = .ok (nodeAt [] rest) := by
  have size := h.size
  cases rest with
  | nil =>
      rw [CVector.vectorHead, if_pos (by simpa using size)]
      rfl
  | cons x rest =>
      have first : v.slot ([] : List (Option α)).length = .ok x := slot_append h
      rw [List.length_nil, Nat.cast_zero] at first
      rw [CVector.vectorHead, if_neg (by simp [size]), if_pos granted, first]
      rfl

/-- What `vector_next` returns once it has its index. -/
theorem reload (h : v.Elements (kept ++ rest)) {index : Int}
    (here : toUnsigned index = kept.length) (inside : rest ≠ [] → index = kept.length) :
    (if toUnsigned index = v.size then Except.ok none
      else do
        let data ← v.slot index
        .ok (some ⟨index, data⟩)) = .ok (nodeAt kept rest) := by
  have size := h.size
  cases rest with
  | nil => simp [here, size, nodeAt]
  | cons y rest =>
      have more : ¬kept.length = v.size := by simp [size]
      have same : index = kept.length := inside (List.cons_ne_nil y rest)
      rw [here, if_neg more, same, h.slot_append]
      rfl

variable [DecidableEq α] (small : v.limit ≤ 2 ^ 31)

include small

/-- An element that is still there is left behind. -/
theorem vectorNext_left (h : v.Elements (kept ++ x :: rest)) :
    vectorNext ⟨kept.length, x⟩ v = .ok (nodeAt (kept ++ [x]) rest) := by
  have size := h.size
  have size_le := h.size_le
  have length : (kept ++ x :: rest).length = kept.length + rest.length + 1 := by simp; omega
  have still : x = x ∧ toUnsigned kept.length < v.size := by
    rw [toUnsigned_natCast (by omega)]
    exact ⟨rfl, by omega⟩
  rw [vectorNext, h.slot_append]
  dsimp only [bind, Except.bind]
  rw [if_pos still]
  apply reload
  · simpa using h
  · rw [List.length_append, List.length_singleton]
    exact toUnsigned_increment (by omega)
  · intro more
    have other := List.length_pos_of_ne_nil more
    rw [List.length_append, List.length_singleton]
    exact increment_natCast (by omega)

/-- Where another element, or none, is in the slot of the node, that slot is read. -/
theorem vectorNext_removed (h : v.Elements (kept ++ rest)) (room : v.size < v.limit)
    (absent : x ∉ rest) : vectorNext ⟨kept.length, x⟩ v = .ok (nodeAt kept rest) := by
  have size := h.size
  have length : (kept ++ rest).length = kept.length + rest.length := List.length_append
  have here : toUnsigned kept.length = kept.length := toUnsigned_natCast (by omega)
  have other : ¬(x = v.array kept.length ∧ toUnsigned kept.length < v.size) := by
    rintro ⟨same, before⟩
    rw [h.slots _ (by omega), List.getElem_append_right (le_refl _)] at same
    exact absent (same ▸ List.getElem_mem _)
  rw [vectorNext, slot_natCast (by omega)]
  dsimp only [bind, Except.bind]
  rw [if_neg other]
  exact h.reload here fun _ => rfl

theorem body_leave (h : v.Elements (kept ++ x :: rest)) :
    ∃ v', Body.leave.run ⟨kept.length, x⟩ v = .ok v' ∧ v'.limit = v.limit ∧
      v'.Elements ((kept ++ [x]) ++ rest) ∧
      vectorNext ⟨kept.length, x⟩ v' = .ok (nodeAt (kept ++ [x]) rest) := by
  refine ⟨v, rfl, rfl, ?_, h.vectorNext_left small⟩
  simpa using h

/-- Either way of removing the element of a node leaves the others. -/
theorem body_removes (h : v.Elements (kept ++ x :: rest)) (distinct : (kept ++ x :: rest).Nodup)
    {body : Body} (removes : body ≠ .leave) :
    ∃ v', body.run ⟨kept.length, x⟩ v = .ok v' ∧ v'.limit = v.limit ∧
      v'.Elements (kept ++ rest) ∧ vectorNext ⟨kept.length, x⟩ v' = .ok (nodeAt kept rest) := by
  have size := h.size
  have size_le := h.size_le
  have inside : kept.length < (kept ++ x :: rest).length := by simp
  have moved : x ∉ kept ++ rest := (List.nodup_middle.mp distinct).notMem
  have erased : (kept ++ x :: rest).eraseIdx kept.length = kept ++ rest := by
    rw [List.eraseIdx_append_of_length_le (le_refl _), Nat.sub_self]
    rfl
  have first : (kept ++ x :: rest).idxOf x = kept.length := by
    rw [List.idxOf_append_of_notMem fun mem => moved (List.mem_append_left _ mem)]
    simp
  have h' := h.removeAt inside
  rw [erased] at h'
  have size' := h'.size
  have length' : (kept ++ rest).length < (kept ++ x :: rest).length := by simp
  refine ⟨v.removeAt kept.length, ?_, rfl, h', ?_⟩
  · cases body with
    | leave => exact absurd rfl removes
    | remove =>
        rw [← first]
        exact h.remove (List.mem_append_right _ List.mem_cons_self)
    | removeIndex => exact h.removeIndex inside
  · have limit : (v.removeAt kept.length).limit = v.limit := rfl
    apply vectorNext_removed
    · exact limit.trans_le small
    · exact h'
    · omega
    · exact fun mem => moved (List.mem_append_right _ mem)

/-- Every element of the list is seen once, whatever the body does with those before it. -/
theorem walk (body : Nat → Body) (h : v.Elements (kept ++ rest)) (distinct : (kept ++ rest).Nodup)
    (k more : Nat) :
    ∃ v', CVector.walk body (rest.length + more) k (nodeAt kept rest) v = .ok (some (rest, v')) ∧
      v'.Elements (kept ++ leftBy body k rest) := by
  induction rest generalizing kept v k with
  | nil =>
      refine ⟨v, ?_, h⟩
      rw [nodeAt, List.head?_nil, Option.map_none, CVector.walk]
  | cons x rest ih =>
      rw [List.length_cons, Nat.add_right_comm, leftBy]
      by_cases leaves : body k = .leave
      · obtain ⟨v'', ran, limit, h'', next⟩ := h.body_leave small
        rw [← leaves] at ran
        have distinct'' : ((kept ++ [x]) ++ rest).Nodup := by simpa using distinct
        obtain ⟨v', walked, h'⟩ := ih (limit.trans_le small) h'' distinct'' (k + 1)
        refine ⟨v', walk_of_next ran next walked, ?_⟩
        rw [if_pos leaves]
        simpa using h'
      · obtain ⟨v'', ran, limit, h'', next⟩ := h.body_removes small distinct leaves
        have distinct'' : (kept ++ rest).Nodup := (List.nodup_middle.mp distinct).of_cons
        obtain ⟨v', walked, h'⟩ := ih (limit.trans_le small) h'' distinct'' (k + 1)
        refine ⟨v', walk_of_next ran next walked, ?_⟩
        rw [if_neg leaves]
        exact h'

end Elements

/-! ## Vectors that are reached -/

/-- The vectors that the operations lead to, however often memory is short. `vector_sort` leaves
    the elements in some order; only what is there is removed. -/
inductive Reachable [DecidableEq α] : CVector α → Prop
  | create : Reachable create
  | add {v v' : CVector α} {realloc : Nat → Bool} {data : Option α} :
      Reachable v → v.add realloc data = .ok v' → Reachable v'
  | addAllowDup {v v' : CVector α} {realloc : Nat → Bool} {data : Option α} :
      Reachable v → v.addAllowDup realloc data = .ok v' → Reachable v'
  | remove {v v' : CVector α} {data : Option α} :
      Reachable v → v.remove data = .ok v' → Reachable v'
  | removeIndex {v v' : CVector α} {index : Int} :
      Reachable v → 0 < v.size → v.removeIndex index = .ok v' → Reachable v'
  | set {v v' : CVector α} {realloc : Nat → Bool} {index : Nat} {data : Option α} :
      Reachable v → v.set realloc index data = .ok v' → Reachable v'
  | clear {v : CVector α} : Reachable v → Reachable v.clear
  | sort {v : CVector α} {array : Nat → Option α} : Reachable v →
      (∀ i, v.size ≤ i → array i = v.array i) →
      ((List.range v.size).map array).Perm ((List.range v.size).map v.array) →
      Reachable { v with array := array }

/-- The elements are in the block, and its length is a power of two that an `unsigned int`
    holds. -/
structure Bounded (v : CVector α) : Prop where
  size_le : v.size ≤ v.limit
  limit_eq : ∃ k ≤ 31, v.limit = 2 ^ k

section
variable {v v' : CVector α} {realloc : Nat → Bool}

theorem Bounded.expand (h : v.Bounded) (grown : v.expand realloc = .ok v') :
    v'.Bounded ∧ v'.size = v.size := by
  obtain ⟨k, low, limit⟩ := h.limit_eq
  have size_le := h.size_le
  rw [CVector.expand] at grown
  split at grown
  · cases grown
  · next fits =>
      split at grown
      · cases grown
        refine ⟨⟨?_, k + 1, ?_, ?_⟩, rfl⟩
        · dsimp only
          omega
        · have below : 2 ^ (k + 1) < 2 ^ 32 := by
            rw [Nat.pow_succ, ← limit]
            omega
          exact Nat.le_of_lt_succ ((Nat.pow_lt_pow_iff_right (by decide)).mp below)
        · rw [Nat.pow_succ, ← limit]
      · cases grown
        exact ⟨h, rfl⟩

theorem Bounded.expandWhile (h : v.Bounded) (small : Nat → Bool) (retry : Nat)
    (grown : expandWhile realloc small retry v = .ok v') : v'.Bounded ∧ v'.size = v.size := by
  induction retry generalizing v with
  | zero =>
      cases grown
      exact ⟨h, rfl⟩
  | succ retry ih =>
      by_cases again : small v.limit = true
      · rw [expandWhile_of_small again] at grown
        cases once : v.expand realloc with
        | error stop =>
            rw [once] at grown
            cases grown
        | ok mid =>
            rw [once] at grown
            obtain ⟨bounded, size⟩ := h.expand once
            obtain ⟨bounded', size'⟩ := ih bounded grown
            exact ⟨bounded', size'.trans size⟩
      · rw [expandWhile_of_large (by simpa using again)] at grown
        cases grown
        exact ⟨h, rfl⟩

/-- What `vector_add_allow_dup` and `vector_set` do first. -/
theorem Bounded.grow (h : v.Bounded) {few : Prop} [Decidable few] {small : Nat → Bool}
    {store : CVector α → Except Stop (CVector α)}
    (stored : (do
      let v ← if few then CVector.expandWhile realloc small vectorRetry v else .ok v
      store v) = .ok v') :
    ∃ mid : CVector α, mid.Bounded ∧ mid.size = v.size ∧ store mid = .ok v' := by
  split at stored
  · cases grown : CVector.expandWhile realloc small vectorRetry v with
    | error stop =>
        rw [grown] at stored
        cases stored
    | ok mid =>
        rw [grown] at stored
        obtain ⟨bounded, size⟩ := h.expandWhile small vectorRetry grown
        exact ⟨mid, bounded, size, stored⟩
  · exact ⟨v, h, rfl, stored⟩

theorem Bounded.addAllowDup (h : v.Bounded) {data : Option α}
    (added : v.addAllowDup realloc data = .ok v') : v'.Bounded := by
  obtain ⟨mid, bounded, size, stored⟩ := h.grow added
  have size_le := bounded.size_le
  split at stored
  · cases stored
    exact bounded
  · next room =>
      cases stored
      refine ⟨?_, bounded.limit_eq⟩
      dsimp only
      omega

theorem Bounded.set (h : v.Bounded) {index : Nat} {data : Option α}
    (set : v.set realloc index data = .ok v') : v'.Bounded := by
  obtain ⟨mid, bounded, size, stored⟩ := h.grow set
  have size_le := bounded.size_le
  split at stored
  · cases stored
    exact bounded
  · next room =>
      cases stored
      refine ⟨?_, bounded.limit_eq⟩
      dsimp only
      split <;> omega

theorem Bounded.removeAt (h : v.Bounded) (some_ : 0 < v.size) (index : Nat) :
    (v.removeAt index).Bounded := by
  have size_le := h.size_le
  refine ⟨?_, h.limit_eq⟩
  rw [CVector.removeAt]
  dsimp only
  split <;> omega

variable [DecidableEq α]

theorem Reachable.bounded (reached : v.Reachable) : v.Bounded := by
  induction reached with
  | create => exact ⟨Nat.zero_le _, 0, Nat.zero_le _, rfl⟩
  | add reached added ih =>
      rw [CVector.add] at added
      split at added
      · cases added
      · exact ih.addAllowDup added
  | addAllowDup reached added ih => exact ih.addAllowDup added
  | @remove v v' data reached removed ih =>
      rw [CVector.remove] at removed
      cases found : v.lookupIndex data with
      | none =>
          rw [found] at removed
          cases removed
      | some index =>
          rw [found] at removed
          cases removed
          have before := (List.find?_range_eq_some.mp found).2.1
          exact ih.removeAt (Nat.zero_lt_of_lt (List.mem_range.mp before)) index
  | removeIndex reached some_ removed ih =>
      rw [CVector.removeIndex] at removed
      split at removed
      · cases removed
      · split at removed
        · cases removed
        · cases removed
          exact ih.removeAt some_ _
  | set reached set ih => exact ih.set set
  | clear reached ih => exact ⟨Nat.zero_le _, ih.limit_eq⟩
  | sort reached behind perm ih => exact ⟨ih.size_le, ih.limit_eq⟩

end

/-- Lists of up to 2^31 elements are all reached. -/
theorem exists_represents [DecidableEq α] (xs : List (Option α)) (short : xs.length ≤ 2 ^ 31) :
    ∃ v : CVector α, v.Reachable ∧ v.Represents xs := by
  induction xs using List.reverseRecOn with
  | nil => exact ⟨create, .create, represents_create⟩
  | append_singleton xs data ih =>
      rw [List.length_append, List.length_singleton] at short
      obtain ⟨v, reached, h⟩ := ih (by omega)
      have size := h.size
      have size_le := h.size_le
      obtain ⟨v', added, h'⟩ := h.addAllowDup (fun _ => rfl) (by omega) data
      exact ⟨v', .addAllowDup reached added, h'⟩

/-- The elements of a vector. -/
def elements (v : CVector α) : List (Option α) := (List.range v.size).map v.array

theorem Bounded.elements {v : CVector α} (h : v.Bounded) : v.Elements v.elements where
  size := by simp [CVector.elements]
  size_le := h.size_le
  slots := by
    intro i inside
    simp [CVector.elements]

theorem Bounded.limit_le {v : CVector α} (h : v.Bounded) : v.limit ≤ 2 ^ 31 := by
  obtain ⟨k, low, limit⟩ := h.limit_eq
  rw [limit]
  exact Nat.pow_le_pow_right (by decide) low

variable [DecidableEq α]

/-- A loop over a vector of distinct elements ends, and its body sees each of them once, in their
    order, whichever of them it removes; the vector is left with the others. -/
theorem forNodes_elements {v : CVector α} (reached : v.Reachable) (distinct : v.elements.Nodup)
    (malloc : Nat → Bool) (granted : malloc sizeofVectorNode = true) (body : Nat → Body)
    (more : Nat) :
    ∃ v', v.forNodes malloc body (v.size + more) = .ok (some (v.elements, v')) ∧
      v'.Elements (leftBy body 0 v.elements) := by
  have h : v.Elements ([] ++ v.elements) := reached.bounded.elements
  obtain ⟨v', walked, h'⟩ := h.walk reached.bounded.limit_le body distinct 0 more
  refine ⟨v', ?_, h'⟩
  rw [forNodes, reached.bounded.elements.vectorHead granted, h.size]
  exact walked

/-- Two elements fill the block; the first one is removed, and its place is taken. -/
theorem forNodes_elements_pair : ∃ v v' : CVector Nat,
    v.elements = [some 10, some 20] ∧ v.size = v.limit ∧
      v.forNodes (fun _ => true) (fun k => if k = 0 then .remove else .leave) (v.size + 0) =
        .ok (some (v.elements, v')) ∧
      v'.Elements [some 20] := by
  have first : (create.add (fun _ => true) (some 10) : Except Stop (CVector Nat)) = .ok _ := rfl
  have second : ((create.add (fun _ => true) (some 10)).bind fun v =>
      v.add (fun _ => true) (some 20) : Except Stop (CVector Nat)) = .ok _ := rfl
  have reached := Reachable.add (Reachable.add .create first) second
  have distinct : List.Nodup [some 10, some 20] := by decide
  obtain ⟨v', walked, left⟩ := forNodes_elements reached distinct (fun _ => true) rfl
    (fun k => if k = 0 then .remove else .leave) 0
  exact ⟨_, v', rfl, rfl, walked, left⟩

end Sdplane.CVector
