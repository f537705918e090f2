import Mathlib.Logic.Function.Basic

/-!
# Trees of nodes

Nodes with labels, in a heap. The heap is a tree if each node is known by the labels on the
way to it: `Addressed path` says that this way is `path i` for node `i`. A new node below
another keeps that, if no child there has its label already.
-/

namespace Sdplane

/-- A heap of nodes, the first of which is the root. -/
structure NodeTree (κ : Type) where
  size : Nat
  label : Nat → κ
  children : Nat → List Nat

namespace NodeTree

variable {κ : Type}

/-- From child to child, along the labels. -/
inductive Walk (t : NodeTree κ) : Nat → List κ → Nat → Prop
  | nil (i : Nat) : Walk t i [] i
  | cons {i j k : Nat} {ws : List κ} (child : j ∈ t.children i) (rest : Walk t j ws k) :
      Walk t i (t.label j :: ws) k

/-- Each node has its own path. -/
structure Addressed (t : NodeTree κ) (path : Nat → List κ) : Prop where
  nonempty : 0 < t.size
  root : path 0 = []
  inj : ∀ i < t.size, ∀ j < t.size, path i = path j → i = j
  child : ∀ i < t.size, ∀ j ∈ t.children i, j < t.size ∧ path j = path i ++ [t.label j]
  parent : ∀ j < t.size, j ≠ 0 → ∃ i < t.size, j ∈ t.children i

/-- A node with a new label below `p`. -/
structure Grows (t : NodeTree κ) (p : Nat) (w : κ) (t' : NodeTree κ) : Prop where
  size : t'.size = t.size + 1
  new_label : t'.label t.size = w
  label : ∀ i < t.size, t'.label i = t.label i
  new_children : t'.children t.size = []
  parent_children : ∀ j, j ∈ t'.children p ↔ j ∈ t.children p ∨ j = t.size
  children : ∀ i < t.size, i ≠ p → t'.children i = t.children i

theorem Walk.snoc {t : NodeTree κ} {i j k : Nat} {ws : List κ} (h : t.Walk i ws j)
    (child : k ∈ t.children j) : t.Walk i (ws ++ [t.label k]) k := by
  induction h with
  | nil i => exact .cons child (.nil k)
  | cons first _ ih => exact .cons first (ih child)

namespace Addressed

variable {t t' : NodeTree κ} {path : Nat → List κ}

/-- A walk extends the path of the node it begins at. -/
theorem walk (h : t.Addressed path) {i j : Nat} {ws : List κ} (walk : t.Walk i ws j)
    (hi : i < t.size) : j < t.size ∧ path j = path i ++ ws := by
  induction walk with
  | nil i => exact ⟨hi, (List.append_nil _).symm⟩
  | cons first _ ih =>
      obtain ⟨inside, at_child⟩ := h.child _ hi _ first
      obtain ⟨hk, at_end⟩ := ih inside
      refine ⟨hk, ?_⟩
      rw [at_end, at_child, List.append_assoc, List.singleton_append]

/-- A node is at the end of its path. -/
theorem walk_path (h : t.Addressed path) {j : Nat} (hj : j < t.size) : t.Walk 0 (path j) j := by
  induction len : (path j).length generalizing j with
  | zero =>
      have here : path j = [] := List.length_eq_zero_iff.mp len
      have first : j = 0 := h.inj j hj 0 h.nonempty (here.trans h.root.symm)
      rw [first, h.root]
      exact .nil 0
  | succ n ih =>
      have other : j ≠ 0 := by
        rintro rfl
        rw [h.root] at len
        cases len
      obtain ⟨i, hi, below⟩ := h.parent j hj other
      have at_child := (h.child i hi j below).2
      rw [at_child, List.length_append, List.length_singleton] at len
      rw [at_child]
      exact (ih hi (Nat.add_right_cancel len)).snoc below

/-- The walks from the root are the paths. -/
theorem walk_iff (h : t.Addressed path) {ws : List κ} {j : Nat} :
    t.Walk 0 ws j ↔ j < t.size ∧ path j = ws := by
  constructor
  · intro walk
    obtain ⟨inside, here⟩ := h.walk walk h.nonempty
    exact ⟨inside, here.trans (by rw [h.root, List.nil_append])⟩
  · rintro ⟨inside, rfl⟩
    exact h.walk_path inside

/-- Siblings differ in their labels. -/
theorem siblings (h : t.Addressed path) {i j k : Nat} (hi : i < t.size) (hj : j ∈ t.children i)
    (hk : k ∈ t.children i) (same : t.label j = t.label k) : j = k := by
  obtain ⟨insideJ, pathJ⟩ := h.child i hi j hj
  obtain ⟨insideK, pathK⟩ := h.child i hi k hk
  exact h.inj j insideJ k insideK (by rw [pathJ, pathK, same])

/-- A node is a child of the node its path extends. -/
theorem mem_children (h : t.Addressed path) {i j : Nat} {w : κ} (hi : i < t.size) (hj : j < t.size)
    (extends_path : path j = path i ++ [w]) : j ∈ t.children i ∧ t.label j = w := by
  have other : j ≠ 0 := by
    rintro rfl
    rw [h.root] at extends_path
    exact absurd extends_path.symm (List.append_ne_nil_of_right_ne_nil _ (List.cons_ne_nil w []))
  obtain ⟨k, hk, below⟩ := h.parent j hj other
  have at_child := (h.child k hk j below).2
  rw [extends_path] at at_child
  obtain ⟨same, label⟩ := List.append_inj' at_child rfl
  rw [h.inj i hi k hk same]
  exact ⟨below, (List.singleton_inj.mp label).symm⟩

/-- The heap that grew is a tree again. -/
theorem grow (h : t.Addressed path) {p : Nat} {w : κ} (hp : p < t.size)
    (new : ∀ j ∈ t.children p, t.label j ≠ w) (grows : t.Grows p w t') :
    t'.Addressed (Function.update path t.size (path p ++ [w])) := by
  have old : ∀ {i}, i < t.size → Function.update path t.size (path p ++ [w]) i = path i :=
    fun hi => Function.update_of_ne (Nat.ne_of_lt hi) _ _
  have unused : ∀ i < t.size, path i ≠ path p ++ [w] := by
    intro i hi same
    obtain ⟨below, label⟩ := h.mem_children hp hi same
    exact new i below label
  refine ⟨?_, ?_, ?_, ?_, ?_⟩
  · rw [grows.size]
    exact Nat.succ_pos _
  · rw [old h.nonempty, h.root]
  · intro i hi j hj same
    rw [grows.size] at hi hj
    rcases Nat.lt_succ_iff_lt_or_eq.mp hi with hi | rfl <;>
      rcases Nat.lt_succ_iff_lt_or_eq.mp hj with hj | rfl
    · rw [old hi, old hj] at same
      exact h.inj i hi j hj same
    · rw [old hi, Function.update_self] at same
      exact absurd same (unused i hi)
    · rw [old hj, Function.update_self] at same
      exact absurd same.symm (unused j hj)
    · rfl
  · intro i hi j hj
    rw [grows.size] at hi
    rw [grows.size]
    rcases Nat.lt_succ_iff_lt_or_eq.mp hi with hi | rfl
    · have below : j ∈ t.children i ∨ i = p ∧ j = t.size := by
        by_cases at_p : i = p
        · rw [at_p, grows.parent_children] at hj
          rw [at_p]
          exact hj.imp_right fun hj => ⟨rfl, hj⟩
        · rw [grows.children i hi at_p] at hj
          exact .inl hj
      rcases below with below | ⟨rfl, rfl⟩
      · obtain ⟨inside, at_child⟩ := h.child i hi j below
        rw [old hi, old inside, grows.label j inside]
        exact ⟨Nat.lt_succ_of_lt inside, at_child⟩
      · rw [old hi, Function.update_self, grows.new_label]
        exact ⟨Nat.lt_succ_self _, rfl⟩
    · rw [grows.new_children] at hj
      exact absurd hj List.not_mem_nil
  · intro j hj other
    rw [grows.size] at hj
    rw [grows.size]
    rcases Nat.lt_succ_iff_lt_or_eq.mp hj with hj | rfl
    · obtain ⟨i, hi, below⟩ := h.parent j hj other
      refine ⟨i, Nat.lt_succ_of_lt hi, ?_⟩
      by_cases at_p : i = p
      · rw [at_p, grows.parent_children]
        exact .inl (at_p ▸ below)
      · rw [grows.children i hi at_p]
        exact below
    · exact ⟨p, Nat.lt_succ_of_lt hp, (grows.parent_children _).mpr (.inr rfl)⟩

end Addressed

end NodeTree

end Sdplane
