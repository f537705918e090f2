import Sdplane.Misc.NodeTree
import Mathlib.Data.List.Infix

/-!
# A tree as the list of its paths

Where nodes are numbered as they come, the paths of a tree in the order of their nodes say which
node is whose child. `addPath` puts a path behind those there are; a tree that grows by a node
has one more path.
-/

namespace Sdplane

variable {κ : Type}

/-- The paths on a walk from `ws` along these labels. -/
def pathsOn (ws : List κ) : List κ → List (List κ)
  | [] => []
  | label :: labels => (ws ++ [label]) :: pathsOn (ws ++ [label]) labels

section
variable [DecidableEq κ] {paths : List (List κ)} {ws : List κ}

/-- The path behind the others, unless it is among them. -/
def addPath (paths : List (List κ)) (ws : List κ) : List (List κ) :=
  if ws ∈ paths then paths else paths ++ [ws]

theorem addPath_of_mem (there : ws ∈ paths) : addPath paths ws = paths := if_pos there

theorem addPath_of_not_mem (new : ws ∉ paths) : addPath paths ws = paths ++ [ws] := if_neg new

theorem prefix_addPath (paths : List (List κ)) (ws : List κ) : paths <+: addPath paths ws := by
  rw [addPath]
  split
  · exact List.prefix_rfl
  · exact List.prefix_append _ _

@[simp] theorem mem_addPath {other : List κ} :
    other ∈ addPath paths ws ↔ other ∈ paths ∨ other = ws := by
  rw [addPath]
  split
  · rename_i there
    exact ⟨.inl, fun h => h.elim id fun same => same ▸ there⟩
  · simp

theorem prefix_addPaths (paths more : List (List κ)) : paths <+: more.foldl addPath paths := by
  induction more generalizing paths with
  | nil => exact List.prefix_rfl
  | cons ws more ih => exact (prefix_addPath paths ws).trans (ih (addPath paths ws))

@[simp] theorem mem_addPaths {more : List (List κ)} :
    ws ∈ more.foldl addPath paths ↔ ws ∈ paths ∨ ws ∈ more := by
  induction more generalizing paths with
  | nil => simp
  | cons other more ih => rw [List.foldl_cons, ih, mem_addPath, List.mem_cons, or_assoc]

end

/-- Node `i` has this path. -/
def PathAt (paths : List (List κ)) (i : Nat) (ws : List κ) : Prop := paths[i]? = some ws

namespace PathAt

variable {paths more : List (List κ)} {i j : Nat} {ws ws' : List κ}

theorem mem (h : PathAt paths i ws) : ws ∈ paths := List.mem_of_getElem? h

theorem lt_length (h : PathAt paths i ws) : i < paths.length := (List.getElem?_eq_some_iff.mp h).1

theorem mono (h : PathAt paths i ws) (longer : paths <+: more) : PathAt more i ws := by
  obtain ⟨new, rfl⟩ := longer
  rw [PathAt, List.getElem?_append_left h.lt_length]
  exact h

theorem eq (h : PathAt paths i ws) (h' : PathAt paths i ws') : ws = ws' :=
  Option.some_inj.mp (h.symm.trans h')

theorem getD (h : PathAt paths i ws) : paths.getD i [] = ws := by
  rw [List.getD_eq_getElem?_getD, h]
  rfl

theorem of_lt (inside : i < paths.length) : PathAt paths i (paths.getD i []) := by
  rw [PathAt, List.getD_eq_getElem?_getD, List.getElem?_eq_getElem inside]
  rfl

theorem of_mem (h : ws ∈ paths) : ∃ i, PathAt paths i ws := List.getElem?_of_mem h

theorem last (paths : List (List κ)) (ws : List κ) : PathAt (paths ++ [ws]) paths.length ws := by
  rw [PathAt, List.getElem?_append_right (Nat.le_refl _), Nat.sub_self]
  rfl

end PathAt

namespace NodeTree

/-- The tree has these paths, each node its own. -/
structure Lists (t : NodeTree κ) (paths : List (List κ)) : Prop where
  size : t.size = paths.length
  addressed : t.Addressed fun i => paths.getD i []

namespace Lists

variable {t t' : NodeTree κ} {paths : List (List κ)} {i j : Nat} {ws : List κ} {w : κ}

theorem lt_size (h : t.Lists paths) (here : PathAt paths i ws) : i < t.size :=
  h.size ▸ here.lt_length

theorem root (h : t.Lists paths) : PathAt paths 0 [] := by
  have first := PathAt.of_lt (h.size ▸ h.addressed.nonempty)
  rw [h.addressed.root] at first
  exact first

theorem inj (h : t.Lists paths) (hi : PathAt paths i ws) (hj : PathAt paths j ws) : i = j :=
  h.addressed.inj i (h.lt_size hi) j (h.lt_size hj) (hi.getD.trans hj.getD.symm)

/-- The path of a child is one label longer. -/
theorem child (h : t.Lists paths) (here : PathAt paths i ws) (below : j ∈ t.children i) :
    PathAt paths j (ws ++ [t.label j]) := by
  obtain ⟨inside, there⟩ := h.addressed.child i (h.lt_size here) j below
  rw [here.getD] at there
  exact there ▸ PathAt.of_lt (h.size ▸ inside)

/-- A node whose path is one label longer is a child. -/
theorem mem_children (h : t.Lists paths) (here : PathAt paths i ws)
    (there : PathAt paths j (ws ++ [w])) : j ∈ t.children i ∧ t.label j = w := by
  refine h.addressed.mem_children (h.lt_size here) (h.lt_size there) ?_
  rw [here.getD, there.getD]

/-- A node with a path that is not empty is below the node of the path before. -/
theorem parent (h : t.Lists paths) (there : PathAt paths j (ws ++ [w])) :
    ∃ i, PathAt paths i ws ∧ j ∈ t.children i ∧ t.label j = w := by
  have other : j ≠ 0 := by
    rintro rfl
    exact List.append_ne_nil_of_right_ne_nil ws (List.cons_ne_nil w []) (there.eq h.root)
  obtain ⟨i, inside, below⟩ := h.addressed.parent j (h.lt_size there) other
  have here := PathAt.of_lt (h.size ▸ inside)
  obtain ⟨same, label⟩ := List.append_inj' ((h.child here below).eq there) rfl
  exact ⟨i, same ▸ here, below, List.singleton_inj.mp label⟩

/-- A tree is addressed in one way. -/
theorem path_eq (h : t.Lists paths) {path : Nat → List κ} (addressed : t.Addressed path)
    (here : PathAt paths i ws) : path i = ws := by
  have walk := h.addressed.walk_path (h.lt_size here)
  rw [here.getD] at walk
  exact (addressed.walk_iff.mp walk).2

theorem grow (h : t.Lists paths) (here : PathAt paths i ws) (new : ∀ j ∈ t.children i, t.label j ≠ w)
    (grows : t.Grows i w t') : t'.Lists (paths ++ [ws ++ [w]]) where
  size := by rw [grows.size, h.size, List.length_append, List.length_singleton]
  addressed := by
    have more := h.addressed.grow (h.lt_size here) new grows
    rw [here.getD, h.size] at more
    have same : (fun i => (paths ++ [ws ++ [w]]).getD i []) =
        Function.update (fun i => paths.getD i []) paths.length (ws ++ [w]) := by
      funext j
      by_cases at_end : j = paths.length
      · subst at_end
        rw [(PathAt.last paths _).getD, Function.update_self]
      · rw [Function.update_of_ne at_end]
        by_cases inside : j < paths.length
        · exact ((PathAt.of_lt inside).mono (List.prefix_append _ _)).getD
        · have beyond : (paths ++ [ws ++ [w]]).length ≤ j := by
            rw [List.length_append, List.length_singleton]
            omega
          simp only [List.getD_eq_getElem?_getD]
          rw [List.getElem?_eq_none beyond, List.getElem?_eq_none (Nat.not_lt.mp inside)]
    rw [same]
    exact more

end Lists

end NodeTree

end Sdplane
