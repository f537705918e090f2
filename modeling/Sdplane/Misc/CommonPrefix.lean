import Mathlib.Data.List.Basic

/-!
# Common prefixes

The longest list with which all of some lists begin, and by how much it goes on behind a list
with which they begin anyway.
-/

namespace Sdplane

variable {α : Type}

theorem prefix_antisymm {as bs : List α} (h : as <+: bs) (h' : bs <+: as) : as = bs :=
  h.eq_of_length (Nat.le_antisymm h.length_le h'.length_le)

variable [DecidableEq α]

/-- The longest common prefix of two lists. -/
def common : List α → List α → List α
  | a :: as, b :: bs => if a = b then a :: common as bs else []
  | _, _ => []

/-- The longest common prefix of lists, the empty list if there are none. -/
def commonPrefix : List (List α) → List α
  | [] => []
  | as :: rest => rest.foldl common as

/-- What all the lists have in common behind `word`. -/
def extension (word : List α) (lists : List (List α)) : List α :=
  (commonPrefix lists).drop word.length

theorem prefix_common_iff {u as bs : List α} : u <+: common as bs ↔ u <+: as ∧ u <+: bs := by
  induction as generalizing u bs with
  | nil =>
      rw [common.eq_def]
      constructor
      · intro h
        obtain rfl := List.prefix_nil.mp h
        exact ⟨List.nil_prefix, List.nil_prefix⟩
      · exact And.left
  | cons a as ih =>
      cases bs with
      | nil => exact ⟨fun h => ⟨(List.prefix_nil.mp h) ▸ List.nil_prefix, h⟩, And.right⟩
      | cons b bs =>
          cases u with
          | nil => simp
          | cons c u =>
              rw [common]
              split
              · rename_i same
                rw [List.cons_prefix_cons, List.cons_prefix_cons, List.cons_prefix_cons, ih, same]
                tauto
              · rename_i differ
                constructor
                · intro h
                  exact absurd (List.prefix_nil.mp h) (List.cons_ne_nil c u)
                · rintro ⟨left, right⟩
                  have first := (List.cons_prefix_cons.mp left).1
                  exact absurd (first.symm.trans (List.cons_prefix_cons.mp right).1) differ

theorem prefix_foldl_common_iff {u as : List α} {lists : List (List α)} :
    u <+: lists.foldl common as ↔ u <+: as ∧ ∀ bs ∈ lists, u <+: bs := by
  induction lists generalizing as with
  | nil => simp
  | cons bs lists ih =>
      rw [List.foldl_cons, ih, prefix_common_iff, List.forall_mem_cons, and_assoc]

/-- One more list. -/
theorem commonPrefix_concat (lists : List (List α)) (as : List α) :
    commonPrefix (lists ++ [as]) = if lists = [] then as else common (commonPrefix lists) as := by
  cases lists with
  | nil => rfl
  | cons bs lists =>
      rw [if_neg (List.cons_ne_nil bs lists)]
      exact List.foldl_append

/-- A list is a prefix of all exactly if it is one of the longest. -/
theorem prefix_commonPrefix_iff {u : List α} {lists : List (List α)} (some_list : lists ≠ []) :
    u <+: commonPrefix lists ↔ ∀ as ∈ lists, u <+: as := by
  cases lists with
  | nil => exact absurd rfl some_list
  | cons as lists =>
      rw [List.forall_mem_cons]
      exact prefix_foldl_common_iff

theorem commonPrefix_isPrefix {as : List α} {lists : List (List α)} (mem : as ∈ lists) :
    commonPrefix lists <+: as :=
  (prefix_commonPrefix_iff (List.ne_nil_of_mem mem)).mp (List.prefix_refl _) as mem

/-- Only which lists there are matters. -/
theorem commonPrefix_congr {lists lists' : List (List α)} (same : ∀ as, as ∈ lists ↔ as ∈ lists') :
    commonPrefix lists = commonPrefix lists' := by
  by_cases none : lists = []
  · have none' : lists' = [] := by
      rw [none] at same
      exact List.eq_nil_iff_forall_not_mem.mpr fun as mem => List.not_mem_nil ((same as).mpr mem)
    rw [none, none']
  · have some_list : lists' ≠ [] := by
      obtain ⟨as, mem⟩ := List.exists_mem_of_ne_nil lists none
      exact List.ne_nil_of_mem ((same as).mp mem)
    apply prefix_antisymm
    · exact (prefix_commonPrefix_iff some_list).mpr fun as mem =>
        commonPrefix_isPrefix ((same as).mpr mem)
    · exact (prefix_commonPrefix_iff none).mpr fun as mem =>
        commonPrefix_isPrefix ((same as).mp mem)

variable {word : List α} {lists others : List (List α)}

theorem length_extension_lt (word : List α) {n : Nat} (positive : 0 < n)
    (short : ∀ as ∈ lists, as.length < n) :
    (extension word lists).length < n := by
  cases lists with
  | nil => simpa [extension, commonPrefix] using positive
  | cons as lists =>
      have whole := (commonPrefix_isPrefix (List.mem_cons_self : as ∈ as :: lists)).length_le
      have first := short as List.mem_cons_self
      rw [extension, List.length_drop]
      omega

/-- Behind a common beginning, the extensions are equal if the common prefixes are. -/
theorem extension_inj (some_list : lists ≠ []) (begin_ : ∀ as ∈ lists, word <+: as)
    (some_other : others ≠ []) (begin_' : ∀ as ∈ others, word <+: as) :
    extension word lists = extension word others ↔ commonPrefix lists = commonPrefix others := by
  obtain ⟨rest, whole⟩ := (prefix_commonPrefix_iff some_list).mpr begin_
  obtain ⟨rest', whole'⟩ := (prefix_commonPrefix_iff some_other).mpr begin_'
  rw [extension, extension, ← whole, ← whole', List.drop_left, List.drop_left]
  exact List.append_right_inj word |>.symm

/-- Other lists do not shorten the extension exactly if the common prefix begins each of them. -/
theorem extension_append_iff (some_list : lists ≠ [])
    (begin_ : ∀ as ∈ lists ++ others, word <+: as) :
    extension word (lists ++ others) = extension word lists ↔
      ∀ as ∈ others, commonPrefix lists <+: as := by
  have some_all : lists ++ others ≠ [] := List.append_ne_nil_of_left_ne_nil some_list others
  have begin_lists := fun as mem => begin_ as (List.mem_append_left others mem)
  rw [extension_inj some_all begin_ some_list begin_lists]
  constructor
  · intro same as mem
    rw [← same]
    exact commonPrefix_isPrefix (List.mem_append_right lists mem)
  · intro shared
    apply prefix_antisymm
    · exact (prefix_commonPrefix_iff some_list).mpr fun as mem =>
        commonPrefix_isPrefix (List.mem_append_left others mem)
    · refine (prefix_commonPrefix_iff some_all).mpr fun as mem => ?_
      rcases List.mem_append.mp mem with mem | mem
      · exact commonPrefix_isPrefix mem
      · exact shared as mem

/-- There is no extension exactly if the word is all the lists have in common. -/
theorem extension_eq_nil_iff (some_list : lists ≠ []) (begin_ : ∀ as ∈ lists, word <+: as) :
    extension word lists = [] ↔ commonPrefix lists = word := by
  obtain ⟨rest, whole⟩ := (prefix_commonPrefix_iff some_list).mpr begin_
  rw [extension, ← whole, List.drop_left]
  simp

end Sdplane
