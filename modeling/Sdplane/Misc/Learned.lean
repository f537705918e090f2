import Mathlib.Data.List.Induction
import Mathlib.Data.List.Nodup

/-!
# Tables that learn

A table of at most `cap` keys, each with the value it was last seen with. A key enters the
table when it is first seen, as long as there is room, and never leaves it.
-/

namespace Sdplane

variable {κ ν : Type} [DecidableEq κ]

/-- The table after a key was seen with a value. -/
def learn (cap : Nat) (table : List (κ × ν)) (k : κ) (v : ν) : List (κ × ν) :=
  if k ∈ table.map Prod.fst then table.map fun e => if e.1 = k then (k, v) else e
  else if table.length < cap then table ++ [(k, v)]
  else table

/-- The table after a sequence of sightings. -/
def learnAll (cap : Nat) (seen : List (κ × ν)) : List (κ × ν) :=
  seen.foldl (fun table e => learn cap table e.1 e.2) []

/-- The value a key was last seen with. -/
def latest (seen : List (κ × ν)) (k : κ) : Option ν :=
  (seen.reverse.find? fun e => e.1 = k).map Prod.snd

theorem learnAll_concat (cap : Nat) (seen : List (κ × ν)) (e : κ × ν) :
    learnAll cap (seen ++ [e]) = learn cap (learnAll cap seen) e.1 e.2 := by
  rw [learnAll, List.foldl_append]
  rfl

theorem latest_concat (seen : List (κ × ν)) (e : κ × ν) (k : κ) :
    latest (seen ++ [e]) k = if e.1 = k then some e.2 else latest seen k := by
  rw [latest, List.reverse_append, List.reverse_singleton, List.singleton_append,
    List.find?_cons]
  by_cases same : e.1 = k
  · simp [same]
  · simp [same, latest]

/-! ## First appearances -/

/-- A key that appears once more keeps its place; a new one comes last. -/
theorem eraseDups_concat (ks : List κ) (k : κ) :
    (ks ++ [k]).eraseDups = if k ∈ ks then ks.eraseDups else ks.eraseDups ++ [k] := by
  rw [List.eraseDups_append]
  by_cases mem : k ∈ ks
  · simp [List.removeAll, mem]
  · simp [List.removeAll, mem, List.eraseDups_cons]

theorem mem_eraseDups {ks : List κ} {k : κ} : k ∈ ks.eraseDups ↔ k ∈ ks := by
  induction ks using List.reverseRecOn with
  | nil => simp
  | append_singleton ks last ih =>
      rw [eraseDups_concat, List.mem_append, List.mem_singleton]
      split
      · next seen =>
          rw [ih]
          exact ⟨.inl, fun h => h.elim id fun same => same ▸ seen⟩
      · rw [List.mem_append, List.mem_singleton, ih]

theorem nodup_eraseDups (ks : List κ) : ks.eraseDups.Nodup := by
  induction ks using List.reverseRecOn with
  | nil => simp
  | append_singleton ks last ih =>
      rw [eraseDups_concat]
      split
      · exact ih
      · next new =>
          rw [← List.concat_eq_append]
          exact ih.concat fun mem => new (mem_eraseDups.mp mem)

/-! ## What is learned -/

theorem learn_keys (cap : Nat) (table : List (κ × ν)) (k : κ) (v : ν) :
    (learn cap table k v).map Prod.fst =
      if k ∈ table.map Prod.fst then table.map Prod.fst
      else if table.length < cap then table.map Prod.fst ++ [k]
      else table.map Prod.fst := by
  rw [learn]
  split
  · rw [List.map_map]
    refine List.map_congr_left fun e _ => ?_
    simp only [Function.comp_apply]
    split
    · next same => exact same.symm
    · rfl
  · split
    · rw [List.map_append, List.map_singleton]
    · rfl

/-- The keys are the first ones that appeared, in this order. -/
theorem learnAll_keys (cap : Nat) (seen : List (κ × ν)) :
    (learnAll cap seen).map Prod.fst = (seen.map Prod.fst).eraseDups.take cap := by
  induction seen using List.reverseRecOn with
  | nil => simp [learnAll]
  | append_singleton seen e ih =>
      have length := congrArg List.length ih
      rw [List.length_map, List.length_take] at length
      rw [learnAll_concat, learn_keys, ih, length, List.map_append, List.map_singleton,
        eraseDups_concat]
      by_cases old : e.1 ∈ seen.map Prod.fst
      · rw [if_pos old]
        split
        · rfl
        · next cut =>
            -- a key that appeared and is not in the table appeared too late
            have more : cap < (seen.map Prod.fst).eraseDups.length := by
              by_contra short
              rw [List.take_of_length_le (by omega)] at cut
              exact cut (mem_eraseDups.mpr old)
            rw [if_neg (by omega)]
      · have new : e.1 ∉ (seen.map Prod.fst).eraseDups.take cap := fun mem =>
          old (mem_eraseDups.mp (List.mem_of_mem_take mem))
        rw [if_neg old, if_neg new]
        split
        · next room =>
            rw [List.take_of_length_le (by omega),
              List.take_of_length_le (by rw [List.length_append, List.length_singleton]; omega)]
        · next full =>
            rw [List.take_append_of_le_length (by omega)]

/-- Each key comes with the value it was last seen with. -/
theorem learnAll_latest (cap : Nat) (seen : List (κ × ν)) {e : κ × ν}
    (mem : e ∈ learnAll cap seen) : latest seen e.1 = some e.2 := by
  induction seen using List.reverseRecOn generalizing e with
  | nil => simp [learnAll] at mem
  | append_singleton seen last ih =>
      rw [learnAll_concat, learn] at mem
      rw [latest_concat]
      split at mem
      · obtain ⟨old, there, rfl⟩ := List.mem_map.mp mem
        by_cases same : old.1 = last.1
        · simp [same]
        · rw [if_neg same, if_neg (Ne.symm same)]
          exact ih there
      · next new =>
          have others : ∀ old ∈ learnAll cap seen, last.1 ≠ old.1 := fun old there same =>
            new (List.mem_map.mpr ⟨old, there, same.symm⟩)
          split at mem
          · rcases List.mem_append.mp mem with there | here
            · rw [if_neg (others e there)]
              exact ih there
            · rw [List.mem_singleton.mp here, if_pos rfl]
          · rw [if_neg (others e mem)]
            exact ih mem

end Sdplane
