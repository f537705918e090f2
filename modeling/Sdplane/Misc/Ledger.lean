import Sdplane.Misc.ForEach
import Mathlib.Data.List.Nodup
import Mathlib.Data.List.Perm.Subperm
import Mathlib.Data.List.Range

/-!
# Ledgers of handles

A program that takes resources and has to hand each of them over exactly once. The handles
it takes are numbered in order; the ledger knows how many there are and which were handed
over to whom. `Owns l held` is the invariant between steps: nothing is handed over twice, and
what is in `held` is still there to be handed over. `Hands l l' used ok` is what a step from
`l` to `l'` does that is given the handles `used`: it never hands over anything else than
these and what it takes itself, and loses none exactly when `ok`.
-/

namespace Sdplane

/-- How many handles were taken, and those handed over, with their receivers. -/
structure Ledger (S : Type) where
  taken : Nat
  given : List (Nat × S)

namespace Ledger

variable {S : Type}

def empty : Ledger S := ⟨0, []⟩

/-- Take a handle; it is `l.taken`. -/
def take (l : Ledger S) : Ledger S := { l with taken := l.taken + 1 }

/-- Take `n` handles; they are the `n` numbers from `l.taken` on. -/
def takeMany (l : Ledger S) (n : Nat) : Ledger S := { l with taken := l.taken + n }

/-- Hand the handle over. -/
def give (l : Ledger S) (h : Nat) (receiver : S) : Ledger S := { l with given := (h, receiver) :: l.given }

/-- Hand `n` handles over, from `h` on. -/
def giveMany (receiver : S) : Nat → Nat → Ledger S → Ledger S
  | _, 0, l => l
  | h, n + 1, l => giveMany receiver (h + 1) n (l.give h receiver)

/-- The handles handed over so far. -/
def handles (l : Ledger S) : List Nat := l.given.map Prod.fst

/-- Every handle taken was handed over exactly once, and no other ever. -/
def Settled (l : Ledger S) : Prop := ∀ h, l.handles.count h = if h < l.taken then 1 else 0

/-- The handles handed over and those held are all different, and all were taken. -/
structure Owns (l : Ledger S) (held : List Nat) : Prop where
  nodup : (l.handles ++ held).Nodup
  lt_taken : ∀ h ∈ l.handles ++ held, h < l.taken

/-- A step that is given the handles `used`, loses `lost` handles and holds none in the end. -/
structure Loses (l l' : Ledger S) (used : List Nat) (lost : Nat) : Prop where
  owns : ∀ held, l.Owns (used ++ held) → l'.Owns held
  count : l'.taken + l.given.length + used.length = l.taken + l'.given.length + lost

/-- A step that is given the handles `used` and loses none exactly when `ok`. -/
def Hands (l l' : Ledger S) (used : List Nat) (ok : Prop) : Prop :=
  ∃ lost, l.Loses l' used lost ∧ (lost = 0 ↔ ok)

/-! ## The invariant -/

theorem Owns.perm {l : Ledger S} {held held' : List Nat} (owns : l.Owns held)
    (p : held.Perm held') : l.Owns held' where
  nodup := (p.append_left l.handles).nodup_iff.mp owns.nodup
  lt_taken := fun h hmem => owns.lt_taken h ((p.append_left l.handles).mem_iff.mpr hmem)

theorem Owns.tail {l : Ledger S} {h : Nat} {held : List Nat} (owns : l.Owns (h :: held)) :
    l.Owns held where
  nodup := owns.nodup.sublist (List.sublist_append_right [h] held |>.append_left l.handles)
  lt_taken := fun k hk => owns.lt_taken k (by
    rcases List.mem_append.mp hk with hk | hk
    · exact List.mem_append_left _ hk
    · exact List.mem_append_right _ (List.mem_cons_of_mem h hk))

theorem Owns.give {l : Ledger S} {h : Nat} {held : List Nat} (owns : l.Owns (h :: held)) (receiver : S) :
    (l.give h receiver).Owns held := by
  have p : (l.handles ++ h :: held).Perm ((l.give h receiver).handles ++ held) := List.perm_middle
  exact ⟨p.nodup_iff.mp owns.nodup, fun k hk => owns.lt_taken k (p.mem_iff.mpr hk)⟩

theorem Owns.takeMany {l : Ledger S} {held : List Nat} (owns : l.Owns held) (n : Nat) :
    (l.takeMany n).Owns (List.range' l.taken n ++ held) := by
  have p : (List.range' l.taken n ++ (l.handles ++ held)).Perm
      ((l.takeMany n).handles ++ (List.range' l.taken n ++ held)) := by
    rw [← List.append_assoc, ← List.append_assoc]
    exact List.perm_append_comm.append_right held
  refine ⟨p.nodup_iff.mp ?_, ?_⟩
  · refine List.nodup_append.mpr ⟨List.nodup_range', owns.nodup, ?_⟩
    rintro k new _ old rfl
    have low := owns.lt_taken k old
    have high := (List.mem_range'_1.mp new).1
    omega
  · intro k hk
    change k < l.taken + n
    rcases List.mem_append.mp (p.mem_iff.mpr hk) with new | old
    · exact (List.mem_range'_1.mp new).2
    · have low := owns.lt_taken k old
      omega

theorem Owns.empty : (empty : Ledger S).Owns [] := ⟨List.nodup_nil, by simp [handles, Ledger.empty]⟩

/-- With nothing held, all is handed over when as many handles were handed over as taken. -/
theorem Owns.settled_iff {l : Ledger S} (owns : l.Owns []) :
    l.Settled ↔ l.given.length = l.taken := by
  have nodup : l.handles.Nodup := by simpa using owns.nodup
  have below : ∀ h ∈ l.handles, h < l.taken := by simpa using owns.lt_taken
  have length : l.handles.length = l.given.length := List.length_map _
  have sub : l.handles.Subperm (List.range l.taken) :=
    nodup.subperm fun h hmem => List.mem_range.mpr (below h hmem)
  constructor
  · intro settled
    have all : (List.range l.taken).Subperm l.handles := by
      refine List.nodup_range.subperm fun h hmem => ?_
      have once := settled h
      rw [if_pos (List.mem_range.mp hmem)] at once
      exact List.count_pos_iff.mp (by omega)
    have le := sub.length_le
    have ge := all.length_le
    rw [List.length_range] at le ge
    omega
  · intro full h
    have p : l.handles.Perm (List.range l.taken) :=
      sub.perm_of_length_le (by rw [List.length_range]; omega)
    rw [p.count_eq]
    split
    · next hlt => exact List.count_eq_one_of_mem List.nodup_range (List.mem_range.mpr hlt)
    · next hge => exact List.count_eq_zero.mpr fun hmem => hge (List.mem_range.mp hmem)

/-! ## Steps -/

namespace Hands

variable {l l' l'' : Ledger S} {used used' : List Nat} {ok ok' : Prop}

theorem refl (l : Ledger S) : l.Hands l [] True := ⟨0, ⟨fun _ owns => owns, rfl⟩, by simp⟩

theorem trans (first : l.Hands l' used ok) (second : l'.Hands l'' used' ok') :
    l.Hands l'' (used ++ used') (ok ∧ ok') := by
  obtain ⟨lost, step, none⟩ := first
  obtain ⟨lost', step', none'⟩ := second
  refine ⟨lost + lost', ⟨?_, ?_⟩, ?_⟩
  · intro held owns
    rw [List.append_assoc] at owns
    exact step'.owns held (step.owns _ owns)
  · have count := step.count
    have count' := step'.count
    rw [List.length_append]
    omega
  · rw [← none, ← none', Nat.add_eq_zero_iff]

theorem congr (step : l.Hands l' used ok) (same : ok ↔ ok') : l.Hands l' used ok' := by
  obtain ⟨lost, loses, none⟩ := step
  exact ⟨lost, loses, none.trans same⟩

theorem give (l : Ledger S) (h : Nat) (receiver : S) : l.Hands (l.give h receiver) [h] True := by
  refine ⟨0, ⟨fun held owns => Owns.give owns receiver, ?_⟩, by simp⟩
  simp only [Ledger.give, List.length_cons, List.length_nil]
  omega

/-- A handle that is forgotten is lost. -/
theorem lose (l : Ledger S) (h : Nat) : l.Hands l [h] False := by
  refine ⟨1, ⟨fun held owns => Owns.tail owns, ?_⟩, by simp⟩
  simp

theorem giveMany (receiver : S) (h n : Nat) (l : Ledger S) :
    l.Hands (l.giveMany receiver h n) (List.range' h n) True := by
  induction n generalizing h l with
  | zero => exact refl l
  | succ n ih => exact ((give l h receiver).trans (ih (h + 1) _)).congr (by simp)

/-- Handles that are forgotten are lost, if there are any. -/
theorem loseMany (l : Ledger S) (h n : Nat) : l.Hands l (List.range' h n) (n = 0) := by
  induction n generalizing h with
  | zero => exact (refl l).congr (by simp)
  | succ n ih => exact ((lose l h).trans (ih (h + 1))).congr (by simp)

/-- A step that takes `n` handles and passes them on. -/
theorem takeMany {n : Nat}
    (step : (l.takeMany n).Hands l' (List.range' l.taken n ++ used) ok) : l.Hands l' used ok := by
  obtain ⟨lost, loses, none⟩ := step
  refine ⟨lost, ⟨?_, ?_⟩, none⟩
  · intro held owns
    have grown := owns.takeMany n
    rw [← List.append_assoc] at grown
    exact loses.owns held grown
  · have count := loses.count
    simp only [Ledger.takeMany, List.length_append, List.length_range'] at count
    omega

/-- A step that takes one handle and passes it on. -/
theorem take (step : l.take.Hands l' (l.taken :: used) ok) : l.Hands l' used ok :=
  takeMany (n := 1) step

section
variable {σ α : Type} (ledger : σ → Ledger S) {body : Nat → α → σ → σ}

/-- A loop whose rounds take what they need themselves. -/
theorem forEach {ok : Nat → α → Prop}
    (step : ∀ i a s, (ledger s).Hands (ledger (body i a s)) [] (ok i a)) (i : Nat) (as : List α)
    (s : σ) : (ledger s).Hands (ledger (Sdplane.forEach body i as s)) []
      (∀ j a, as[j]? = some a → ok (i + j) a) := by
  induction as generalizing i s with
  | nil => exact (refl (ledger s)).congr (by simp)
  | cons a as ih => exact ((step i a s).trans (ih (i + 1) _)).congr forall_getElem?_cons.symm

/-- A loop over handles: its round counter is the handle the round is given. -/
theorem forHandles {ok : α → Prop}
    (step : ∀ m a s, (ledger s).Hands (ledger (body m a s)) [m] (ok a)) (m : Nat) (as : List α)
    (s : σ) : (ledger s).Hands (ledger (Sdplane.forEach body m as s)) (List.range' m as.length)
      (∀ a ∈ as, ok a) := by
  induction as generalizing m s with
  | nil => exact (refl (ledger s)).congr (by simp)
  | cons a as ih => exact ((step m a s).trans (ih (m + 1) _)).congr List.forall_mem_cons.symm

end

/-- A run that starts with an empty ledger and is given nothing settles it exactly when no
    step loses a handle. -/
theorem settled_iff {l : Ledger S} (run : (empty : Ledger S).Hands l [] ok) : l.Settled ↔ ok := by
  obtain ⟨lost, loses, none⟩ := run
  have owns : l.Owns [] := loses.owns [] Owns.empty
  have count := loses.count
  simp only [Ledger.empty, List.length_nil] at count
  rw [owns.settled_iff, ← none]
  omega

end Hands

end Ledger

end Sdplane
