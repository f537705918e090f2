import Mathlib.Data.List.GetD
import Sdplane.Misc.CString
import Sdplane.Misc.Runs

/-!
# The file selector

`lib/zcmdsh/shell_fselect.c`: the entries of a directory in columns, and the keys that move the
index of the one that is chosen. The number of columns comes from the width of the window each
time the entries are printed. `fselect_keyfunc_right` does not look at the number of entries,
so that in a row that is not full the index goes past the last one. And `fselect_completion` keeps
the pointers `readdir` returns, where a redraw makes copies: what they point to is up to the calls
that follow.
-/

namespace Sdplane

/-- What is read where a `struct dirent` should be. -/
structure DirentObject where
  name : CString
  isDir : Bool

/-- `struct dirent` as `readdir` returns it; `d_name` has 256 octets. -/
structure Dirent extends DirentObject where
  named : name.octets ≠ []
  short : name.length ≤ 255

/-- The variables `fselect_index`, `fselect_ncolumn`, `fselect_nentry` and `fselect_maxlen`. -/
structure Fselect where
  index : Int
  ncolumn : Int
  nentry : Int
  maxlen : Int

namespace Fselect

def initial : Fselect := ⟨0, 1, 0, 0⟩

/-- What an `int` keeps of a result. -/
def wrapInt (x : Int) : Int := (x + 2 ^ 31) % 2 ^ 32 - 2 ^ 31

/-- The entries that are not hidden and begin with `fselect_filename`. -/
def isShown (filename : CString) (dirent : Dirent) : Bool :=
  dirent.name.octets.head? ≠ some (charByte '.') && filename.octets.isPrefixOf dirent.name.octets

/-- `fselect_ls_candidate`, where `opendir` may fail and the copies of the entries are made;
    `ws_col` is an `unsigned short`. -/
def lsCandidate (opened : Bool) (wsCol : BitVec 16) (s : Fselect) : Fselect :=
  if opened then
    let ncolumn := ((wsCol.toNat : Int) - 2).tdiv (s.maxlen + 2)
    { s with ncolumn := if ncolumn = 0 then 1 else ncolumn }
  else s

/-- A round of the loop of `fselect_keyfunc_start`. -/
def countEntry (filename : CString) (s : Fselect) (dirent : Dirent) : Fselect :=
  if isShown filename dirent then
    { s with
      maxlen := if s.maxlen < dirent.name.length then dirent.name.length else s.maxlen
      nentry := wrapInt (s.nentry + 1) }
  else s

/-- `fselect_keyfunc_start`, once it has opened the directory. -/
def keyfuncStart (filename : CString) (dirents : List Dirent) (opened : Bool) (wsCol : BitVec 16)
    (s : Fselect) : Fselect :=
  let s := dirents.foldl (countEntry filename) { s with maxlen := 0, nentry := 0 }
  lsCandidate opened wsCol { s with index := 0 }

/-! ## Keys -/

/-- `fselect_keyfunc_left`. -/
def keyfuncLeft (s : Fselect) : Int :=
  if 1 < s.ncolumn ∧ 0 < s.index.tmod s.ncolumn then wrapInt (s.index - 1) else s.index

/-- `fselect_keyfunc_right`. -/
def keyfuncRight (s : Fselect) : Int :=
  if 1 < s.ncolumn ∧ s.index.tmod s.ncolumn < s.ncolumn - 1 then wrapInt (s.index + 1)
  else s.index

/-- `fselect_keyfunc_up`. -/
def keyfuncUp (s : Fselect) : Int :=
  if 0 ≤ wrapInt (s.index - s.ncolumn) then wrapInt (s.index - s.ncolumn) else s.index

/-- `fselect_keyfunc_down`. -/
def keyfuncDown (s : Fselect) : Int :=
  if wrapInt (s.index + s.ncolumn) < s.nentry then wrapInt (s.index + s.ncolumn) else s.index

/-- `fselect_keyfunc_leftmost`. -/
def keyfuncLeftmost (s : Fselect) : Int := wrapInt (s.index.tdiv s.ncolumn * s.ncolumn)

/-- `fselect_keyfunc_rightmost`. -/
def keyfuncRightmost (s : Fselect) : Int :=
  let rightmost := wrapInt (s.index.tdiv s.ncolumn * s.ncolumn + (s.ncolumn - 1))
  if s.nentry - 1 < rightmost then s.nentry - 1 else rightmost

/-- `fselect_keyfunc_first`. -/
def keyfuncFirst (_ : Fselect) : Int := 0

/-- `fselect_keyfunc_end`. -/
def keyfuncEnd (s : Fselect) : Int := wrapInt (s.nentry - 1)

/-- `fselect_keyfunc_none`. -/
def keyfuncNone (s : Fselect) : Int := s.index

/-- The keys that stay in the selector. -/
inductive Key
  | left
  | right
  | up
  | down
  | leftmost
  | rightmost
  | first
  | last
  | other
deriving DecidableEq

/-- What a key sets `fselect_index` to. -/
def Key.index : Key → Fselect → Int
  | .left => keyfuncLeft
  | .right => keyfuncRight
  | .up => keyfuncUp
  | .down => keyfuncDown
  | .leftmost => keyfuncLeftmost
  | .rightmost => keyfuncRightmost
  | .first => keyfuncFirst
  | .last => keyfuncEnd
  | .other => keyfuncNone

/-- A key, whether the directory is opened when the entries are printed again, and the width of
    the window then. -/
structure Press where
  key : Key
  opened : Bool
  wsCol : BitVec 16

def step (s : Fselect) (press : Press) : Option Fselect :=
  some (lsCandidate press.opened press.wsCol { s with index := press.key.index s })

/-! ## Enter -/

/-- What is printed and inserted for an entry. -/
def printname (dirent : DirentObject) : List Byte :=
  (dirent.name.octets ++ if dirent.isDir then litString "/" else []).take 1023

/-- An entry, and the pointer with which `readdir` returns it. -/
structure DirRead where
  place : Nat
  dirent : Dirent

/-- What Enter meets: whether `opendir`, the `malloc` of `sort_vector` and the last `strdup` succeed,
    what the calls of `readdir` return of the directory, what is in their storage after the last
    one, and the order `qsort` leaves. -/
structure Enter (dirents : List Dirent) where
  opened : Bool
  allocated : Bool
  copied : Bool
  reads : List DirRead
  stored : Nat → DirentObject
  sort : List Nat → List Nat
  listing : (reads.map DirRead.dirent).Perm dirents
  perm : ∀ v, (sort v).Perm v

section
variable {dirents : List Dirent} (filename : CString) (enter : Enter dirents)

/-- What is read of the entries that are shown. -/
def Enter.shown : List DirRead := enter.reads.filter fun read => isShown filename read.dirent

/-- `sort_vector`, once it is sorted. -/
def Enter.sortVector : List Nat := enter.sort ((enter.shown filename).map DirRead.place)

/-- `fselect_completion`: what it returns, if it does not return NULL and `sort_vector` is just as
    long as there are pointers for it. Without `sort_vector` the entry is printed before the next
    one is read. -/
def completion (s : Fselect) : Option (List Byte) :=
  if enter.opened ∧ enter.copied then
    let chosen := (List.range s.nentry.toNat).find? fun i : Nat => (i : Int) = s.index
    if enter.allocated then
      if ((enter.shown filename).length : Int) = s.nentry then
        some ((chosen.bind fun i => ((enter.sortVector filename)[i]?.map enter.stored).map
          printname).getD [])
      else none
    else
      some (((if 0 ≤ s.index then (enter.shown filename)[s.index.toNat]? else none).map
        fun read => printname read.dirent.toDirentObject).getD [])
  else none

/-- What is printed is an entry that is shown. -/
def Existing (dirents : List Dirent) (text : List Byte) : Prop :=
  ∃ dirent ∈ dirents, isShown filename dirent ∧ text = printname dirent.toDirentObject

/-- Enter can open the directory and return a string, and where it sorts pointers, `sort_vector` has
    place for all of them, and each still points to an entry after the last call of `readdir`. -/
structure Enter.Kept : Prop where
  opened : enter.opened = true
  copied : enter.copied = true
  counted : enter.allocated = true → (enter.shown filename).length < 2 ^ 31
  stays : enter.allocated = true → ∀ read ∈ enter.shown filename,
    Existing filename dirents (printname (enter.stored read.place))

/-! ## The index and the columns -/

/-- There are columns, and the index is that of an entry, which is what Enter inserts. -/
structure Safe (s : Fselect) : Prop where
  ncolumn : 1 ≤ s.ncolumn
  nonneg : 0 ≤ s.index
  lt : s.index < s.nentry
  completes : ∃ text, completion filename enter s = some text ∧ Existing filename dirents text

end

/-- What the program begins with, and what is left of columns whenever they are computed. -/
def Columns (s : Fselect) : Prop := 1 ≤ s.ncolumn ∧ s.ncolumn < 2 ^ 16

/-- Where a key does not lead past the last entry, nor past the largest `int`. -/
def Within (s : Fselect) (press : Press) : Prop :=
  match press.key with
  | .right => 1 < s.ncolumn → s.index.tmod s.ncolumn < s.ncolumn - 1 → s.index + 1 < s.nentry
  | .down => s.index + s.ncolumn < 2 ^ 31
  | .rightmost => s.index.tdiv s.ncolumn * s.ncolumn + (s.ncolumn - 1) < 2 ^ 31
  | _ => True

/-- What no key changes, for a number of entries. -/
structure Shown (n : Nat) (s : Fselect) : Prop where
  columns : s.Columns
  nentry : s.nentry = wrapInt n
  maxlen : 1 ≤ s.maxlen

variable {s : Fselect} {n : Nat} {dirents : List Dirent} {filename : CString}
  {enter : Enter dirents}

theorem wrapInt_eq {x : Int} (low : -2 ^ 31 ≤ x) (high : x < 2 ^ 31) : wrapInt x = x := by
  unfold wrapInt
  omega

theorem wrapInt_lt (x : Int) : -2 ^ 31 ≤ wrapInt x ∧ wrapInt x < 2 ^ 31 := by
  unfold wrapInt
  omega

/-- What is kept of a count is not more than the count, and the count itself if that is small. -/
theorem wrapInt_ofNat (n : Nat) : wrapInt n ≤ n ∧ (wrapInt n = n ↔ n < 2 ^ 31) := by
  unfold wrapInt
  omega

theorem Shown.nentry_lt (shown : s.Shown n) : s.nentry < 2 ^ 31 :=
  shown.nentry ▸ (wrapInt_lt n).2

/-- A sum that is too large, but for less than 2^31, is negative. -/
theorem wrapInt_neg {x : Int} (low : 2 ^ 31 ≤ x) (high : x < 2 ^ 32) : wrapInt x < 0 := by
  unfold wrapInt
  omega

theorem lsCandidate_columns (columns : s.Columns) (maxlen : 1 ≤ s.maxlen) (opened : Bool)
    (wsCol : BitVec 16) : (lsCandidate opened wsCol s).Columns := by
  unfold lsCandidate
  split
  · have computed : 0 ≤ ((wsCol.toNat : Int) - 2).tdiv (s.maxlen + 2) ∧
        ((wsCol.toNat : Int) - 2).tdiv (s.maxlen + 2) < 2 ^ 16 := by
      have width := wsCol.isLt
      rcases Int.lt_or_le (wsCol.toNat : Int) 2 with narrow | wide
      · -- the quotient of a negative width is zero
        have none : (2 - (wsCol.toNat : Int)).tdiv (s.maxlen + 2) = 0 :=
          Int.tdiv_eq_zero_of_lt (by omega) (by omega)
        rw [← Int.neg_sub, Int.neg_tdiv, none]
        decide
      · have low := Int.tdiv_nonneg (show 0 ≤ (wsCol.toNat : Int) - 2 by omega)
          (show 0 ≤ s.maxlen + 2 by omega)
        have high := Int.tdiv_le_self (s.maxlen + 2) (show 0 ≤ (wsCol.toNat : Int) - 2 by omega)
        omega
    unfold Columns
    dsimp only
    split <;> omega
  · exact columns

/-- The index that a key sets is that of an entry exactly where the key is `Within`. -/
theorem index_iff (shown : s.Shown n) (nonneg : 0 ≤ s.index) (lt : s.index < s.nentry)
    (press : Press) :
    (0 ≤ press.key.index s ∧ press.key.index s < s.nentry) ↔ Within s press := by
  obtain ⟨one_le, small⟩ := shown.columns
  have nentry := shown.nentry_lt
  -- the place in the row, and the first index of it
  have whole := Int.tdiv_mul_add_tmod s.index s.ncolumn
  have place := Int.tmod_nonneg s.ncolumn nonneg
  have place_lt := Int.tmod_lt_of_pos s.index (show 0 < s.ncolumn by omega)
  have row : 0 ≤ s.index.tdiv s.ncolumn * s.ncolumn :=
    Int.mul_nonneg (Int.tdiv_nonneg nonneg (by omega)) (by omega)
  obtain ⟨key, opened, wsCol⟩ := press
  cases key with
  | left =>
      apply iff_of_true _ trivial
      change 0 ≤ keyfuncLeft s ∧ keyfuncLeft s < s.nentry
      unfold keyfuncLeft
      split
      · rw [wrapInt_eq (by omega) (by omega)]
        omega
      · exact ⟨nonneg, lt⟩
  | right =>
      change 0 ≤ keyfuncRight s ∧ keyfuncRight s < s.nentry ↔
        (1 < s.ncolumn → s.index.tmod s.ncolumn < s.ncolumn - 1 → s.index + 1 < s.nentry)
      unfold keyfuncRight
      split
      · rw [wrapInt_eq (by omega) (by omega)]
        omega
      · omega
  | up =>
      apply iff_of_true _ trivial
      change 0 ≤ keyfuncUp s ∧ keyfuncUp s < s.nentry
      unfold keyfuncUp
      rw [wrapInt_eq (by omega) (by omega)]
      split <;> omega
  | down =>
      change 0 ≤ keyfuncDown s ∧ keyfuncDown s < s.nentry ↔ s.index + s.ncolumn < 2 ^ 31
      unfold keyfuncDown
      rcases Int.lt_or_le (s.index + s.ncolumn) (2 ^ 31) with fits | large
      · rw [wrapInt_eq (by omega) fits]
        split <;> omega
      · have negative := wrapInt_neg large (by omega)
        rw [if_pos (by omega)]
        omega
  | leftmost =>
      apply iff_of_true _ trivial
      change 0 ≤ keyfuncLeftmost s ∧ keyfuncLeftmost s < s.nentry
      unfold keyfuncLeftmost
      rw [wrapInt_eq (by omega) (by omega)]
      omega
  | rightmost =>
      change 0 ≤ keyfuncRightmost s ∧ keyfuncRightmost s < s.nentry ↔
        s.index.tdiv s.ncolumn * s.ncolumn + (s.ncolumn - 1) < 2 ^ 31
      unfold keyfuncRightmost
      dsimp only
      rcases Int.lt_or_le (s.index.tdiv s.ncolumn * s.ncolumn + (s.ncolumn - 1)) (2 ^ 31)
        with fits | large
      · rw [wrapInt_eq (by omega) fits]
        split <;> omega
      · have negative := wrapInt_neg large (by omega)
        rw [if_neg (by omega)]
        omega
  | first =>
      apply iff_of_true _ trivial
      change (0 : Int) ≤ 0 ∧ 0 < s.nentry
      omega
  | last =>
      apply iff_of_true _ trivial
      change 0 ≤ keyfuncEnd s ∧ keyfuncEnd s < s.nentry
      unfold keyfuncEnd
      rw [wrapInt_eq (by omega) (by omega)]
      omega
  | other => exact iff_of_true ⟨nonneg, lt⟩ trivial

theorem lsCandidate_same (opened : Bool) (wsCol : BitVec 16) (s : Fselect) :
    (lsCandidate opened wsCol s).index = s.index ∧
      (lsCandidate opened wsCol s).nentry = s.nentry ∧
      (lsCandidate opened wsCol s).maxlen = s.maxlen := by
  unfold lsCandidate
  split <;> exact ⟨rfl, rfl, rfl⟩

/-- What printing the entries leaves. -/
theorem Shown.lsCandidate (shown : s.Shown n) (opened : Bool) (wsCol : BitVec 16) :
    (lsCandidate opened wsCol s).Shown n := by
  obtain ⟨-, nentry, maxlen⟩ := lsCandidate_same opened wsCol s
  exact ⟨lsCandidate_columns shown.columns shown.maxlen opened wsCol,
    nentry.trans shown.nentry, maxlen.symm ▸ shown.maxlen⟩

theorem Shown.step (shown : s.Shown n) (press : Press) {s' : Fselect}
    (taken : step s press = some s') : s'.Shown n := by
  cases taken
  apply Shown.lsCandidate
  exact ⟨shown.columns, shown.nentry, shown.maxlen⟩

/-! ## What Enter inserts -/

theorem Enter.length_sortVector (filename : CString) (enter : Enter dirents) :
    (enter.sortVector filename).length = (enter.shown filename).length := by
  rw [sortVector, (enter.perm _).length_eq, List.length_map]

/-- As many entries are read as are shown. -/
theorem Enter.length_shown (filename : CString) (enter : Enter dirents) :
    (enter.shown filename).length = (dirents.filter (isShown filename)).length := by
  have same := (enter.listing.filter (isShown filename)).length_eq
  rw [List.filter_map, List.length_map] at same
  exact same

/-- The loop stops at the index, if it is that of an entry. -/
theorem find?_index (nonneg : 0 ≤ s.index) (lt : s.index < s.nentry) :
    (List.range s.nentry.toNat).find? (fun i : Nat => (i : Int) = s.index) =
      some s.index.toNat := by
  rw [List.find?_range_eq_some]
  refine ⟨decide_eq_true (Int.toNat_of_nonneg nonneg), List.mem_range.mpr (by omega), ?_⟩
  intro j before
  have other : ¬(j : Int) = s.index := by omega
  simpa using other

/-- What an index that is that of an entry completes to, where the pointers are sorted. -/
theorem completion_sorted (opened : enter.opened = true) (copied : enter.copied = true)
    (allocated : enter.allocated = true)
    (counted : ((enter.shown filename).length : Int) = s.nentry) (nonneg : 0 ≤ s.index)
    (lt : s.index < s.nentry) :
    completion filename enter s = some (printname (enter.stored
      ((enter.sortVector filename).getD s.index.toNat 0))) := by
  have inside : s.index.toNat < (enter.sortVector filename).length := by
    rw [enter.length_sortVector]
    omega
  rw [completion, if_pos ⟨opened, copied⟩, if_pos allocated, if_pos counted]
  simp only [find?_index nonneg lt, Option.bind_some, List.getElem?_eq_getElem inside,
    List.getD_eq_getElem?_getD, Option.map_some, Option.getD_some]

theorem Enter.existing_of_shown {read : DirRead} (mem : read ∈ enter.shown filename) :
    Existing filename dirents (printname read.dirent.toDirentObject) := by
  obtain ⟨inside, shown⟩ := List.mem_filter.mp mem
  exact ⟨read.dirent, enter.listing.mem_iff.mp (List.mem_map_of_mem inside), shown, rfl⟩

/-- Where Enter can do its work, it inserts the entry at the index. -/
theorem Enter.Kept.completes (kept : enter.Kept filename)
    (counted : s.nentry = wrapInt (enter.shown filename).length) (nonneg : 0 ≤ s.index)
    (lt : s.index < s.nentry) :
    ∃ text, completion filename enter s = some text ∧ Existing filename dirents text := by
  cases allocated : enter.allocated with
  | true =>
      have exactly := (wrapInt_ofNat _).2.mpr (kept.counted allocated)
      refine ⟨_, completion_sorted kept.opened kept.copied allocated (by omega) nonneg lt, ?_⟩
      have inside : s.index.toNat < (enter.sortVector filename).length := by
        rw [enter.length_sortVector]
        omega
      have mem : (enter.sortVector filename).getD s.index.toNat 0 ∈ enter.sortVector filename := by
        rw [List.getD_eq_getElem _ _ inside]
        exact List.getElem_mem inside
      obtain ⟨read, shown, place⟩ := List.mem_map.mp ((enter.perm _).mem_iff.mp mem)
      rw [← place]
      exact kept.stays allocated read shown
  | false =>
      have most := (wrapInt_ofNat (enter.shown filename).length).1
      have inside : s.index.toNat < (enter.shown filename).length := by omega
      have unsorted : enter.allocated ≠ true := by
        rw [allocated]
        exact Bool.false_ne_true
      refine ⟨_, ?_, enter.existing_of_shown (List.getElem_mem inside)⟩
      rw [completion, if_pos ⟨kept.opened, kept.copied⟩, if_neg unsorted, if_pos nonneg,
        List.getElem?_eq_getElem inside]
      rfl

theorem Shown.safe_iff (shown : s.Shown (enter.shown filename).length)
    (kept : enter.Kept filename) :
    Safe filename enter s ↔ 0 ≤ s.index ∧ s.index < s.nentry := by
  constructor
  · intro safe
    exact ⟨safe.nonneg, safe.lt⟩
  · rintro ⟨nonneg, lt⟩
    exact ⟨shown.columns.1, nonneg, lt, kept.completes shown.nentry nonneg lt⟩

/-- One key. -/
theorem safe_step_iff (shown : s.Shown (enter.shown filename).length) (kept : enter.Kept filename)
    (safe : Safe filename enter s) (press : Press) {s' : Fselect} (taken : step s press = some s') :
    Safe filename enter s' ↔ Within s press := by
  rw [(shown.step press taken).safe_iff kept, ← index_iff shown safe.nonneg safe.lt press]
  cases taken
  obtain ⟨index, nentry, -⟩ :=
    lsCandidate_same press.opened press.wsCol { s with index := press.key.index s }
  rw [index, nentry]

/-! ## Runs -/

/-- The entries that are counted. -/
structure Counted (k : Nat) (s : Fselect) : Prop where
  nentry : s.nentry = wrapInt k
  nonneg : 0 ≤ s.maxlen
  maxlen : 0 < k → 1 ≤ s.maxlen

theorem Counted.countEntry {k : Nat} (counted : s.Counted k) (filename : CString)
    (dirent : Dirent) :
    (countEntry filename s dirent).Counted (k + if isShown filename dirent then 1 else 0) := by
  obtain ⟨nentry, nonneg, maxlen⟩ := counted
  unfold Fselect.countEntry
  split
  · have named : 0 < dirent.name.length := List.length_pos_iff.mpr dirent.named
    constructor
    · change wrapInt (s.nentry + 1) = wrapInt ((k + 1 : Nat) : Int)
      rw [nentry]
      unfold wrapInt
      omega
    · dsimp only
      split <;> omega
    · intro _
      dsimp only
      split <;> omega
  · exact ⟨nentry, nonneg, maxlen⟩

theorem Counted.foldl {k : Nat} (counted : s.Counted k) (filename : CString)
    (dirents : List Dirent) :
    (dirents.foldl (Fselect.countEntry filename) s).Counted
      (k + (dirents.filter (isShown filename)).length) := by
  induction dirents generalizing s k with
  | nil => exact counted
  | cons dirent dirents ih =>
      have rest := ih (counted.countEntry filename dirent)
      rw [List.foldl_cons]
      by_cases shown : isShown filename dirent = true
      · rw [List.filter_cons_of_pos shown, List.length_cons, Nat.add_comm _ 1, ← Nat.add_assoc]
        rwa [if_pos shown] at rest
      · rw [List.filter_cons_of_neg shown]
        rwa [if_neg shown] at rest

theorem foldl_countEntry_ncolumn (filename : CString) (dirents : List Dirent) (s : Fselect) :
    (dirents.foldl (countEntry filename) s).ncolumn = s.ncolumn := by
  induction dirents generalizing s with
  | nil => rfl
  | cons dirent dirents ih =>
      rw [List.foldl_cons, ih, countEntry]
      split <;> rfl

/-- What the selector starts with. -/
theorem keyfuncStart_shown (filename : CString) (dirents : List Dirent) (columns : s.Columns)
    (opened : Bool) (wsCol : BitVec 16)
    (some_entry : 1 ≤ (keyfuncStart filename dirents opened wsCol s).nentry) :
    (keyfuncStart filename dirents opened wsCol s).Shown
        (dirents.filter (isShown filename)).length ∧
      (keyfuncStart filename dirents opened wsCol s).index = 0 := by
  have begins : Counted 0 { s with maxlen := 0, nentry := 0 } :=
    ⟨rfl, Int.le_refl 0, fun none_ => absurd none_ (Nat.lt_irrefl 0)⟩
  have counted := begins.foldl filename dirents
  have ncolumn := foldl_countEntry_ncolumn filename dirents { s with maxlen := 0, nentry := 0 }
  rw [Nat.zero_add] at counted
  unfold keyfuncStart at some_entry ⊢
  dsimp only at some_entry ⊢
  generalize dirents.foldl (countEntry filename) { s with maxlen := 0, nentry := 0 } = counts
    at counted ncolumn some_entry ⊢
  obtain ⟨index, nentry, -⟩ := lsCandidate_same opened wsCol { counts with index := 0 }
  refine ⟨Shown.lsCandidate ?_ opened wsCol, index⟩
  have some_counted : 1 ≤ counts.nentry := some_entry.trans_eq nentry
  have entries := (wrapInt_ofNat (dirents.filter (isShown filename)).length).1
  have count := counted.nentry
  refine ⟨?_, count, counted.maxlen (by omega)⟩
  rw [Columns]
  dsimp only
  rw [ncolumn]
  exact columns

/-! ## Every entry is reached -/

/-- Keys in a window without columns: something else, and then down. -/
def downTo (i : Nat) : List Press := ⟨.other, true, 0⟩ :: List.replicate i ⟨.down, true, 0⟩

/-- Without columns the entries are printed one below the other. -/
theorem lsCandidate_narrow (shown : s.Shown n) : (lsCandidate true 0 s).ncolumn = 1 := by
  have none_ : (2 : Int).tdiv (s.maxlen + 2) = 0 :=
    Int.tdiv_eq_zero_of_lt (by decide) (by have := shown.maxlen; omega)
  have quotient : (((0 : BitVec 16).toNat : Int) - 2).tdiv (s.maxlen + 2) = 0 := by
    change (-2 : Int).tdiv (s.maxlen + 2) = 0
    rw [Int.neg_tdiv, none_]
    rfl
  rw [lsCandidate, if_pos rfl, quotient]
  rfl

theorem downs (shown : s.Shown n) (narrow : s.ncolumn = 1) (nonneg : 0 ≤ s.index) (i : Nat)
    (inside : s.index + i < s.nentry) :
    EachStep step Within s (List.replicate i ⟨.down, true, 0⟩) ∧
      ∃ s', (List.replicate i ⟨.down, true, 0⟩).foldlM step s = some s' ∧ s'.Shown n ∧
        s'.index = s.index + i := by
  induction i generalizing s with
  | zero => exact ⟨trivial, s, rfl, shown, (Int.add_zero _).symm⟩
  | succ i ih =>
      have small := shown.nentry_lt
      have moved : keyfuncDown s = s.index + 1 := by
        rw [keyfuncDown, narrow, wrapInt_eq (by omega) (by omega), if_pos (by omega)]
      have taken : step s ⟨.down, true, 0⟩ =
          some (lsCandidate true 0 { s with index := s.index + 1 }) := by
        rw [step, Key.index, moved]
      have placed : Shown n { s with index := s.index + 1 } :=
        ⟨shown.columns, shown.nentry, shown.maxlen⟩
      obtain ⟨index, nentry, -⟩ := lsCandidate_same true 0 { s with index := s.index + 1 }
      obtain ⟨within, s', run, shown', there⟩ := ih (placed.lsCandidate true 0)
        (lsCandidate_narrow placed) (by rw [index]; dsimp only; omega)
        (by rw [index, nentry]; dsimp only; omega)
      rw [List.replicate_succ]
      refine ⟨?_, s', ?_, shown', ?_⟩
      · intro next step_
        rw [taken] at step_
        cases step_
        refine ⟨?_, within⟩
        change s.index + s.ncolumn < 2 ^ 31
        omega
      · rw [List.foldlM_cons, taken]
        exact run
      · rw [there, index]
        dsimp only
        omega

theorem downTo_reaches (shown : s.Shown n) (first : s.index = 0) {i : Nat} (inside : i < s.nentry) :
    EachStep step Within s (downTo i) ∧
      ∃ s', (downTo i).foldlM step s = some s' ∧ s'.Shown n ∧ s'.index = i := by
  have taken : step s ⟨.other, true, 0⟩ = some (lsCandidate true 0 s) := rfl
  obtain ⟨index, nentry, -⟩ := lsCandidate_same true 0 s
  obtain ⟨within, s', run, shown', there⟩ := downs (shown.lsCandidate true 0)
    (lsCandidate_narrow shown) (by omega) i (by omega)
  refine ⟨?_, s', ?_, shown', by omega⟩
  · intro next step_
    rw [taken] at step_
    cases step_
    exact ⟨trivial, within⟩
  · rw [downTo, List.foldlM_cons, taken]
    exact run

/-- Where every run of such keys is safe, Enter can do its work. -/
theorem Enter.kept_of_runs (shown : s.Shown (enter.shown filename).length) (first : s.index = 0)
    (safe : ∀ presses, EachStep step Within s presses →
      Throughout step (Safe filename enter) s presses) : enter.Kept filename := by
  obtain ⟨text, here, -⟩ := (safe [] trivial).completes
  have works : enter.opened = true ∧ enter.copied = true := by
    by_contra fails
    rw [completion, if_neg fails] at here
    cases here
  have counted : enter.allocated = true → ((enter.shown filename).length : Int) = s.nentry := by
    intro allocated
    by_contra other
    rw [completion, if_pos works, if_pos allocated, if_neg other] at here
    cases here
  refine ⟨works.1, works.2, fun allocated => ?_, fun allocated read mem => ?_⟩
  · exact (wrapInt_ofNat _).2.mp (shown.nentry.symm.trans (counted allocated).symm)
  · have sorted : read.place ∈ enter.sortVector filename :=
      (enter.perm _).mem_iff.mpr (List.mem_map_of_mem mem)
    obtain ⟨i, inside, place⟩ := List.getElem_of_mem sorted
    have below : (i : Int) < s.nentry := by
      rw [enter.length_sortVector] at inside
      have exactly := counted allocated
      omega
    obtain ⟨within, s', run, shown', there⟩ := downTo_reaches shown first below
    have same : s'.nentry = s.nentry := shown'.nentry.trans shown.nentry.symm
    obtain ⟨text, inserted, existing⟩ := ((safe _ within).last run).completes
    rw [completion_sorted works.1 works.2 allocated ((counted allocated).trans same.symm)
      (by omega) (by omega), there, Int.toNat_natCast, List.getD_eq_getElem _ _ inside, place,
      Option.some_inj] at inserted
    rw [inserted]
    exact existing

/-- From the start of the selector on, and if Enter can do its work, the index is that of an entry
    that Enter inserts in every state exactly where no key leads past the last entry, nor past the
    largest `int`. If it cannot, not every run of such keys is one of such states. -/
theorem selector_safe_iff (filename : CString) {dirents : List Dirent} (enter : Enter dirents)
    (s : Fselect) (columns : s.Columns) (opened : Bool) (wsCol : BitVec 16)
    (some_entry : 1 ≤ (keyfuncStart filename dirents opened wsCol s).nentry) :
    (enter.Kept filename → ∀ presses,
      (Throughout step (Safe filename enter) (keyfuncStart filename dirents opened wsCol s)
          presses ↔
        EachStep step Within (keyfuncStart filename dirents opened wsCol s) presses)) ∧
    ((∀ presses, EachStep step Within (keyfuncStart filename dirents opened wsCol s) presses →
      Throughout step (Safe filename enter) (keyfuncStart filename dirents opened wsCol s)
        presses) → enter.Kept filename) := by
  obtain ⟨shown, index⟩ := keyfuncStart_shown filename dirents columns opened wsCol some_entry
  rw [← enter.length_shown] at shown
  refine ⟨fun kept presses => ?_, enter.kept_of_runs shown index⟩
  have safe : Safe filename enter (keyfuncStart filename dirents opened wsCol s) := by
    rw [shown.safe_iff kept, index]
    omega
  have base : ∀ s press s', Shown (enter.shown filename).length s → step s press = some s' →
      s'.Shown (enter.shown filename).length := fun s press s' shown taken => shown.step press taken
  have keeps : ∀ s press s', Shown (enter.shown filename).length s → Safe filename enter s →
      step s press = some s' → (Safe filename enter s' ↔ Within s press) :=
    fun s press s' shown safe taken => safe_step_iff shown kept safe press taken
  exact throughout_iff_eachStep base keeps presses _ shown safe

/-- A directory with the files `a`, `b` and `c`. -/
def threeFiles : List Dirent :=
  [⟨⟨.ofOctets (litString "a"), false⟩, by decide, by decide⟩,
    ⟨⟨.ofOctets (litString "b"), false⟩, by decide, by decide⟩,
    ⟨⟨.ofOctets (litString "c"), false⟩, by decide, by decide⟩]

/-- Each entry has its own storage; so it does in the buffer of a single `getdents`. -/
def enterThree : Enter threeFiles where
  opened := true
  allocated := true
  copied := true
  reads := [⟨0, threeFiles[0]⟩, ⟨32, threeFiles[1]⟩, ⟨64, threeFiles[2]⟩]
  stored := fun place => (threeFiles.getD (place / 32) threeFiles[0]).toDirentObject
  sort := id
  listing := .refl _
  perm := .refl

theorem enterThree_kept : enterThree.Kept .empty where
  opened := rfl
  copied := rfl
  counted := by decide
  stays := by
    intro _ read mem
    have all : ∀ read ∈ enterThree.reads,
        enterThree.stored read.place = read.dirent.toDirentObject := by
      simp [enterThree, threeFiles]
    rw [all read ((List.mem_filter.mp mem).1)]
    exact Enter.existing_of_shown mem

/-- In a window of eight columns there are two entries in a row: down, and up again. -/
theorem selector_safe_iff_three :
    Throughout step (Safe .empty enterThree) (keyfuncStart .empty threeFiles true 8 initial)
        [⟨.right, true, 8⟩, ⟨.left, true, 8⟩, ⟨.down, true, 8⟩, ⟨.up, true, 8⟩] ↔
      EachStep step Within (keyfuncStart .empty threeFiles true 8 initial)
        [⟨.right, true, 8⟩, ⟨.left, true, 8⟩, ⟨.down, true, 8⟩, ⟨.up, true, 8⟩] :=
  (selector_safe_iff .empty enterThree initial ⟨by decide, by decide⟩ true 8 (by decide)).1
    enterThree_kept _

/-- Down and right lead past the last of three entries: Enter then inserts nothing. -/
theorem selector_safe_not : ∃ s,
    [⟨.down, true, 8⟩, ⟨.right, true, 8⟩].foldlM step
        (keyfuncStart .empty threeFiles true 8 initial) = some s ∧
      s.index = 3 ∧ s.nentry = 3 ∧ completion .empty enterThree s = some [] ∧
      ¬Safe .empty enterThree s := by
  refine ⟨_, rfl, by decide, by decide, by decide, ?_⟩
  intro safe
  exact absurd safe.lt (by decide)

end Fselect

end Sdplane
