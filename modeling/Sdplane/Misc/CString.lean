import Sdplane.Misc.ByteMem
import Mathlib.Data.List.TakeWhile

/-!
# C strings

A C string is known by its octets, none of which is NUL. `cString` reads one out of a buffer,
`tokens` is what successive calls of `strsep` return.
-/

namespace Sdplane

/-- A character of a source literal. -/
def charByte (c : Char) : Byte := BitVec.ofNat 8 c.toNat

/-- A string literal of the source. -/
def litString (s : String) : List Byte := s.toList.map charByte

/-- The octets of a C string, without the terminating NUL. -/
structure CString where
  octets : List Byte
  noNul : 0 ∉ octets

namespace CString

/-- `strlen`. -/
def length (s : CString) : Nat := s.octets.length

/-- The string that ends at the first NUL. -/
def ofOctets (bs : List Byte) : CString where
  octets := bs.takeWhile (· ≠ 0)
  noNul := by
    intro nul
    simpa using List.mem_takeWhile_imp nul

theorem octets_ofOctets (bs : List Byte) : (ofOctets bs).octets = bs.takeWhile (· ≠ 0) := rfl

def empty : CString := ⟨[], List.not_mem_nil⟩

@[simp] theorem octets_empty : empty.octets = [] := rfl

@[simp] theorem ofOctets_octets (s : CString) : ofOctets s.octets = s := by
  obtain ⟨bs, noNul⟩ := s
  unfold ofOctets
  congr 1
  exact List.takeWhile_eq_self_iff.mpr fun b hb => decide_eq_true fun nul => noNul (nul ▸ hb)

/-- Nothing behind the NUL counts. -/
theorem ofOctets_append_nul {bs : List Byte} (h : 0 ∉ bs) (rest : List Byte) :
    (ofOctets (bs ++ 0 :: rest)).octets = bs := by
  rw [octets_ofOctets, List.takeWhile_append_of_pos]
  · simp
  · intro b hb
    exact decide_eq_true fun nul => h (nul ▸ hb)

end CString

namespace ByteMem

/-- The string at `p`, in a buffer of `size` octets. -/
def cString (m : ByteMem) (size p : Nat) : CString := .ofOctets (m.read p (size - p))

/-- The string at `p` ends where a NUL follows `n` other octets. -/
theorem cString_octets {m : ByteMem} {size p n : Nat} (inside : p + n < size)
    (nul : m (p + n) = 0) (others : 0 ∉ m.read p n) : (m.cString size p).octets = m.read p n := by
  have split : size - p = n + (1 + (size - p - n - 1)) := by omega
  rw [cString, split, read_add, read_add]
  have here : m.read (p + n) 1 = [0] := by simp [read, nul]
  rw [here]
  exact CString.ofOctets_append_nul others _

end ByteMem

/-- The tokens of successive calls of `strsep`, empty ones included. -/
def strsepTokens (delim : List Byte) (s : List Byte) : List (List Byte) :=
  s.splitOnP (delim.contains ·)

theorem strsepTokens_ne_nil (delim s : List Byte) : strsepTokens delim s ≠ [] :=
  List.splitOnP_ne_nil _ s

/-- A token is made of octets of the string that are no delimiters. -/
theorem mem_of_mem_strsepTokens {delim s t : List Byte} {b : Byte} (ht : t ∈ strsepTokens delim s)
    (hb : b ∈ t) : b ∈ s ∧ b ∉ delim := by
  induction s generalizing t with
  | nil =>
      obtain rfl : t = [] := by simpa [strsepTokens] using ht
      exact absurd hb List.not_mem_nil
  | cons c s ih =>
      rw [strsepTokens, List.splitOnP_cons_eq_if_modifyHead] at ht
      by_cases sep : delim.contains c
      · rw [if_pos sep] at ht
        rcases List.mem_cons.mp ht with rfl | ht
        · exact absurd hb List.not_mem_nil
        · exact (ih ht hb).imp_left (List.mem_cons_of_mem c)
      · rw [if_neg sep] at ht
        change t ∈ (strsepTokens delim s).modifyHead (List.cons c) at ht
        cases tokens : strsepTokens delim s with
        | nil => exact absurd tokens (strsepTokens_ne_nil delim s)
        | cons u us =>
            rw [tokens] at ht ih
            rcases List.mem_cons.mp ht with rfl | ht
            · rcases List.mem_cons.mp hb with rfl | hb
              · exact ⟨List.mem_cons_self, fun mem => sep (List.contains_iff_mem.mpr mem)⟩
              · exact (ih List.mem_cons_self hb).imp_left (List.mem_cons_of_mem c)
            · exact (ih (List.mem_cons_of_mem u ht) hb).imp_left (List.mem_cons_of_mem c)

/-- With one delimiter behind each token but the last, the tokens fill the string. -/
theorem sum_length_strsepTokens (delim s : List Byte) :
    ((strsepTokens delim s).map fun t => t.length + 1).sum = s.length + 1 := by
  induction s with
  | nil => simp [strsepTokens]
  | cons b s ih =>
      rw [strsepTokens, List.splitOnP_cons_eq_if_modifyHead]
      by_cases sep : delim.contains b
      · rw [if_pos sep, List.map_cons, List.sum_cons]
        change 0 + 1 + ((strsepTokens delim s).map fun t => t.length + 1).sum = _
        rw [ih, List.length_cons]
        omega
      · rw [if_neg sep]
        change (((strsepTokens delim s).modifyHead (List.cons b)).map
          fun t => t.length + 1).sum = _
        cases tokens : strsepTokens delim s with
        | nil => exact absurd tokens (strsepTokens_ne_nil delim s)
        | cons t ts =>
            rw [tokens] at ih
            simp only [List.modifyHead_cons, List.map_cons, List.sum_cons, List.length_cons] at ih ⊢
            omega

/-- `strsep` with one delimiter. -/
theorem strsepTokens_singleton (d : Byte) (s : List Byte) : strsepTokens [d] s = s.splitOn d := by
  rw [strsepTokens, List.splitOn_eq_splitOnP]
  congr 1
  funext b
  rw [List.contains_cons, List.contains_nil, Bool.or_false]

/-- Words without the delimiter are the tokens of what they are joined to. -/
theorem strsepTokens_intercalate {d : Byte} {ws : List (List Byte)} (whole : ∀ w ∈ ws, d ∉ w)
    (someWord : ws ≠ []) : strsepTokens [d] ([d].intercalate ws) = ws := by
  rw [strsepTokens_singleton]
  exact List.splitOn_intercalate d whole someWord

theorem intercalate_strsepTokens (d : Byte) (s : List Byte) :
    [d].intercalate (strsepTokens [d] s) = s := by
  rw [strsepTokens_singleton]
  exact List.intercalate_splitOn d

/-- `strstr`: the string from the first occurrence of the word on. -/
def strstr (word : List Byte) : List Byte → Option (List Byte)
  | [] => if word = [] then some [] else none
  | b :: s => if word.isPrefixOf (b :: s) then some (b :: s) else strstr word s

end Sdplane
