import Mathlib.Data.BitVec
import Sdplane.Misc.CString

/-!
# Formatting piece by piece

A formatter that appends one text after another to a buffer with `snprintf`. The place goes on
by the length a text has, also where it was truncated; the size given to the next call is what
is left then, as a `size_t`. A call is inside where it starts in the buffer and its size is not
more than the room behind.
-/

namespace Sdplane

/-- A call of `snprintf`: where it starts, its size, and the text of its format. -/
structure Snprintf where
  start : Int
  size : BitVec 64
  text : List Byte

namespace Snprintf

/-- What `snprintf` returns: the length of the text, or -1 where this is no `int`. -/
def ret (text : List Byte) : Int := if text.length < 2 ^ 31 then text.length else -1

/-- The calls that append the texts from `p` on; `left` is the size given at a place. -/
def calls (left : Int → BitVec 64) : Int → List (List Byte) → List Snprintf
  | _, [] => []
  | p, text :: texts => ⟨p, left p, text⟩ :: calls left (p + ret text) texts

/-- The call stays in a buffer of `n` octets. -/
def Inside (n : Nat) (call : Snprintf) : Prop :=
  0 ≤ call.start ∧ call.start < n ∧ call.start + call.size.toNat ≤ n

instance (n : Nat) (call : Snprintf) : Decidable (call.Inside n) :=
  inferInstanceAs (Decidable (_ ∧ _))

/-- The buffer after the call, if it stays inside. -/
def exec (n : Nat) (m : ByteMem) (call : Snprintf) : Option ByteMem :=
  if call.Inside n then
    some (if call.size = 0 then m
      else m.write call.start.toNat (call.text.take (call.size.toNat - 1) ++ [0]))
  else none

def run (n : Nat) (calls : List Snprintf) (m : ByteMem) : Option ByteMem :=
  calls.foldlM (exec n) m

/-- How far the texts bring the place. -/
def advance (texts : List (List Byte)) : Int := (texts.map ret).sum

variable {n : Nat} {left : Int → BitVec 64}

@[simp] theorem advance_nil : advance [] = 0 := rfl

@[simp] theorem advance_cons (text : List Byte) (texts : List (List Byte)) :
    advance (text :: texts) = ret text + advance texts := rfl

theorem advance_of_short {texts : List (List Byte)} (short : ∀ text ∈ texts, text.length < 2 ^ 31) :
    advance texts = texts.flatten.length := by
  induction texts with
  | nil => rfl
  | cons text texts ih =>
      rw [List.forall_mem_cons] at short
      rw [advance_cons, ih short.2, ret, if_pos short.1, List.flatten_cons, List.length_append]
      exact (Nat.cast_add _ _).symm

theorem run_isSome_iff (calls : List Snprintf) (m : ByteMem) :
    (run n calls m).isSome = true ↔ ∀ call ∈ calls, call.Inside n := by
  induction calls generalizing m with
  | nil => simp [run]
  | cons call calls ih =>
      rw [run, List.foldlM_cons, exec, List.forall_mem_cons]
      by_cases inside : call.Inside n
      · rw [if_pos inside, and_iff_right inside]
        exact ih _
      · rw [if_neg inside]
        simp [inside]

/-- Nothing behind the buffer is written. -/
theorem run_outside {calls : List Snprintf} {m m' : ByteMem} (done : run n calls m = some m')
    {i : Nat} (outside : n ≤ i) : m' i = m i := by
  induction calls generalizing m with
  | nil =>
      cases done
      rfl
  | cons call calls ih =>
      rw [run, List.foldlM_cons, exec] at done
      by_cases inside : call.Inside n
      · rw [if_pos inside] at done
        rw [ih done]
        by_cases nothing : call.size = 0
        · rw [if_pos nothing]
        · have some_size : call.size.toNat ≠ 0 := fun zero => nothing (BitVec.eq_of_toNat_eq zero)
          have room := inside.2.2
          have start := inside.1
          rw [if_neg nothing]
          apply ByteMem.write_of_ge
          rw [List.length_append, List.length_take, List.length_singleton]
          omega
      · rw [if_neg inside] at done
        cases done

/-- Where the size is never more than the room, the calls stay inside exactly if all of them
    start inside. -/
theorem calls_inside_iff (honest : ∀ q : Int, 0 ≤ q → q < n → q + (left q).toNat ≤ n)
    (texts : List (List Byte)) (p : Int) :
    (∀ call ∈ calls left p texts, call.Inside n) ↔
      ∀ k < texts.length, 0 ≤ p + advance (texts.take k) ∧ p + advance (texts.take k) < n := by
  induction texts generalizing p with
  | nil => simp [calls]
  | cons text texts ih =>
      have here : Inside n ⟨p, left p, text⟩ ↔ 0 ≤ p ∧ p < n :=
        ⟨fun inside => ⟨inside.1, inside.2.1⟩,
          fun start => ⟨start.1, start.2, honest p start.1 start.2⟩⟩
      rw [calls, List.forall_mem_cons, here, ih]
      constructor
      · intro ⟨first, rest⟩ k hk
        cases k with
        | zero => simpa using first
        | succ k =>
            have later := rest k (by simpa using hk)
            rw [List.take_succ_cons, advance_cons, ← add_assoc]
            exact later
      · intro all
        refine ⟨by simpa using all 0 (by simp), ?_⟩
        intro k hk
        have later := all (k + 1) (by simpa using hk)
        rw [List.take_succ_cons, advance_cons, ← add_assoc] at later
        exact later

/-- The texts but the last one are those that have to fit. -/
theorem calls_inside_iff_of_short
    (honest : ∀ q : Int, 0 ≤ q → q < n → q + (left q).toNat ≤ n) {texts : List (List Byte)}
    (short : ∀ text ∈ texts, text.length < 2 ^ 31) (last : List Byte) :
    (∀ call ∈ calls left 0 (texts ++ [last]), call.Inside n) ↔ texts.flatten.length < n := by
  rw [calls_inside_iff honest]
  have start : ∀ k < (texts ++ [last]).length,
      advance ((texts ++ [last]).take k) = ((texts.take k).flatten.length : Int) := by
    intro k hk
    rw [List.length_append, List.length_singleton] at hk
    rw [List.take_append_of_le_length (by omega)]
    exact advance_of_short fun text mem => short text (List.mem_of_mem_take mem)
  constructor
  · intro all
    have at_last := (all texts.length (by simp)).2
    rw [start _ (by simp), List.take_length] at at_last
    omega
  · intro fits k hk
    have more : (texts.take k).flatten.length ≤ texts.flatten.length := by
      conv_rhs => rw [← List.take_append_drop k texts]
      rw [List.flatten_append, List.length_append]
      exact Nat.le_add_right _ _
    rw [start k hk]
    omega

/-- A text that is put behind another one, and the NUL behind both. -/
theorem read_append {m : ByteMem} {before : List Byte} (held : m.read 0 before.length = before)
    (text : List Byte) :
    (m.write before.length (text ++ [0])).read 0 (before.length + text.length) = before ++ text ∧
      m.write before.length (text ++ [0]) (before.length + text.length) = 0 := by
  have whole := m.read_write_same before.length (text ++ [0])
  rw [List.length_append, List.length_singleton, ByteMem.read_add] at whole
  obtain ⟨first, last⟩ := List.append_inj whole (by simp)
  constructor
  · rw [ByteMem.read_add, Nat.zero_add, first, ByteMem.read_write_disjoint, held]
    left
    rw [Nat.zero_add]
  · simpa [ByteMem.read] using last

/-- The string in a buffer where a NUL follows. -/
theorem cString_of_read {m : ByteMem} {text : List Byte} (inside : text.length < n)
    (held : m.read 0 text.length = text) (nul : m text.length = 0) (noNul : 0 ∉ text) :
    (m.cString n 0).octets = text := by
  rw [ByteMem.cString_octets (n := text.length) (by omega), held]
  · rw [Nat.zero_add, nul]
  · rwa [held]

/-- What is left in the buffer: the texts, as far as there is room for a NUL behind. -/
theorem run_text {texts : List (List Byte)} (before : List Byte) {m m' : ByteMem}
    (size : ∀ q : Nat, q < n → (left q).toNat = n - q)
    (short : ∀ text ∈ texts, text.length < 2 ^ 31) (noNul : 0 ∉ before ++ texts.flatten)
    (room : before.length < n) (held : m.read 0 before.length = before)
    (nul : texts = [] → m before.length = 0)
    (done : run n (calls left before.length texts) m = some m') :
    (m'.cString n 0).octets = (before ++ texts.flatten).take (n - 1) := by
  induction texts generalizing before m with
  | nil =>
      cases done
      rw [List.flatten_nil, List.append_nil] at noNul ⊢
      rw [List.take_of_length_le (by omega)]
      exact cString_of_read room held (nul rfl) noNul
  | cons text texts ih =>
      rw [List.forall_mem_cons] at short
      rw [List.flatten_cons, ← List.append_assoc] at noNul ⊢
      have given := size before.length room
      have some_size : left before.length ≠ 0 := by
        intro zero
        rw [zero] at given
        simp at given
        omega
      have inside : Inside n ⟨before.length, left before.length, text⟩ := by
        refine ⟨Int.natCast_nonneg _, Int.ofNat_lt.mpr room, ?_⟩
        dsimp only
        rw [given]
        omega
      rw [calls, run, List.foldlM_cons, exec, if_pos inside, if_neg some_size] at done
      simp only [given, Int.toNat_natCast, Option.bind_eq_bind, Option.bind_some] at done
      rw [ret, if_pos short.1, ← Nat.cast_add] at done
      by_cases fits : text.length ≤ n - before.length - 1
      · obtain ⟨held', nul'⟩ := read_append held text
        rw [List.take_of_length_le fits] at done
        rw [← List.length_append] at held' nul' done
        exact ih _ short.2 noNul (by rw [List.length_append]; omega) held' (fun _ => nul') done
      · -- a text that was truncated is the last one
        cases texts with
        | nil =>
            cases done
            have cut := read_append held (text.take (n - before.length - 1))
            have length : (before ++ text.take (n - before.length - 1)).length = n - 1 := by
              rw [List.length_append, List.length_take]
              omega
            rw [← List.length_append] at cut
            have whole : (before ++ text ++ [].flatten).take (n - 1) =
                before ++ text.take (n - before.length - 1) := by
              rw [List.flatten_nil, List.append_nil, List.take_append,
                List.take_of_length_le (by omega)]
              congr 2
              omega
            rw [whole]
            refine cString_of_read (by omega) cut.1 cut.2 fun nul => noNul ?_
            rcases List.mem_append.mp nul with mem | mem
            · exact List.mem_append_left _ (List.mem_append_left _ mem)
            · exact List.mem_append_left _ (List.mem_append_right _ (List.mem_of_mem_take mem))
        | cons next texts =>
            have outside : ¬Inside n ⟨(before.length + text.length : Nat),
                left (before.length + text.length : Nat), next⟩ := by
              intro inside
              have start := inside.2.1
              dsimp only at start
              omega
            rw [calls, List.foldlM_cons, exec, if_neg outside] at done
            cases done

/-! ## Texts that are started -/

/-- The size that is left of `n` octets, an `int`, as a `size_t`. -/
def roomLeft (n : Nat) (p : Int) : BitVec 64 := (BitVec.ofInt 32 (n - p)).signExtend 64

theorem toNat_roomLeft (small : n < 2 ^ 31) {q : Nat} (inside : q < n) :
    (roomLeft n q).toNat = n - q := by
  have word : BitVec.ofInt 32 ((n : Int) - q) = BitVec.ofNat 32 (n - q) := by
    rw [← BitVec.ofInt_natCast]
    congr 1
    omega
  have value : (BitVec.ofNat 32 (n - q)).toNat = n - q := by
    rw [BitVec.toNat_ofNat]
    omega
  have positive : (BitVec.ofNat 32 (n - q)).msb = false := by
    rw [BitVec.msb_eq_false_iff_two_mul_lt, value]
    omega
  rw [roomLeft, word, BitVec.toNat_signExtend, positive, if_neg Bool.false_ne_true, Nat.add_zero,
    BitVec.toNat_setWidth, value]
  omega

/-- The texts whose places, one behind the other from `p` on, are in a buffer of `n` octets. -/
def started (n : Nat) : Nat → List (List Byte) → List (List Byte)
  | _, [] => []
  | p, text :: texts => if p < n then text :: started n (p + text.length) texts else []

theorem mem_of_mem_started {p : Nat} {text : List Byte} {texts : List (List Byte)}
    (mem : text ∈ started n p texts) : text ∈ texts := by
  induction texts generalizing p with
  | nil => exact mem
  | cons first texts ih =>
      rw [started] at mem
      split at mem
      · rcases List.mem_cons.mp mem with rfl | mem
        · exact List.mem_cons_self
        · exact List.mem_cons_of_mem _ (ih mem)
      · cases mem

/-- As far as the buffer goes, these are all texts. -/
theorem take_flatten_started (n p : Nat) (texts : List (List Byte)) :
    (started n p texts).flatten.take (n - p) = texts.flatten.take (n - p) := by
  induction texts generalizing p with
  | nil => rfl
  | cons text texts ih =>
      rw [started]
      split
      · rw [List.flatten_cons, List.flatten_cons, List.take_append, List.take_append,
          Nat.sub_sub, ih]
      · next full =>
          rw [Nat.sub_eq_zero_of_le (Nat.not_lt.mp full), List.take_zero, List.take_zero]

theorem started_inside (honest : ∀ q < n, (left (q : Nat)).toNat = n - q)
    {texts : List (List Byte)} (short : ∀ text ∈ texts, text.length < 2 ^ 31) (p : Nat) :
    ∀ call ∈ calls left p (started n p texts), call.Inside n := by
  induction texts generalizing p with
  | nil => simp [started, calls]
  | cons text texts ih =>
      rw [List.forall_mem_cons] at short
      rw [started]
      split
      · next room =>
          rw [calls, List.forall_mem_cons, ret, if_pos short.1, ← Nat.cast_add]
          refine ⟨⟨Int.natCast_nonneg p, Int.ofNat_lt.mpr room, ?_⟩, ih short.2 _⟩
          dsimp only
          rw [honest p room]
          omega
      · simp [calls]

end Snprintf

end Sdplane
