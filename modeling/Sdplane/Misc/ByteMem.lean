import Mathlib.Data.Nat.ModEq
import Mathlib.Tactic.Ring

/-!
# Byte-addressed buffers

A buffer is a total map from offsets to octets: what lies outside an allocation is
whatever memory happens to be there. `write` is `memcpy` of a known byte list, `read`
the bytes from an offset on. `toLe`/`ofLe` are the little-endian encodings of a machine
word, `byteSwap` reverses the octets of one. Nothing here depends on a packet format.
-/

namespace Sdplane

/-- One octet. -/
abbrev Byte := BitVec 8

/-- A buffer, by offset. -/
abbrev ByteMem := Nat → Byte

namespace ByteMem

/-- The buffer after the bytes `bs` were copied to offset `p`. -/
def write (m : ByteMem) (p : Nat) (bs : List Byte) : ByteMem :=
  fun i => if p ≤ i then (bs[i - p]?).getD (m i) else m i

/-- The `n` bytes from offset `p` on. -/
def read (m : ByteMem) (p n : Nat) : List Byte :=
  (List.range n).map fun k => m (p + k)

/-- A buffer that starts with `bs`. -/
def ofList (bs : List Byte) : ByteMem := fun i => bs.getD i 0

variable (m : ByteMem) (p q n : Nat) (bs : List Byte)

@[simp] theorem length_read : (m.read p n).length = n := by
  simp [read]

@[simp] theorem getElem_read (k : Nat) (h : k < (m.read p n).length) :
    (m.read p n)[k] = m (p + k) := by
  simp [read]

theorem read_add (k : Nat) : m.read p (n + k) = m.read p n ++ m.read (p + n) k := by
  simp [read, List.range_add, Nat.add_assoc, Function.comp_def]

theorem drop_read (k : Nat) : (m.read p n).drop k = m.read (p + k) (n - k) := by
  apply List.ext_getElem
  · simp
  · intro i h1 h2
    simp [Nat.add_assoc]

theorem take_read {k : Nat} (h : k ≤ n) : (m.read p n).take k = m.read p k := by
  obtain ⟨j, rfl⟩ := Nat.exists_eq_add_of_le h
  rw [read_add, List.take_left' (length_read m p k)]

theorem read_congr {m m' : ByteMem} {p n : Nat} (h : ∀ k < n, m (p + k) = m' (p + k)) :
    m.read p n = m'.read p n := by
  simp only [read, List.map_inj_left, List.mem_range]
  exact h

theorem write_of_lt {i : Nat} (h : i < p) : m.write p bs i = m i := by
  simp [write, Nat.not_le.mpr h]

theorem write_of_ge {i : Nat} (h : p + bs.length ≤ i) : m.write p bs i = m i := by
  have out : bs[i - p]? = none := List.getElem?_eq_none_iff.mpr (by omega)
  simp [write, out]

theorem write_at {k : Nat} (h : k < bs.length) : m.write p bs (p + k) = bs[k] := by
  simp [write, List.getElem?_eq_getElem h]

/-- Outside the written range a write changes nothing. -/
theorem write_of_outside {i : Nat} (h : i < p ∨ p + bs.length ≤ i) : m.write p bs i = m i := by
  rcases h with h | h
  · exact write_of_lt m p bs h
  · exact write_of_ge m p bs h

/-- Inside the written range it does not matter what was there before. -/
theorem write_inside (m' : ByteMem) {i : Nat} (h1 : p ≤ i) (h2 : i < p + bs.length) :
    m.write p bs i = m'.write p bs i := by
  obtain ⟨k, rfl⟩ := Nat.exists_eq_add_of_le h1
  rw [write_at m p bs (by omega), write_at m' p bs (by omega)]

@[simp] theorem write_nil : m.write p [] = m := by
  funext i
  exact write_of_outside m p [] (by simp; omega)

theorem read_write_same : (m.write p bs).read p bs.length = bs := by
  apply List.ext_getElem
  · simp
  · intro k h1 h2
    rw [getElem_read]
    exact write_at m p bs h2

theorem read_write_disjoint (h : q + n ≤ p ∨ p + bs.length ≤ q) :
    (m.write p bs).read q n = m.read q n := by
  apply read_congr
  intro k hk
  exact write_of_outside m p bs (by omega)

/-- The octets from `b` on moved down to `a`, and others put behind them. -/
theorem read_write_down {a b n : Nat} (hab : a ≤ b) (hb : b ≤ n) {fill : List Byte}
    (hfill : fill.length = b - a) :
    ((m.write a (m.read b (n - b))).write (a + (n - b)) fill).read 0 n =
      m.read 0 a ++ m.read b (n - b) ++ fill := by
  have split : n = a + (n - b) + fill.length := by omega
  conv_lhs => rw [split]
  rw [read_add, read_add, Nat.zero_add, Nat.zero_add, ← split, read_write_same,
    read_write_disjoint _ _ _ _ _ (by omega), read_write_disjoint _ _ _ _ _ (by omega),
    read_write_disjoint _ _ _ _ _ (by omega)]
  have same := read_write_same m a (m.read b (n - b))
  rw [length_read] at same
  rw [same]

/-- The octets from `c` on moved up, and others put in between. -/
theorem read_write_up {c n : Nat} (hc : c ≤ n) (bs : List Byte) :
    ((m.write (c + bs.length) (m.read c (n - c))).write c bs).read 0 (n + bs.length) =
      m.read 0 c ++ bs ++ m.read c (n - c) := by
  have split : n + bs.length = c + bs.length + (n - c) := by omega
  rw [split, read_add, read_add, Nat.zero_add, Nat.zero_add, read_write_same,
    read_write_disjoint _ _ _ _ _ (by omega), read_write_disjoint _ _ _ _ _ (by omega),
    read_write_disjoint _ _ _ _ _ (by omega)]
  have same := read_write_same m (c + bs.length) (m.read c (n - c))
  rw [length_read] at same
  rw [same]

theorem read_ofList (bs : List Byte) : (ofList bs).read 0 bs.length = bs := by
  apply List.ext_getElem
  · simp
  · intro k h1 h2
    simp [ofList, h2]

end ByteMem

/-! ## Machine words in memory -/

/-- The `n` octets of a word, least significant first. -/
def toLe : Nat → Nat → List Byte
  | 0, _ => []
  | n + 1, v => BitVec.ofNat 8 v :: toLe n (v / 256)

/-- The word whose octets, least significant first, are given. -/
def ofLe : List Byte → Nat
  | [] => 0
  | b :: bs => b.toNat + 256 * ofLe bs

@[simp] theorem length_toLe (n v : Nat) : (toLe n v).length = n := by
  induction n generalizing v with
  | zero => rfl
  | succ n ih => simp [toLe, ih]

theorem ofLe_lt (bs : List Byte) : ofLe bs < 256 ^ bs.length := by
  induction bs with
  | nil => simp [ofLe]
  | cons b bs ih =>
      have hb : b.toNat < 256 := b.isLt
      simp only [ofLe, List.length_cons, Nat.pow_succ]
      omega

/-- Decoding an encoded word truncates it to its width. -/
theorem ofLe_toLe (n v : Nat) : ofLe (toLe n v) = v % 256 ^ n := by
  induction n generalizing v with
  | zero => simp [toLe, ofLe, Nat.mod_one]
  | succ n ih =>
      simp only [toLe, ofLe, ih, BitVec.toNat_ofNat]
      change v % 256 + 256 * (v / 256 % 256 ^ n) = v % 256 ^ (n + 1)
      rw [Nat.pow_succ, Nat.mul_comm (256 ^ n) 256, Nat.mod_mul]

theorem toLe_ofLe (bs : List Byte) : toLe bs.length (ofLe bs) = bs := by
  induction bs with
  | nil => rfl
  | cons b bs ih =>
      have hb : b.toNat < 256 := b.isLt
      have quot : (b.toNat + 256 * ofLe bs) / 256 = ofLe bs := by omega
      simp only [ofLe, List.length_cons, toLe, quot, ih, List.cons.injEq, and_true]
      apply BitVec.eq_of_toNat_eq
      simp only [BitVec.toNat_ofNat]
      omega

/-- The word with its `n` octets in the opposite order. -/
def byteSwap (n v : Nat) : Nat :=
  ofLe (toLe n v).reverse

theorem byteSwap_lt (n v : Nat) : byteSwap n v < 256 ^ n := by
  have h := ofLe_lt (toLe n v).reverse
  simpa [byteSwap] using h

theorem toLe_byteSwap (n v : Nat) : toLe n (byteSwap n v) = (toLe n v).reverse := by
  have h := toLe_ofLe (toLe n v).reverse
  simpa [byteSwap] using h

/-- Swapping twice is the identity on words of the width. -/
theorem byteSwap_byteSwap (n v : Nat) : byteSwap n (byteSwap n v) = v % 256 ^ n := by
  rw [byteSwap, toLe_byteSwap, List.reverse_reverse, ofLe_toLe]

namespace ByteMem

/-- A 16-bit load of a little-endian machine. -/
def load16 (m : ByteMem) (p : Nat) : BitVec 16 := BitVec.ofNat 16 (ofLe (m.read p 2))

/-- A 32-bit load of a little-endian machine. -/
def load32 (m : ByteMem) (p : Nat) : BitVec 32 := BitVec.ofNat 32 (ofLe (m.read p 4))

/-- A 64-bit load of a little-endian machine. -/
def load64 (m : ByteMem) (p : Nat) : BitVec 64 := BitVec.ofNat 64 (ofLe (m.read p 8))

/-- A store of one octet. -/
def store8 (m : ByteMem) (p : Nat) (v : Byte) : ByteMem := m.write p [v]

/-- A 16-bit store of a little-endian machine. -/
def store16 (m : ByteMem) (p : Nat) (v : BitVec 16) : ByteMem := m.write p (toLe 2 v.toNat)

/-- A 32-bit store of a little-endian machine. -/
def store32 (m : ByteMem) (p : Nat) (v : BitVec 32) : ByteMem := m.write p (toLe 4 v.toNat)

/-- A 64-bit store of a little-endian machine. -/
def store64 (m : ByteMem) (p : Nat) (v : BitVec 64) : ByteMem := m.write p (toLe 8 v.toNat)

variable (m : ByteMem) (p : Nat)

@[simp] theorem store8_same (v : Byte) : m.store8 p v p = v := by
  simp [store8, write]

theorem store8_of_ne {i : Nat} (v : Byte) (h : i ≠ p) : m.store8 p v i = m i :=
  write_of_outside m p [v] (by simp; omega)

theorem store16_of_outside {i : Nat} (v : BitVec 16) (h : i < p ∨ p + 2 ≤ i) :
    m.store16 p v i = m i :=
  write_of_outside m p _ (by simpa using h)

theorem store32_of_outside {i : Nat} (v : BitVec 32) (h : i < p ∨ p + 4 ≤ i) :
    m.store32 p v i = m i :=
  write_of_outside m p _ (by simpa using h)

theorem store64_of_outside {i : Nat} (v : BitVec 64) (h : i < p ∨ p + 8 ≤ i) :
    m.store64 p v i = m i :=
  write_of_outside m p _ (by simpa using h)

theorem load16_congr {m m' : ByteMem} {p : Nat} (h : ∀ k < 2, m (p + k) = m' (p + k)) :
    m.load16 p = m'.load16 p := by
  rw [load16, load16, read_congr h]

theorem load32_congr {m m' : ByteMem} {p : Nat} (h : ∀ k < 4, m (p + k) = m' (p + k)) :
    m.load32 p = m'.load32 p := by
  rw [load32, load32, read_congr h]

theorem load64_congr {m m' : ByteMem} {p : Nat} (h : ∀ k < 8, m (p + k) = m' (p + k)) :
    m.load64 p = m'.load64 p := by
  rw [load64, load64, read_congr h]

/-- A load is not affected by a store beside it. -/
theorem load16_store8 {m : ByteMem} {p q : Nat} (v : Byte) (h : q < p ∨ p + 2 ≤ q) :
    (m.store8 q v).load16 p = m.load16 p :=
  load16_congr fun k hk => store8_of_ne m q v (by omega)

theorem load16_store16_of_disjoint {m : ByteMem} {p q : Nat} (v : BitVec 16)
    (h : q + 2 ≤ p ∨ p + 2 ≤ q) : (m.store16 q v).load16 p = m.load16 p :=
  load16_congr fun k hk => store16_of_outside m q v (by omega)

theorem ofLe_read_write_toLe (n v : Nat) :
    ofLe ((m.write p (toLe n v)).read p n) = v % 256 ^ n := by
  have same := read_write_same m p (toLe n v)
  rw [length_toLe] at same
  rw [same, ofLe_toLe]

@[simp] theorem load16_store16 (v : BitVec 16) : (m.store16 p v).load16 p = v := by
  rw [load16, store16, ofLe_read_write_toLe]
  change BitVec.ofNat 16 (v.toNat % 2 ^ 16) = v
  rw [Nat.mod_eq_of_lt v.isLt, BitVec.ofNat_toNat, BitVec.setWidth_eq]

@[simp] theorem load32_store32 (v : BitVec 32) : (m.store32 p v).load32 p = v := by
  rw [load32, store32, ofLe_read_write_toLe]
  change BitVec.ofNat 32 (v.toNat % 2 ^ 32) = v
  rw [Nat.mod_eq_of_lt v.isLt, BitVec.ofNat_toNat, BitVec.setWidth_eq]

@[simp] theorem load64_store64 (v : BitVec 64) : (m.store64 p v).load64 p = v := by
  rw [load64, store64, ofLe_read_write_toLe]
  change BitVec.ofNat 64 (v.toNat % 2 ^ 64) = v
  rw [Nat.mod_eq_of_lt v.isLt, BitVec.ofNat_toNat, BitVec.setWidth_eq]

end ByteMem

end Sdplane
