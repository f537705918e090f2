import Sdplane.Misc.Ensures
import Sdplane.Zcmdsh.Word

/-!
# Lines

A line is what is before and what is after the cursor. `Editor.Holds` says that the command
line, its three indices and the terminating NUL are such a line; each function of the editor
that is called within its bounds makes another line of it, and writes what is said here.
-/

namespace Sdplane

/-- A command line, split at the cursor. -/
structure Line where
  before : List Byte
  after : List Byte

namespace Line

/-- The cursor put into a text. -/
def ofText (t : List Byte) (i : Nat) : Line := ⟨t.take i, t.drop i⟩

variable (l : Line)

def text : List Byte := l.before ++ l.after

def insert (s : List Byte) : Line := ⟨l.before ++ s, l.after⟩

/-- The line without its octets from `a` to `b`, and the cursor there. -/
def delete (a b : Nat) : Line := ⟨l.text.take a, l.text.drop b⟩

def moveTo (i : Nat) : Line := ofText l.text i

/-- What `shell_delete_string` writes. -/
def deleteSent (a b : Nat) : List Byte :=
  List.replicate (l.before.length - a) controlH ++
    (l.text.drop b ++ List.replicate (b - a) space) ++ List.replicate (l.text.length - a) controlH

/-- What `shell_insert` writes. -/
def insertSent (s : List Byte) : List Byte :=
  s ++ l.after ++ List.replicate l.after.length controlH

/-- What `shell_cut` cuts out. -/
def cutString (a b : Nat) : CString := .ofOctets ((l.text.drop a).take (b - a))

/-- What `shell_moveto` writes. -/
def moveSent (i : Nat) : List Byte :=
  l.after.take (i - l.before.length) ++ List.replicate (l.before.length - i) controlH

/-- The line without redundant spaces, and the cursor where it was in it. -/
def format : Line :=
  let f := formatLine l.before.length l.text
  ofText f.commandLine f.cursor

/-- What `shell_format` writes. -/
def formatSent : List Byte :=
  List.replicate l.before.length controlH ++ l.format.text ++
    List.replicate (l.text.length - l.format.text.length) space ++
      List.replicate (l.text.length - l.format.before.length) controlH

theorem length_text : l.text.length = l.before.length + l.after.length := List.length_append

theorem length_before_le : l.before.length ≤ l.text.length :=
  l.length_text ▸ Nat.le_add_right _ _

theorem take_text : l.text.take l.before.length = l.before := List.take_left

theorem drop_text : l.text.drop l.before.length = l.after := List.drop_left

@[simp] theorem text_ofText (t : List Byte) (i : Nat) : (ofText t i).text = t :=
  List.take_append_drop i t

@[simp] theorem text_moveTo (i : Nat) : (l.moveTo i).text = l.text := text_ofText l.text i

@[simp] theorem moveTo_ofText (t : List Byte) (i j : Nat) : (ofText t i).moveTo j = ofText t j := by
  rw [moveTo, text_ofText]

theorem length_before_ofText {t : List Byte} {i : Nat} (hi : i ≤ t.length) :
    (ofText t i).before.length = i := List.length_take_of_le hi

theorem moveTo_self : l.moveTo l.before.length = l := by
  simp [moveTo, ofText, text]

@[simp] theorem text_insert (s : List Byte) : (l.insert s).text = l.before ++ s ++ l.after := rfl

theorem mem_text_insert {s : List Byte} {b : Byte} :
    b ∈ (l.insert s).text ↔ b ∈ s ∨ b ∈ l.text := by
  rw [text_insert, List.append_assoc, List.mem_append, List.mem_append, text, List.mem_append]
  exact or_left_comm

theorem mem_text_delete {a b : Nat} {x : Byte} (h : x ∈ (l.delete a b).text) : x ∈ l.text := by
  rcases List.mem_append.mp h with h | h
  · exact List.mem_of_mem_take h
  · exact List.mem_of_mem_drop h

end Line

namespace Line

variable (l : Line)

theorem moveSent_ahead (n : Nat) : l.moveSent (l.before.length + n) = l.after.take n := by
  rw [moveSent, Nat.add_sub_cancel_left, Nat.sub_eq_zero_of_le (Nat.le_add_right _ _),
    List.replicate_zero, List.append_nil]

theorem moveSent_back {n : Nat} (hn : n ≤ l.before.length) :
    l.moveSent (l.before.length - n) = List.replicate n controlH := by
  rw [moveSent, Nat.sub_eq_zero_of_le (Nat.sub_le _ _), List.take_zero, Nat.sub_sub_self hn,
    List.nil_append]

end Line

/-- A round of `shell_format` drops the octet or keeps it. -/
theorem formatOctet_cases (cursor : Int) (i : Nat) (b : Byte) (f : Formatted) :
    (formatOctet cursor i b f).commandLine = f.commandLine ∧
        (formatOctet cursor i b f).cursor = f.cursor ∨
      (formatOctet cursor i b f).commandLine = f.commandLine ++ [b] ∧
        (formatOctet cursor i b f).cursor ≤ f.cursor + 1 := by
  unfold formatOctet
  generalize (if b = space then f.count + 1 else f.count) = count
  dsimp only
  split
  · exact .inl ⟨rfl, rfl⟩
  · split
    · exact .inl ⟨rfl, rfl⟩
    · refine .inr ⟨rfl, ?_⟩
      dsimp only
      split <;> omega

theorem formatLoop_bounds (cursor : Int) (i : Nat) (line : List Byte) (f : Formatted)
    (inside : f.cursor ≤ f.commandLine.length) :
    let f' := forEach (formatOctet cursor) i line f
    f'.cursor ≤ f'.commandLine.length ∧
      f'.commandLine.length ≤ f.commandLine.length + line.length ∧
        ∀ b ∈ f'.commandLine, b ∈ f.commandLine ∨ b ∈ line := by
  induction line generalizing i f with
  | nil => exact ⟨inside, le_rfl, fun b hb => .inl hb⟩
  | cons b line ih =>
      rcases formatOctet_cases cursor i b f with ⟨dropped, place⟩ | ⟨kept, place⟩
      · obtain ⟨h1, h2, h3⟩ := ih (i + 1) (formatOctet cursor i b f) (by rw [dropped, place]; omega)
        rw [dropped] at h2 h3
        refine ⟨h1, h2.trans (by simp), ?_⟩
        intro x hx
        exact (h3 x hx).imp_right (List.mem_cons_of_mem b)
      · have longer : (formatOctet cursor i b f).commandLine.length = f.commandLine.length + 1 := by
          rw [kept, List.length_append, List.length_singleton]
        obtain ⟨h1, h2, h3⟩ := ih (i + 1) (formatOctet cursor i b f) (by omega)
        refine ⟨h1, ?_, ?_⟩
        · rw [longer] at h2
          rw [List.length_cons]
          exact h2.trans_eq (by omega)
        · intro x hx
          have source := h3 x hx
          rw [kept, List.mem_append, List.mem_singleton] at source
          rw [List.mem_cons]
          exact or_assoc.mp source

namespace Line

variable (l : Line)

theorem format_bounds :
    (formatLine l.before.length l.text).cursor ≤
        (formatLine l.before.length l.text).commandLine.length ∧
      (formatLine l.before.length l.text).commandLine.length ≤ l.text.length := by
  obtain ⟨h1, h2, -⟩ := formatLoop_bounds l.before.length 0 l.text ⟨[], 0, 0⟩ le_rfl
  exact ⟨h1, by simpa [formatLine] using h2⟩

theorem mem_text_format {b : Byte} (h : b ∈ l.format.text) : b ∈ l.text := by
  obtain ⟨-, -, h3⟩ := formatLoop_bounds l.before.length 0 l.text ⟨[], 0, 0⟩ le_rfl
  rw [format, text_ofText] at h
  simpa using h3 b h

end Line

/-- The editor holds the line, and a terminal is attached to it. -/
structure Editor.Holds (e : Editor) (l : Line) : Prop where
  terminal : 0 ≤ e.writefd
  cursor : e.cursor = l.before.length
  lineEnd : e.lineEnd = l.text.length
  room : l.text.length < e.size
  small : e.size < 2 ^ 31
  line : e.commandLine.read 0 l.text.length = l.text
  nul : e.commandLine l.text.length = 0
  noNul : 0 ∉ l.text

/-- What a function makes of an editor: the line it holds then, and what it writes. -/
structure Editor.Becomes (e : Editor) (l : Line) (sent : List Byte) (e' : Editor) : Prop where
  holds : e'.Holds l
  out : e'.out = e.out ++ sent
  cutBuffer : e'.cutBuffer = e.cutBuffer

/-- A line is held once it is terminated. -/
theorem Editor.holds_shellTerminate {e : Editor} {t : List Byte} {i : Nat}
    (terminal : 0 ≤ e.writefd) (cursor : e.cursor = i) (hi : i ≤ t.length)
    (lineEnd : e.lineEnd = t.length) (room : t.length < e.size) (small : e.size < 2 ^ 31)
    (line : e.commandLine.read 0 t.length = t) (noNul : 0 ∉ t) :
    (shellTerminate e).Holds (.ofText t i) := by
  have inside : ¬ (e.lineEnd < 0 ∨ e.size ≤ e.lineEnd) := by omega
  have terminated : shellTerminate e =
      { e with commandLine := e.commandLine.store8 t.length 0 } := by
    rw [shellTerminate, if_neg inside, lineEnd, Int.toNat_natCast, ← lineEnd]
  rw [terminated]
  refine ⟨terminal, ?_, ?_, ?_, small, ?_, ?_, ?_⟩
  · rw [cursor, Line.length_before_ofText hi]
  · rw [lineEnd, Line.text_ofText]
  · rw [Line.text_ofText]
    exact room
  · rw [Line.text_ofText, ByteMem.store8, ByteMem.read_write_disjoint, line]
    left
    rw [Nat.zero_add]
  · rw [Line.text_ofText]
    exact ByteMem.store8_same _ _ _
  · rw [Line.text_ofText]
    exact noNul

theorem shellFormat_unchanged {mem : Memory} (none : mem.format = false) (e : Editor) :
    shellFormat mem e = e := by
  rw [shellFormat, none, if_neg Bool.false_ne_true]

/-- One function after another. -/
theorem Editor.Becomes.trans {e e' e'' : Editor} {l l' : Line} {sent sent' : List Byte}
    (first : e.Becomes l sent e') (second : e'.Becomes l' sent' e'') :
    e.Becomes l' (sent ++ sent') e'' where
  holds := second.holds
  out := by rw [second.out, first.out, List.append_assoc]
  cutBuffer := second.cutBuffer.trans first.cutBuffer

namespace Editor.Holds

variable {e : Editor} {l : Line} (h : e.Holds l)

include h

theorem suffix (i : Nat) :
    e.commandLine.read i (l.text.length - i) = l.text.drop i := by
  have dropped := ByteMem.drop_read e.commandLine 0 l.text.length i
  rw [Nat.zero_add, h.line] at dropped
  exact dropped.symm

theorem read {i n : Nat} (hi : i + n ≤ l.text.length) :
    e.commandLine.read i n = (l.text.drop i).take n := by
  rw [← h.suffix i, ByteMem.take_read _ _ _ (by omega)]

theorem stringAt {i : Nat} (hi : i ≤ l.text.length) : (e.stringAt i).octets = l.text.drop i := by
  have stop : i + (l.text.length - i) = l.text.length := by omega
  have room := h.room
  rw [Editor.stringAt, Int.toNat_natCast,
    ByteMem.cString_octets (n := l.text.length - i) (by omega), h.suffix i]
  · rw [stop, h.nul]
  · rw [h.suffix i]
    exact fun nul => h.noNul (List.mem_of_mem_drop nul)

theorem writeFd (bs : List Byte) : e.Becomes l bs (e.writeFd bs) where
  holds := { h with }
  out := if_pos h.terminal
  cutBuffer := rfl

/-- Terminating the line again changes nothing. -/
theorem shellTerminate_spec : shellTerminate e = e := by
  have same : e.commandLine.store8 l.text.length 0 = e.commandLine := by
    funext i
    by_cases here : i = l.text.length
    · rw [here, ByteMem.store8_same, h.nul]
    · exact ByteMem.store8_of_ne _ _ _ here
  rw [shellTerminate, h.lineEnd, Int.toNat_natCast, same, ite_self, ← h.lineEnd]

/-- Only the cursor is moved. -/
theorem moved {i : Nat} (hi : i ≤ l.text.length) : { e with cursor := i }.Holds (l.moveTo i) where
  terminal := h.terminal
  cursor := by rw [Line.moveTo, Line.length_before_ofText hi]
  lineEnd := by rw [l.text_moveTo, h.lineEnd]
  room := by rw [l.text_moveTo]; exact h.room
  small := h.small
  line := by rw [l.text_moveTo, h.line]
  nul := by rw [l.text_moveTo, h.nul]
  noNul := by rw [l.text_moveTo]; exact h.noNul

/-- The line is cut off behind the cursor. -/
theorem truncated {n : Nat} (hi : l.before.length ≤ n) (hn : n ≤ l.text.length) :
    (shellTerminate { e with lineEnd := n }).Holds
      (.ofText (l.text.take n) l.before.length) := by
  have room := h.room
  have length : (l.text.take n).length = n := List.length_take_of_le hn
  have read := h.read (i := 0) (n := n) (by omega)
  rw [List.drop_zero] at read
  refine Editor.holds_shellTerminate h.terminal h.cursor (by omega) ?_ ?_ h.small ?_ ?_
  · rw [length]
  · rw [length]
    exact lt_of_le_of_lt (Nat.cast_le.mpr hn) room
  · rw [length, read]
  · exact fun nul => h.noNul (List.mem_of_mem_take nul)

/-- `shell_forward` inside the line. -/
theorem shellForward_spec {n : Nat} (hn : n ≤ l.after.length) :
    e.Becomes (l.moveTo (l.before.length + n)) (l.after.take n) (shellForward n e) := by
  have bound := l.length_text
  have inside : ¬ e.lineEnd < e.cursor + n := by
    rw [h.lineEnd, h.cursor]
    omega
  have written : e.commandLine.read e.cursor.toNat (n : Int).toNat = l.after.take n := by
    rw [h.cursor, Int.toNat_natCast, Int.toNat_natCast, h.read (by omega), l.drop_text]
  have sum : e.cursor + n = (l.before.length + n : Nat) := by
    rw [h.cursor, Nat.cast_add]
  have moved := (h.writeFd (l.after.take n)).holds.moved (i := l.before.length + n) (by omega)
  rw [← sum] at moved
  rw [shellForward, if_neg inside, written]
  exact ⟨moved, (h.writeFd _).out, rfl⟩

/-- `shell_forward` beyond the line does nothing. -/
theorem shellForward_beyond {n : Nat} (hn : l.after.length < n) : shellForward n e = e := by
  rw [shellForward, if_pos]
  rw [h.lineEnd, h.cursor, l.length_text]
  omega

/-- `shell_backward` inside the line. -/
theorem shellBackward_spec {n : Nat} (hn : n ≤ l.before.length) :
    e.Becomes (l.moveTo (l.before.length - n)) (List.replicate n controlH)
      (shellBackward n e) := by
  have bound := l.length_text
  have inside : ¬ e.cursor - n < 0 := by
    rw [h.cursor]
    omega
  have difference : e.cursor - n = (l.before.length - n : Nat) := by
    rw [h.cursor, Nat.cast_sub hn]
  have written : backspaces n 0 = List.replicate n controlH := by
    rw [backspaces, Int.sub_zero, Int.toNat_natCast]
  have moved := h.moved (i := l.before.length - n) (by omega)
  rw [shellBackward, if_neg inside, written, difference]
  exact ⟨(moved.writeFd _).holds, (moved.writeFd _).out, rfl⟩

/-- `shell_backward` beyond the line does nothing. -/
theorem shellBackward_beyond {n : Nat} (hn : l.before.length < n) :
    shellBackward n e = e := by
  rw [shellBackward, if_pos]
  rw [h.cursor]
  omega

/-- `shell_moveto`. -/
theorem shellMoveto_spec {i : Nat} (hi : i ≤ l.text.length) :
    ∃ e', shellMoveto i e = .ok e' ∧ e.Becomes (l.moveTo i) (l.moveSent i) e' := by
  have bound := l.length_text
  have inside : ¬ ¬ ((0 : Int) ≤ i ∧ (i : Int) ≤ e.lineEnd) := by
    rw [h.lineEnd]
    omega
  rw [shellMoveto, if_neg inside, h.cursor]
  rcases Nat.lt_trichotomy l.before.length i with ahead | rfl | behind
  · rw [if_pos (by omega), ← Nat.cast_sub ahead.le]
    have forward := h.shellForward_spec (n := i - l.before.length) (by omega)
    rw [Nat.add_sub_cancel' ahead.le] at forward
    refine ⟨_, rfl, ?_⟩
    rw [Line.moveSent, Nat.sub_eq_zero_of_le ahead.le, List.replicate_zero, List.append_nil]
    exact forward
  · rw [if_neg (lt_irrefl _), if_neg (lt_irrefl _)]
    refine ⟨e, rfl, ?_⟩
    rw [l.moveTo_self, Line.moveSent, Nat.sub_self, List.take_zero, List.replicate_zero]
    exact ⟨h, (List.append_nil _).symm, rfl⟩
  · rw [if_neg (by omega), if_pos (by omega), ← Nat.cast_sub behind.le]
    have backward := h.shellBackward_spec (n := l.before.length - i) (by omega)
    rw [Nat.sub_sub_self behind.le] at backward
    refine ⟨_, rfl, ?_⟩
    rw [Line.moveSent, Nat.sub_eq_zero_of_le behind.le, List.take_zero, List.nil_append]
    exact backward

/-- The line is redrawn from an index on. -/
theorem redrawFrom_spec {i : Nat} (hi : i ≤ l.text.length) :
    e.Becomes (l.moveTo i) (List.replicate (l.before.length - i) controlH ++ l.text.drop i ++
      List.replicate (l.text.length - i) controlH) (redrawFrom i e) := by
  have back := h.writeFd (backspaces e.cursor i)
  have drawn := back.trans (back.holds.writeFd (l.text.drop i))
  have moved := drawn.holds.moved hi
  have placed := moved.writeFd (backspaces e.lineEnd i)
  have gone : backspaces e.cursor i = List.replicate (l.before.length - i) controlH := by
    rw [backspaces, h.cursor, Int.toNat_sub]
  have returned : backspaces e.lineEnd i = List.replicate (l.text.length - i) controlH := by
    rw [backspaces, h.lineEnd, Int.toNat_sub]
  have same : redrawFrom i e =
      { (e.writeFd (backspaces e.cursor i)).writeFd (l.text.drop i) with
          cursor := i }.writeFd (backspaces e.lineEnd i) := by
    rw [redrawFrom, back.holds.stringAt hi]
    rfl
  rw [same, ← gone, ← returned]
  exact ⟨placed.holds, by rw [placed.out, drawn.out, List.append_assoc], rfl⟩

/-- `shell_delete_string` inside the line. -/
theorem shellDeleteString_spec {a b : Nat} (hab : a ≤ b) (hb : b ≤ l.text.length) :
    ∃ e', shellDeleteString a b e = .ok e' ∧
      e.Becomes (l.delete a b) (l.deleteSent a b) e' := by
  have bound := l.length_text
  have room := h.room
  have inside : ¬ ¬ ((0 : Int) ≤ a ∧ (a : Int) ≤ b ∧ (b : Int) ≤ e.lineEnd) := by
    rw [h.lineEnd]
    omega
  have movesize : (e.lineEnd - b).toNat = l.text.length - b := by
    rw [h.lineEnd]
    omega
  have filled : ((a : Int) + (e.lineEnd - b)).toNat = a + (l.text.length - b) := by
    rw [h.lineEnd]
    omega
  have fill : (e.lineEnd - (a + (e.lineEnd - b))).toNat = b - a := by
    rw [h.lineEnd]
    omega
  rw [shellDeleteString, if_neg inside]
  simp only [movesize, filled, fill, Int.toNat_natCast]
  -- the rest moved up, with blanks behind it, is what is redrawn
  have blanks : (List.replicate (b - a) space).length = b - a := List.length_replicate
  have full := e.commandLine.read_write_down hab hb blanks
  rw [h.read (i := 0) (by omega), List.drop_zero] at full
  simp only [h.suffix] at full ⊢
  generalize (e.commandLine.write a (l.text.drop b)).write (a + (l.text.length - b))
    (List.replicate (b - a) space) = line at full ⊢
  generalize text : l.text.take a ++ l.text.drop b ++ List.replicate (b - a) space = t at full
  have length : l.text.length = t.length := by
    rw [← full, ByteMem.length_read]
  have noNul : 0 ∉ t := by
    rw [← text, List.mem_append, List.mem_append]
    rintro ((nul | nul) | nul)
    · exact h.noNul (List.mem_of_mem_take nul)
    · exact h.noNul (List.mem_of_mem_drop nul)
    · exact absurd (List.eq_of_mem_replicate nul) (by decide)
  have blanked : (shellTerminate { e with commandLine := line }).Holds
      (.ofText t l.before.length) :=
    Editor.holds_shellTerminate h.terminal h.cursor (by omega) (length ▸ h.lineEnd)
      (length ▸ h.room) h.small (length ▸ full) noNul
  have start : (l.text.take a).length = a := List.length_take_of_le (by omega)
  have shown : t.drop a = l.text.drop b ++ List.replicate (b - a) space := by
    rw [← text, List.append_assoc, List.drop_left' start]
  have drawn := blanked.redrawFrom_spec (i := a) (by rw [Line.text_ofText]; omega)
  rw [Line.text_ofText, shown, ← length, Line.length_before_ofText (by omega),
    Line.moveTo_ofText] at drawn
  generalize redrawFrom a _ = e' at drawn ⊢
  refine ⟨_, rfl, ?_, drawn.out, drawn.cutBuffer⟩
  have kept : t.take (l.text.length - (b - a)) = l.text.take a ++ l.text.drop b := by
    rw [← text, List.take_left']
    rw [List.length_append, start, List.length_drop]
    omega
  have split : l.delete a b = .ofText (l.text.take a ++ l.text.drop b) a := by
    rw [Line.delete, Line.ofText, List.take_left' start, List.drop_left' start]
  have shorter : e'.lineEnd - (b - a) = (l.text.length - (b - a) : Nat) := by
    rw [drawn.holds.lineEnd, Line.text_ofText, ← length]
    omega
  have place := Line.length_before_ofText (t := t) (i := a) (by omega)
  have holds := drawn.holds.truncated (n := l.text.length - (b - a)) (by omega) (by
    rw [Line.text_ofText]
    omega)
  rw [Line.text_ofText, kept, place, ← split] at holds
  rw [shorter]
  exact holds

theorem shellExpand_spec (mem : Memory) :
    Ensures (shellExpand mem e) .assertion fun e' => e.Becomes l [] e' := by
  have room := h.room
  rw [shellExpand]
  split
  case isFalse => exact .error (by decide)
  case isTrue small =>
    cases mem.expand (e.size * 2) with
    | none => exact .error (by decide)
    | some block =>
        have kept : ∀ i ≤ l.text.length,
            (if (i : Int) < e.size then e.commandLine i else block i) = e.commandLine i :=
          fun i hi => if_pos (by omega)
        refine .ok ⟨⟨h.terminal, h.cursor, h.lineEnd, ?_, small, ?_, ?_, h.noNul⟩,
          (List.append_nil _).symm, rfl⟩
        · change (l.text.length : Int) < e.size * 2
          omega
        · refine (ByteMem.read_congr ?_).trans h.line
          intro k hk
          rw [Nat.zero_add]
          exact kept k hk.le
        · exact (kept _ le_rfl).trans h.nul

theorem expandLoop_spec (mem : Memory) (need : Int) (fuel : Nat) :
    Ensures (expandLoop mem need fuel e) .assertion fun e' =>
      e.Becomes l [] e' ∧ need ≤ e'.size := by
  induction fuel generalizing e with
  | zero => exact .error (by decide)
  | succ fuel ih =>
      rw [expandLoop]
      split
      case isTrue enough => exact .ok ⟨⟨h, (List.append_nil _).symm, rfl⟩, enough⟩
      case isFalse =>
        refine (h.shellExpand_spec mem).bind fun e' becomes => (ih becomes.holds).imp ?_
        exact fun e'' h'' => ⟨becomes.trans h''.1, h''.2⟩

/-- `shell_insert`, where the line can grow. -/
theorem shellInsert_spec (mem : Memory) (s : CString) :
    Ensures (shellInsert mem s e) .assertion fun e' =>
      e.Becomes (l.insert s.octets) (l.insertSent s.octets) e' := by
  have bound := l.length_text
  refine (h.expandLoop_spec mem (e.lineEnd + s.length + 1) 32).bind ?_
  rintro e₁ ⟨grown, enough⟩
  have held := grown.holds
  have up : (e₁.cursor + s.length).toNat = l.before.length + s.octets.length := by
    rw [held.cursor]
    exact Int.toNat_natCast _
  have moved : (e₁.lineEnd - e₁.cursor).toNat = l.text.length - l.before.length := by
    rw [held.lineEnd, held.cursor, Int.toNat_sub]
  have here : e₁.cursor.toNat = l.before.length := by
    rw [held.cursor, Int.toNat_natCast]
  simp only [up, moved, here]
  have full := e₁.commandLine.read_write_up (c := l.before.length) (n := l.text.length) (by omega)
    s.octets
  rw [held.read (i := 0) (by omega), List.drop_zero, held.suffix, l.take_text, l.drop_text] at full
  rw [held.suffix, l.drop_text]
  generalize (e₁.commandLine.write (l.before.length + s.octets.length) l.after).write
    l.before.length s.octets = line at full ⊢
  have length : (l.insert s.octets).text.length = l.text.length + s.octets.length := by
    rw [Line.text_insert, List.length_append, List.length_append]
    omega
  have lineEnd : e₁.lineEnd + s.length = (l.insert s.octets).text.length := by
    rw [held.lineEnd, length]
    exact (Nat.cast_add _ _).symm
  have noNul : 0 ∉ (l.insert s.octets).text := by
    rw [Line.mem_text_insert]
    exact fun nul => nul.elim s.noNul h.noNul
  have opened : (shellTerminate { e₁ with
      commandLine := line
      lineEnd := e₁.lineEnd + s.length }).Holds
        (.ofText (l.insert s.octets).text l.before.length) := by
    refine Editor.holds_shellTerminate held.terminal held.cursor (by omega) lineEnd ?_ held.small
      ?_ noNul
    · rw [h.lineEnd, CString.length] at enough
      rw [length]
      push_cast
      omega
    · rw [length, full]
      rfl
  have shown := opened.stringAt (i := l.before.length) (by rw [Line.text_ofText]; omega)
  rw [Line.text_ofText, Line.text_insert, List.append_assoc, List.drop_left] at shown
  have out : (shellTerminate { e₁ with
      commandLine := line
      lineEnd := e₁.lineEnd + s.length }).out = e.out := by
    rw [shellTerminate, grown.out, List.append_nil]
  have cutBuffer : (shellTerminate { e₁ with
      commandLine := line
      lineEnd := e₁.lineEnd + s.length }).cutBuffer = e.cutBuffer := grown.cutBuffer
  generalize shellTerminate _ = e₂ at opened shown out cutBuffer ⊢
  have cursor : e₂.cursor = l.before.length := by
    rw [opened.cursor, Line.length_before_ofText (by omega)]
  have behind : (e₂.writeFd (s.octets ++ l.after)).cursor + s.length =
      (l.before.length + s.octets.length : Nat) := by
    rw [Nat.cast_add, ← cursor]
    rfl
  have returned : backspaces (e₂.writeFd (s.octets ++ l.after)).lineEnd
      (l.before.length + s.octets.length : Nat) = List.replicate l.after.length controlH := by
    change backspaces e₂.lineEnd _ = _
    rw [backspaces, opened.lineEnd, Line.text_ofText, length, Int.toNat_sub, bound]
    congr 1
    omega
  rw [if_pos opened.terminal, cursor, shown, behind, returned]
  have drawn := opened.writeFd (s.octets ++ l.after)
  have placed := (drawn.holds.moved (i := l.before.length + s.octets.length)
    (by rw [Line.text_ofText]; omega)).writeFd (List.replicate l.after.length controlH)
  have split : .ofText (l.insert s.octets).text (l.before.length + s.octets.length) =
      l.insert s.octets := by
    rw [Line.ofText, Line.text_insert, ← List.length_append, List.take_left, List.drop_left]
    rfl
  rw [Line.moveTo_ofText, split] at placed
  exact .ok ⟨placed.holds, by rw [placed.out, drawn.out, out]; simp [Line.insertSent], cutBuffer⟩

/-- `shell_cut` of nothing only forgets what was cut before. -/
theorem shellCut_empty (mem : Memory) {a : Nat} (ha : a ≤ l.text.length) :
    shellCut mem a a e = .ok { e with cutBuffer := none } := by
  have inside : ¬ ¬ ((0 : Int) ≤ a ∧ (a : Int) ≤ a ∧ (a : Int) ≤ e.lineEnd) := by
    rw [h.lineEnd]
    omega
  rw [shellCut, if_neg inside]
  exact if_pos (sub_self _)

theorem shellCut_spec (mem : Memory) {a b : Nat} (hab : a < b) (hb : b ≤ l.text.length) :
    ∃ e', shellCut mem a b e = .ok e' ∧
      { e with cutBuffer := if mem.cut then some (l.cutString a b) else none }.Becomes
        (l.delete a b) (l.deleteSent a b) e' := by
  have inside : ¬ ¬ ((0 : Int) ≤ a ∧ (a : Int) ≤ b ∧ (b : Int) ≤ e.lineEnd) := by
    rw [h.lineEnd]
    omega
  have nonempty : ¬ (b : Int) - a = 0 := by omega
  rw [shellCut, if_neg inside]
  simp only [if_neg nonempty, Int.toNat_natCast, Int.toNat_sub, h.read (show a + (b - a) ≤ _ by omega)]
  have held : { e with cutBuffer := if mem.cut then some (l.cutString a b) else none }.Holds l :=
    { h with }
  exact held.shellDeleteString_spec hab.le hb

/-- `shell_format`, where it gets a new line. -/
theorem shellFormat_spec {mem : Memory} (some : mem.format = true) :
    e.Becomes l.format l.formatSent (shellFormat mem e) := by
  have room := h.room
  obtain ⟨inside, shorter⟩ := l.format_bounds
  have input : formatLine e.cursor (e.commandLine.read 0 e.lineEnd.toNat) =
      formatLine l.before.length l.text := by
    rw [h.cursor, h.lineEnd, Int.toNat_natCast, h.line]
  have kept : ∀ b ∈ (formatLine l.before.length l.text).commandLine, b ∈ l.text := by
    intro b hb
    exact l.mem_text_format (by rwa [Line.format, Line.text_ofText])
  rw [shellFormat, if_pos some]
  simp only [input]
  have format : l.format = .ofText (formatLine l.before.length l.text).commandLine
    (formatLine l.before.length l.text).cursor := rfl
  generalize formatLine l.before.length l.text = f at *
  have noNul : 0 ∉ f.commandLine := fun nul => h.noNul (kept 0 nul)
  have nul : ByteMem.ofList f.commandLine f.commandLine.length = 0 := by
    simp [ByteMem.ofList]
  have shown : ((ByteMem.ofList f.commandLine).cString e.size.toNat 0).octets = f.commandLine := by
    rw [ByteMem.cString_octets (n := f.commandLine.length), ByteMem.read_ofList]
    · omega
    · rw [Nat.zero_add, nul]
    · rw [ByteMem.read_ofList]
      exact noNul
  have gone : backspaces e.cursor 0 = List.replicate l.before.length controlH := by
    rw [backspaces, h.cursor, Int.sub_zero, Int.toNat_natCast]
  have erased : (e.lineEnd - f.commandLine.length).toNat =
      l.text.length - f.commandLine.length := by
    rw [h.lineEnd, Int.toNat_sub]
  have returned : backspaces e.lineEnd f.cursor =
      List.replicate (l.text.length - f.cursor) controlH := by
    rw [backspaces, h.lineEnd, Int.toNat_sub]
  have place := Line.length_before_ofText inside
  have drawn := (((h.writeFd (backspaces e.cursor 0)).trans
    ((h.writeFd _).holds.writeFd f.commandLine)).trans
      (((h.writeFd _).holds.writeFd _).holds.writeFd
        (List.replicate (l.text.length - f.commandLine.length) space))).trans
    ((((h.writeFd _).holds.writeFd _).holds.writeFd _).holds.writeFd (backspaces e.lineEnd f.cursor))
  have sent : l.formatSent = backspaces e.cursor 0 ++ f.commandLine ++
      List.replicate (l.text.length - f.commandLine.length) space ++
        backspaces e.lineEnd f.cursor := by
    rw [Line.formatSent, format, Line.text_ofText, place, gone, returned]
  rw [shown, erased, sent, format]
  refine ⟨⟨h.terminal, ?_, ?_, ?_, h.small, ?_, ?_, ?_⟩, drawn.out, rfl⟩
  · rw [place]
  · rw [Line.text_ofText]
  · rw [Line.text_ofText]
    exact lt_of_le_of_lt (Nat.cast_le.mpr shorter) room
  · rw [Line.text_ofText, ByteMem.read_ofList]
  · rw [Line.text_ofText]
    exact nul
  · rw [Line.text_ofText]
    exact noNul

theorem shellClear_spec : e.Becomes ⟨[], []⟩ [] (shellClear e) where
  holds := (h.moved (Nat.zero_le _)).truncated (n := 0) (Nat.zero_le _) (Nat.zero_le _)
  out := (List.append_nil _).symm
  cutBuffer := rfl

end Editor.Holds

end Sdplane
