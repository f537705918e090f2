import Mathlib.Algebra.Order.Ring.Int
import Sdplane.Zcmdsh.LineEditor

/-!
# The editor of lists

What is before and what is after the cursor are lists, and so is what was cut out last. The
functions of the editor do to these what is said here, for every length of the buffer; where
the line has to grow and cannot, the program ends.
-/

namespace Sdplane

/-- A line, and what was cut out last. -/
structure LineView where
  line : Line
  cut : Option (List Byte)

namespace LineView

variable (v : LineView)

def insert (s : List Byte) : LineView := { v with line := v.line.insert s }

def delete (a b : Nat) : LineView := { v with line := v.line.delete a b }

def moveTo (i : Nat) : LineView := { v with line := v.line.moveTo i }

/-- The octets from `a` to `b`. -/
def removed (a b : Nat) : List Byte := (v.line.text.drop a).take (b - a)

/-- Cutting nothing only forgets what was cut out; `granted` tells whether there is memory for
    what is cut out now. -/
def cutOut (granted : Bool) (a b : Nat) : LineView :=
  if a = b then { v with cut := none }
  else { line := v.line.delete a b, cut := if granted then some (v.removed a b) else none }

def yank : LineView :=
  match v.cut with
  | some s => v.insert s
  | none => v

end LineView

/-- The editor holds the line of the view, and what was cut out. -/
structure Editor.Views (e : Editor) (v : LineView) : Prop where
  holds : e.Holds v.line
  cut : e.cutBuffer.map (·.octets) = v.cut

/-- A block of `size` octets can be doubled until `need` octets fit into it. -/
def Memory.Grows (mem : Memory) (size need : Int) : Prop :=
  ∀ k : Nat, size * 2 ^ k < need →
    size * 2 ^ (k + 1) < 2 ^ 31 ∧ (mem.expand (size * 2 ^ (k + 1))).isSome = true

section
variable {mem : Memory} {size need : Int}

theorem Memory.grows_of_le (positive : 0 < size) (fits : need ≤ size) : mem.Grows size need := by
  intro k short
  have more : size * 1 ≤ size * 2 ^ k :=
    mul_le_mul_of_nonneg_left (one_le_pow₀ (by decide)) positive.le
  omega

/-- Where memory is given, a short line fits into a block whose size is an `int`. -/
theorem Memory.grows_of_expands (expands : ∀ n, (mem.expand n).isSome = true)
    (small : need ≤ 2 ^ 30) : mem.Grows size need := by
  intro k short
  refine ⟨?_, expands _⟩
  rw [pow_succ, ← mul_assoc]
  omega

/-- One doubling after another. -/
theorem Memory.grows_iff (short : size < need) :
    mem.Grows size need ↔
      (size * 2 < 2 ^ 31 ∧ (mem.expand (size * 2)).isSome = true) ∧ mem.Grows (size * 2) need := by
  have double : ∀ k : Nat, size * 2 ^ (k + 1) = size * 2 * 2 ^ k := by
    intro k
    rw [pow_succ', mul_assoc]
  constructor
  · intro grows
    refine ⟨?_, ?_⟩
    · simpa using grows 0 (by simpa using short)
    · intro k
      rw [← double, ← double]
      exact grows (k + 1)
  · intro ⟨first, rest⟩ k
    cases k with
    | zero => simpa using fun _ => first
    | succ k =>
        rw [double, double]
        exact rest k

theorem shellExpand_eq {e : Editor} (granted : e.size * 2 < 2 ^ 31)
    (given : (mem.expand (e.size * 2)).isSome = true) :
    ∃ e', shellExpand mem e = .ok e' ∧ e'.size = e.size * 2 := by
  obtain ⟨block, some⟩ := Option.isSome_iff_exists.mp given
  rw [shellExpand, if_pos granted, some]
  exact ⟨_, rfl, rfl⟩

theorem shellExpand_noMemory {e : Editor}
    (refused : ¬(e.size * 2 < 2 ^ 31 ∧ (mem.expand (e.size * 2)).isSome = true)) :
    shellExpand mem e = .error .noMemory := by
  rw [shellExpand]
  split
  · next granted =>
      have none : mem.expand (e.size * 2) = none := by
        simpa using fun some => refused ⟨granted, some⟩
      rw [none]
  · rfl

/-- The loop ends with a line that is long enough, or for want of memory. -/
theorem expandLoop_grows {e : Editor} (positive : 0 < e.size) {fuel : Nat}
    (enough : 2 ^ 31 ≤ e.size * 2 ^ fuel) :
    (mem.Grows e.size need → ∃ e', expandLoop mem need (fuel + 1) e = .ok e') ∧
      (¬mem.Grows e.size need → expandLoop mem need (fuel + 1) e = .error .noMemory) := by
  induction fuel generalizing e with
  | zero =>
      rw [expandLoop]
      by_cases fits : need ≤ e.size
      · simp [fits, Memory.grows_of_le positive fits]
      · have refused : ¬(e.size * 2 < 2 ^ 31 ∧ (mem.expand (e.size * 2)).isSome = true) := by
          omega
        rw [if_neg fits, shellExpand_noMemory refused, Memory.grows_iff (by omega)]
        exact ⟨fun grows => absurd grows.1 refused, fun _ => rfl⟩
  | succ fuel ih =>
      rw [expandLoop]
      by_cases fits : need ≤ e.size
      · simp [fits, Memory.grows_of_le positive fits]
      · rw [if_neg fits, Memory.grows_iff (by omega)]
        by_cases granted : e.size * 2 < 2 ^ 31 ∧ (mem.expand (e.size * 2)).isSome = true
        · obtain ⟨e', expanded, size⟩ := shellExpand_eq granted.1 granted.2
          have more : 2 ^ 31 ≤ e'.size * 2 ^ fuel := by
            rw [size, mul_assoc, ← pow_succ']
            exact enough
          have rest := ih (e := e') (by omega) more
          rw [size] at rest
          rw [expanded]
          exact ⟨fun grows => rest.1 grows.2, fun not => rest.2 fun later => not ⟨granted, later⟩⟩
        · rw [shellExpand_noMemory granted]
          exact ⟨fun grows => absurd grows.1 granted, fun _ => rfl⟩

end

/-! ## The functions of the editor -/

/-- Deleting and cutting leave the buffer as large as it is. -/
theorem shellDeleteString_size {start stop : Int} {e e' : Editor}
    (done : shellDeleteString start stop e = .ok e') : e'.size = e.size := by
  rw [shellDeleteString] at done
  split at done
  · cases done
  · cases done
    rfl

theorem shellCut_size {mem : Memory} {start stop : Int} {e e' : Editor}
    (done : shellCut mem start stop e = .ok e') : e'.size = e.size := by
  rw [shellCut] at done
  split at done
  · cases done
  · dsimp only at done
    split at done
    · cases done
      rfl
    · have kept := shellDeleteString_size done
      exact kept

namespace Editor.Views

variable {e : Editor} {v : LineView}

theorem of_becomes {e' : Editor} {l : Line} {sent : List Byte} (h : e.Views v)
    (becomes : e.Becomes l sent e') : e'.Views { v with line := l } where
  holds := becomes.holds
  cut := by rw [becomes.cutBuffer, h.cut]

variable (h : e.Views v)

include h

/-- `shell_insert`: the loop of `shell_expand` decides whether it returns. -/
theorem insert (mem : Memory) (s : CString) :
    (mem.Grows e.size (v.line.text.length + s.octets.length + 1) →
      ∃ e', shellInsert mem s e = .ok e' ∧ e'.Views (v.insert s.octets)) ∧
    (¬mem.Grows e.size (v.line.text.length + s.octets.length + 1) →
      shellInsert mem s e = .error .noMemory) := by
  have room := h.holds.room
  have length : e.lineEnd + s.length + 1 = v.line.text.length + s.octets.length + 1 := by
    rw [h.holds.lineEnd, CString.length]
  have loop := @expandLoop_grows mem (v.line.text.length + s.octets.length + 1 : Nat) e (by omega)
    31 (by omega)
  push_cast at loop
  rw [← length] at loop ⊢
  constructor
  · intro grows
    obtain ⟨e₁, grown⟩ := loop.1 grows
    have returns : ∃ e', shellInsert mem s e = .ok e' := by
      rw [shellInsert, grown]
      simp only [bind, Except.bind]
      split <;> exact ⟨_, rfl⟩
    obtain ⟨e', inserted⟩ := returns
    exact ⟨e', inserted, h.of_becomes ((h.holds.shellInsert_spec mem s).2 e' inserted)⟩
  · intro refused
    rw [shellInsert, loop.2 refused]
    rfl

theorem deleteString {a b : Nat} (hab : a ≤ b) (hb : b ≤ v.line.text.length) :
    ∃ e', shellDeleteString a b e = .ok e' ∧ e'.Views (v.delete a b) := by
  obtain ⟨e', done, becomes⟩ := h.holds.shellDeleteString_spec hab hb
  exact ⟨e', done, h.of_becomes becomes⟩

theorem cutOut (mem : Memory) {a b : Nat} (hab : a ≤ b) (hb : b ≤ v.line.text.length) :
    ∃ e', shellCut mem a b e = .ok e' ∧ e'.Views (v.cutOut mem.cut a b) ∧ e'.size = e.size := by
  rw [LineView.cutOut]
  rcases hab.eq_or_lt with rfl | nonempty
  · rw [if_pos rfl]
    exact ⟨_, h.holds.shellCut_empty mem hb, ⟨{ h.holds with }, rfl⟩, rfl⟩
  · obtain ⟨e', done, becomes⟩ := h.holds.shellCut_spec mem nonempty hb
    rw [if_neg nonempty.ne]
    refine ⟨e', done, ⟨becomes.holds, ?_⟩, ?_⟩
    · have noNul : 0 ∉ v.removed a b := fun nul =>
        h.holds.noNul (List.mem_of_mem_drop (List.mem_of_mem_take nul))
      have octets : (v.line.cutString a b).octets = v.removed a b := by
        rw [Line.cutString, CString.octets_ofOctets]
        apply List.takeWhile_eq_self_iff.mpr
        intro b hb
        exact decide_eq_true (ne_of_mem_of_not_mem hb noNul)
      rw [becomes.cutBuffer]
      cases mem.cut with
      | false => rfl
      | true => exact congrArg some octets
    · exact shellCut_size done

theorem forward (n : Nat) :
    (shellForward n e).Views
      (if n ≤ v.line.after.length then v.moveTo (v.line.before.length + n) else v) := by
  split
  · next inside => exact h.of_becomes (h.holds.shellForward_spec inside)
  · next beyond =>
      rw [h.holds.shellForward_beyond (Nat.lt_of_not_le beyond)]
      exact h

theorem backward (n : Nat) :
    (shellBackward n e).Views
      (if n ≤ v.line.before.length then v.moveTo (v.line.before.length - n) else v) := by
  split
  · next inside => exact h.of_becomes (h.holds.shellBackward_spec inside)
  · next beyond =>
      rw [h.holds.shellBackward_beyond (Nat.lt_of_not_le beyond)]
      exact h

theorem moveTo {i : Nat} (hi : i ≤ v.line.text.length) :
    ∃ e', shellMoveto i e = .ok e' ∧ e'.Views (v.moveTo i) := by
  obtain ⟨e', done, becomes⟩ := h.holds.shellMoveto_spec hi
  exact ⟨e', done, h.of_becomes becomes⟩

end Editor.Views

/-! ## Operations -/

/-- The functions of `shell.c` that edit the line or move in it, and those of
    `shell_keyfunc.c` that call them. -/
inductive EditorOp where
  | insert (s : CString)
  | deleteString (start stop : Nat)
  | cut (start stop : Nat)
  | forward (num : Nat)
  | backward (num : Nat)
  | moveto (index : Nat)
  | forwardChar | backwardChar | moveToBegin | moveToEnd
  | deleteChar | backspace | killLine | killAll | yank

namespace EditorOp

/-- What the function does to the shell. -/
def run (a : Answers) (s : Shell) : EditorOp → Except Stop Shell
  | .insert str => s.editM (shellInsert a.memory str)
  | .deleteString start stop => s.editM (shellDeleteString start stop)
  | .cut start stop => s.editM (shellCut a.memory start stop)
  | .forward num => .ok (s.edit (shellForward num))
  | .backward num => .ok (s.edit (shellBackward num))
  | .moveto index => s.editM (shellMoveto index)
  | .forwardChar => .ok (shellKeyfuncForwardChar s)
  | .backwardChar => .ok (shellKeyfuncBackwardChar s)
  | .moveToBegin => .ok (shellKeyfuncMoveToBegin s)
  | .moveToEnd => .ok (shellKeyfuncMoveToEnd s)
  | .deleteChar => shellKeyfuncDeleteChar s
  | .backspace => shellKeyfuncBackspace a s
  | .killLine => shellKeyfuncKillLine a s
  | .killAll => shellKeyfuncKillAll a s
  | .yank => shellKeyfuncYank a s

/-- What it does to the lists. -/
def spec (a : Answers) (v : LineView) : EditorOp → LineView
  | .insert str => v.insert str.octets
  | .deleteString start stop => v.delete start stop
  | .cut start stop => v.cutOut a.memory.cut start stop
  | .forward num =>
      if num ≤ v.line.after.length then v.moveTo (v.line.before.length + num) else v
  | .backward num =>
      if num ≤ v.line.before.length then v.moveTo (v.line.before.length - num) else v
  | .moveto index => v.moveTo index
  | .forwardChar => v.moveTo (v.line.before.length + 1)
  | .backwardChar => v.moveTo (v.line.before.length - 1)
  | .moveToBegin => v.moveTo 0
  | .moveToEnd => v.moveTo v.line.text.length
  | .deleteChar => v.delete v.line.before.length (v.line.before.length + 1)
  | .backspace => v.delete (v.line.before.length - 1) v.line.before.length
  | .killLine => v.cutOut a.memory.cut v.line.before.length v.line.text.length
  | .killAll => v.cutOut a.memory.cut 0 v.line.text.length
  | .yank => v.yank

/-- What is asserted of the arguments; after an escape, a backspace would delete a word. -/
def Legal (escape : Bool) (v : LineView) : EditorOp → Prop
  | .deleteString start stop => start ≤ stop ∧ stop ≤ v.line.text.length
  | .cut start stop => start ≤ stop ∧ stop ≤ v.line.text.length
  | .moveto index => index ≤ v.line.text.length
  | .backspace => escape = false
  | _ => True

/-- The memory a longer line needs is given. -/
def Granted (a : Answers) (s : Shell) (v : LineView) : EditorOp → Prop
  | .insert str => a.memory.Grows s.size (v.line.text.length + str.octets.length + 1)
  | .yank => ∀ cut, v.cut = some cut →
      a.memory.Grows s.size (v.line.text.length + cut.length + 1)
  | _ => True

end EditorOp

/-- The shell becomes one that has this view, and nothing but the editor in it changes. -/
def Shell.EditedTo (s : Shell) (r : Except Stop Shell) (v : LineView) : Prop :=
  ∃ e, r = .ok { s with toEditor := e } ∧ e.Views v

namespace Line

variable (l : Line)

theorem moveTo_beyond {i : Nat} (hi : l.text.length ≤ i) : l.moveTo i = l.moveTo l.text.length := by
  simp [moveTo, ofText, hi, List.take_of_length_le hi]

theorem moveTo_end (last : l.after = []) : l.moveTo l.text.length = l := by
  have here := l.moveTo_self
  rw [length_text, last]
  exact here

theorem delete_beyond (last : l.after = []) :
    l.delete l.before.length (l.before.length + 1) = l := by
  cases l
  cases last
  simp [delete, text]

theorem delete_nothing (first : l.before = []) :
    l.delete (l.before.length - 1) l.before.length = l := by
  cases l
  cases first
  simp [delete, text]

end Line

theorem Shell.EditedTo.of_editM {s : Shell} {f : Editor → Except Stop Editor} {v : LineView}
    (done : ∃ e, f s.toEditor = .ok e ∧ e.Views v) : s.EditedTo (s.editM f) v := by
  obtain ⟨e, ran, views⟩ := done
  exact ⟨e, editM_ok ran, views⟩

/-- An edit that is made after another one. -/
theorem Shell.EditedTo.of_edit {s : Shell} {g : Editor → Editor} {f : Editor → Except Stop Editor}
    {v : LineView} (done : ∃ e, f (g s.toEditor) = .ok e ∧ e.Views v) :
    s.EditedTo ((s.edit g).editM f) v := by
  obtain ⟨e, ran, views⟩ := done
  exact ⟨e, editM_ok (s := s.edit g) ran, views⟩

namespace Editor.Views

variable {s : Shell} {v : LineView} (h : s.toEditor.Views v) (a : Answers)

include h

theorem same : s.EditedTo (.ok s) v := ⟨s.toEditor, rfl, h⟩

theorem forwardChar :
    s.EditedTo (.ok (shellKeyfuncForwardChar s)) (v.moveTo (v.line.before.length + 1)) := by
  have moved := h.forward 1
  refine ⟨_, rfl, ?_⟩
  split at moved
  · exact moved
  · next beyond =>
      have last : v.line.after = [] := by
        rw [← List.length_eq_zero_iff]
        omega
      have length : v.line.text.length = v.line.before.length := by
        rw [v.line.length_text, last]
        rfl
      rw [LineView.moveTo, v.line.moveTo_beyond (by omega), v.line.moveTo_end last]
      exact moved

theorem backwardChar :
    s.EditedTo (.ok (shellKeyfuncBackwardChar s)) (v.moveTo (v.line.before.length - 1)) := by
  have moved := h.backward 1
  refine ⟨_, rfl, ?_⟩
  split at moved
  · exact moved
  · next first =>
      have start : v.line.before.length - 1 = v.line.before.length := by omega
      rw [LineView.moveTo, start, v.line.moveTo_self]
      exact moved

theorem moveToBegin : s.EditedTo (.ok (shellKeyfuncMoveToBegin s)) (v.moveTo 0) := by
  have moved := h.backward v.line.before.length
  rw [if_pos le_rfl, Nat.sub_self, ← h.holds.cursor] at moved
  exact ⟨_, rfl, moved⟩

theorem moveToEnd : s.EditedTo (.ok (shellKeyfuncMoveToEnd s)) (v.moveTo v.line.text.length) := by
  have moved := h.forward v.line.after.length
  have behind : s.lineEnd - s.cursor = (v.line.after.length : Nat) := by
    rw [h.holds.lineEnd, h.holds.cursor, v.line.length_text]
    omega
  rw [if_pos le_rfl, ← v.line.length_text, ← behind] at moved
  exact ⟨_, rfl, moved⟩

theorem deleteChar : s.EditedTo (shellKeyfuncDeleteChar s)
    (v.delete v.line.before.length (v.line.before.length + 1)) := by
  have bound := v.line.length_text
  rw [shellKeyfuncDeleteChar, h.holds.cursor, h.holds.lineEnd]
  split
  · next before =>
      apply Shell.EditedTo.of_editM
      rw [← Nat.cast_succ]
      exact h.deleteString (by omega) (by omega)
  · next behind =>
      have last : v.line.after = [] := by
        rw [← List.length_eq_zero_iff]
        omega
      rw [LineView.delete, v.line.delete_beyond last]
      exact h.same

theorem backspace (plain : s.flagEscape = false) : s.EditedTo (shellKeyfuncBackspace a s)
    (v.delete (v.line.before.length - 1) v.line.before.length) := by
  have bound := v.line.length_text
  rw [shellKeyfuncBackspace, h.holds.cursor]
  split
  · next start =>
      have first : v.line.before = [] := by
        rw [← List.length_eq_zero_iff]
        omega
      rw [LineView.delete, v.line.delete_nothing first]
      exact h.same
  · next inside =>
      have moved := h.backward 1
      rw [if_pos (by omega), Nat.cast_one] at moved
      have here : (shellBackward 1 s.toEditor).cursor = (v.line.before.length - 1 : Nat) := by
        rw [moved.holds.cursor, LineView.moveTo, Line.moveTo, Line.length_before_ofText (by omega)]
      have text : (v.moveTo (v.line.before.length - 1)).line.text = v.line.text :=
        v.line.text_moveTo _
      have deleted := moved.deleteString (a := v.line.before.length - 1) (b := v.line.before.length)
        (by omega) (by rw [text]; omega)
      have same : (v.moveTo (v.line.before.length - 1)).delete (v.line.before.length - 1)
          v.line.before.length = v.delete (v.line.before.length - 1) v.line.before.length := by
        rw [LineView.delete, LineView.delete, Line.delete, text]
        rfl
      rw [if_neg (by simp [plain])]
      apply Shell.EditedTo.of_edit
      have next : (v.line.before.length : Int) = (v.line.before.length - 1 : Nat) + 1 := by omega
      change ∃ e, shellDeleteString (shellBackward 1 s.toEditor).cursor
        ((shellBackward 1 s.toEditor).cursor + 1) (shellBackward 1 s.toEditor) = _ ∧ _
      rw [here, ← next, ← same]
      exact deleted

theorem killLine : s.EditedTo (shellKeyfuncKillLine a s)
    (v.cutOut a.memory.cut v.line.before.length v.line.text.length) := by
  have bound := v.line.length_text
  apply Shell.EditedTo.of_editM
  obtain ⟨e, done, views, -⟩ := h.cutOut a.memory (a := v.line.before.length) (by omega) le_rfl
  rw [h.holds.cursor, h.holds.lineEnd]
  exact ⟨e, done, views⟩

theorem killAll :
    s.EditedTo (shellKeyfuncKillAll a s) (v.cutOut a.memory.cut 0 v.line.text.length) := by
  have moved := h.backward v.line.before.length
  rw [if_pos le_rfl, Nat.sub_self, ← h.holds.cursor] at moved
  have text : (v.moveTo 0).line.text = v.line.text := v.line.text_moveTo 0
  have same : (v.moveTo 0).cutOut a.memory.cut 0 v.line.text.length =
      v.cutOut a.memory.cut 0 v.line.text.length := by
    rw [LineView.cutOut, LineView.cutOut, LineView.removed, LineView.removed, Line.delete, text]
    split
    · next empty =>
        have start : v.line.before.length = 0 := by
          have bound := v.line.length_text
          omega
        have here := v.line.moveTo_self
        rw [start] at here
        rw [LineView.moveTo, here]
    · rfl
  obtain ⟨e, done, views, -⟩ := moved.cutOut a.memory (Nat.zero_le _) le_rfl
  rw [text, same] at views
  apply Shell.EditedTo.of_edit
  refine ⟨e, ?_, views⟩
  rw [text] at done
  change shellCut a.memory 0 (shellBackward s.cursor s.toEditor).lineEnd _ = _
  rw [moved.holds.lineEnd, text]
  exact done

/-- Inserting what was cut out, if there is something. -/
theorem yank :
    ((EditorOp.yank).Granted a s v → s.EditedTo (shellKeyfuncYank a s) v.yank) ∧
      (¬(EditorOp.yank).Granted a s v → shellKeyfuncYank a s = .error .noMemory) := by
  have cut := h.cut
  rw [shellKeyfuncYank, LineView.yank]
  cases stored : s.cutBuffer with
  | none =>
      rw [stored] at cut
      simp [← cut, EditorOp.Granted, h.same]
  | some c =>
      rw [stored, Option.map_some] at cut
      obtain ⟨returns, stops⟩ := h.insert a.memory c
      have granted : (EditorOp.yank).Granted a s v ↔
          a.memory.Grows s.size (v.line.text.length + c.octets.length + 1) := by
        simp [EditorOp.Granted, ← cut]
      rw [granted, ← cut]
      constructor
      · intro grows
        exact .of_editM (returns grows)
      · intro refused
        dsimp only
        rw [Shell.editM, stops refused]
        rfl

end Editor.Views

/-- One operation: it does what is said of the lists where memory is given, and ends the program
    where it is not. -/
theorem EditorOp.run_spec (op : EditorOp) {a : Answers} {s : Shell} {v : LineView}
    (h : s.toEditor.Views v) (legal : op.Legal s.flagEscape v) :
    (op.Granted a s v → s.EditedTo (op.run a s) (op.spec a v)) ∧
      (¬op.Granted a s v → op.run a s = .error .noMemory) := by
  have always : op.Granted a s v → s.EditedTo (op.run a s) (op.spec a v) →
      (op.Granted a s v → s.EditedTo (op.run a s) (op.spec a v)) ∧
        (¬op.Granted a s v → op.run a s = .error .noMemory) :=
    fun granted done => ⟨fun _ => done, fun refused => absurd granted refused⟩
  cases op with
  | insert str =>
      obtain ⟨returns, stops⟩ := h.insert a.memory str
      refine ⟨fun grows => .of_editM (returns grows), fun refused => ?_⟩
      rw [run, Shell.editM, stops refused]
      rfl
  | deleteString start stop => exact always trivial (.of_editM (h.deleteString legal.1 legal.2))
  | cut start stop =>
      obtain ⟨e, done, views, -⟩ := h.cutOut a.memory legal.1 legal.2
      exact always trivial (.of_editM ⟨e, done, views⟩)
  | forward num => exact always trivial ⟨_, rfl, h.forward num⟩
  | backward num => exact always trivial ⟨_, rfl, h.backward num⟩
  | moveto index => exact always trivial (.of_editM (h.moveTo legal))
  | forwardChar => exact always trivial h.forwardChar
  | backwardChar => exact always trivial h.backwardChar
  | moveToBegin => exact always trivial h.moveToBegin
  | moveToEnd => exact always trivial h.moveToEnd
  | deleteChar => exact always trivial h.deleteChar
  | backspace => exact always trivial (h.backspace a legal)
  | killLine => exact always trivial (h.killLine a)
  | killAll => exact always trivial (h.killAll a)
  | yank => exact h.yank a

/-- What is cut out and yanked is where it was, and the cursor behind it. The buffer that held
    the line holds it again, so that no memory is asked for. -/
theorem cut_yank {a : Answers} {s : Shell} {v : LineView} (h : s.toEditor.Views v)
    {start stop : Nat} (nonempty : start < stop) (inside : stop ≤ v.line.text.length)
    (given : a.memory.cut = true) :
    ∃ s₁ : Shell, (EditorOp.cut start stop).run a s = .ok s₁ ∧
      s₁.toEditor.Views ⟨v.line.delete start stop, some (v.removed start stop)⟩ ∧
        ∀ a', s₁.EditedTo ((EditorOp.yank).run a' s₁)
          ⟨v.line.moveTo stop, some (v.removed start stop)⟩ := by
  obtain ⟨e, done, views, size⟩ := h.cutOut a.memory nonempty.le inside
  rw [LineView.cutOut, if_neg nonempty.ne, given, if_pos rfl] at views
  refine ⟨{ s with toEditor := e }, Shell.editM_ok done, views, ?_⟩
  intro a'
  have removed : (v.removed start stop).length = stop - start := by
    rw [LineView.removed, List.length_take, List.length_drop]
    omega
  have left : (v.line.delete start stop).text.length = v.line.text.length - (stop - start) := by
    rw [Line.delete, Line.text, List.length_append, List.length_take, List.length_drop]
    omega
  have room := h.holds.room
  have fits : (EditorOp.yank).Granted a' { s with toEditor := e }
      ⟨v.line.delete start stop, some (v.removed start stop)⟩ := by
    rintro cut ⟨⟩
    apply Memory.grows_of_le
    · change 0 < e.size
      omega
    · change _ ≤ e.size
      rw [left, removed]
      omega
  have whole : (v.line.delete start stop).insert (v.removed start stop) = v.line.moveTo stop := by
    have split : v.line.text.take stop = v.line.text.take start ++ v.removed start stop := by
      rw [LineView.removed, ← List.take_add, Nat.add_sub_cancel' nonempty.le]
    rw [Line.moveTo, Line.ofText, split]
    rfl
  rw [← whole]
  exact (views.yank (s := { s with toEditor := e }) a').1 fits

/-- With a terminal attached, every function of the editor does what is said of the lists; an
    insertion ends the program exactly where the memory it needs is not given. What is cut out
    and yanked restores the line, with the cursor behind it. -/
theorem editor_refines (a : Answers) (s : Shell) (v : LineView) (h : s.toEditor.Views v) :
    (∀ op : EditorOp, op.Legal s.flagEscape v →
      (op.Granted a s v → s.EditedTo (op.run a s) (op.spec a v)) ∧
        (¬op.Granted a s v → op.run a s = .error .noMemory)) ∧
    ∀ start stop : Nat, start < stop → stop ≤ v.line.text.length → a.memory.cut = true →
      ∃ s₁ : Shell, (EditorOp.cut start stop).run a s = .ok s₁ ∧
        s₁.toEditor.Views ⟨v.line.delete start stop, some (v.removed start stop)⟩ ∧
          ∀ a', s₁.EditedTo ((EditorOp.yank).run a' s₁)
            ⟨v.line.moveTo stop, some (v.removed start stop)⟩ :=
  ⟨fun op legal => op.run_spec h legal, fun _ _ => cut_yank h⟩

theorem freshShell_views (binds : List (Byte × Keyfunc)) (writefd : Nat) :
    (freshShell binds writefd).toEditor.Views ⟨⟨[], []⟩, none⟩ := by
  refine ⟨freshShell_holds binds writefd, ?_⟩
  obtain ⟨keymap, fresh⟩ := freshShell_eq binds writefd
  rw [fresh]
  rfl

/-- A line of 29 octets in a block of 32, with the cursor behind `lcore`. -/
def workerLine : LineView :=
  ⟨⟨litString "set worker lcore ", litString " l2-repeater"⟩, none⟩

def workerShell : Shell := { freshShell [] 1 with
  commandLine := ByteMem.write (fun _ => 0) 0 workerLine.line.text
  cursor := 17
  lineEnd := 29 }

theorem workerShell_views : workerShell.toEditor.Views workerLine where
  holds := ⟨by decide, rfl, rfl, by decide, by decide, by decide, by decide, by decide⟩
  cut := rfl

/-- What is inserted in the middle of it asks for a larger block; what is cut out in front of the
    cursor is pasted again. -/
theorem editor_refines_worker :
    workerShell.EditedTo
      ((EditorOp.insert (.ofOctets (litString "1,2,3"))).run { Answers.silent with memory := .granted }
        workerShell)
      ⟨⟨litString "set worker lcore 1,2,3", litString " l2-repeater"⟩, none⟩ ∧
    ∃ s₁ : Shell, (EditorOp.cut 4 10).run { Answers.silent with memory := .granted } workerShell =
        .ok s₁ ∧
      s₁.toEditor.Views ⟨⟨litString "set ", litString " lcore  l2-repeater"⟩,
        some (litString "worker")⟩ ∧
      ∀ a', s₁.EditedTo ((EditorOp.yank).run a' s₁)
        ⟨⟨litString "set worker", litString " lcore  l2-repeater"⟩, some (litString "worker")⟩ := by
  obtain ⟨edits, cuts⟩ :=
    editor_refines { Answers.silent with memory := .granted } _ _ workerShell_views
  constructor
  · apply (edits (.insert (.ofOctets (litString "1,2,3"))) trivial).1
    exact Memory.grows_of_expands (fun _ => rfl) (by decide)
  · exact cuts 4 10 (by decide) (by decide) rfl

/-! ## Sequences of operations -/

namespace EditorOp

/-- The operations are called as they may be, one after another. -/
def LegalRun (escape : Bool) : LineView → List (Answers × EditorOp) → Prop
  | _, [] => True
  | v, (a, op) :: ops => op.Legal escape v ∧ LegalRun escape (op.spec a v) ops

def runAll (s : Shell) (ops : List (Answers × EditorOp)) : Except Stop Shell :=
  ops.foldlM (fun s op => op.2.run op.1 s) s

def specAll (v : LineView) (ops : List (Answers × EditorOp)) : LineView :=
  ops.foldl (fun v op => op.2.spec op.1 v) v

/-- What a sequence of operations leaves is what it leaves of the lists; no assertion fails. -/
theorem runAll_spec {s : Shell} {v : LineView} (h : s.toEditor.Views v)
    (ops : List (Answers × EditorOp)) (legal : LegalRun s.flagEscape v ops) :
    Ensures (runAll s ops) .assertion fun s' => s'.toEditor.Views (specAll v ops) := by
  induction ops generalizing s v with
  | nil => exact .ok h
  | cons first ops ih =>
      obtain ⟨a, op⟩ := first
      obtain ⟨returns, stops⟩ := op.run_spec (a := a) h legal.1
      by_cases granted : op.Granted a s v
      · obtain ⟨e, ran, views⟩ := returns granted
        have rest := ih (s := { s with toEditor := e }) views legal.2
        rw [runAll, List.foldlM_cons, ran]
        exact rest
      · rw [runAll, List.foldlM_cons, stops granted]
        exact .error (by decide)

end EditorOp

end Sdplane
