import Sdplane.Misc.Simulates
import Sdplane.Zcmdsh.History
import Sdplane.Zcmdsh.Normal
import Sdplane.Zcmdsh.WordBracket

/-!
# The prompt

What a reader of the console knows of its shell: the line that is edited and what was cut out of
it, the lines that were executed and how far back they are browsed. `Prompt.press` is what the
functions of the keys (`lib/zcmdsh/shell_keyfunc.c:152-347`, `command_shell.c:95-153` and
`655-724`) do to these lists; a shell that shows a prompt shows the one that a key makes of it
afterwards, unless memory is short.
-/

namespace Sdplane

/-! ## Views of a line -/

/-- Where the word functions that go backward go to. -/
def wordBack (t : List Byte) (c : Nat) : Nat :=
  let tokens := strsepTokens shellWordDelimitersSub t
  if headAt c tokens = c then prevLoop c 0 0 tokens else (headAt c tokens).toNat

theorem wordEnd_le {t : List Byte} {c : Nat} (hc : c ≤ t.length) : wordEnd t c ≤ t.length := by
  rcases wordHead_wordEnd_cases hc with ⟨-, -, run⟩ | ⟨-, -, stop⟩
  · exact run.inside
  · rwa [stop]

/-- The line without its comment, and the cursor at its end at most. -/
def Line.uncommented (l : Line) : Line :=
  .ofText (withoutComment l.text) (min l.before.length (withoutComment l.text).length)

namespace LineView

variable (v : LineView)

/-- What `shell_format` makes of it, if it gets its memory. -/
def formatted (granted : Bool) : LineView := if granted then { v with line := v.line.format } else v

def emptied : LineView := { v with line := ⟨[], []⟩ }

def uncommented : LineView := { v with line := v.line.uncommented }

end LineView

namespace Editor

variable {e : Editor} {v : LineView}

theorem Holds.wordBackward_eq {l : Line} (h : e.Holds l) :
    wordBackward e = .ok ((wordBack l.text l.before.length : Nat), e) ∧
      wordBack l.text l.before.length ≤ l.before.length := by
  have inside : l.before.length ≤ l.text.length := l.length_before_le
  obtain ⟨i, hi, head⟩ := headAt_bounds l.before.length shellWordDelimitersSub l.text
  have subword := h.withTokens_spec shellWordDelimitersSub
    (headAt (l.before.length : Nat)) inside
  rw [head] at subword
  rw [wordBackward, wordBack, shellSubwordHead, h.cursor, subword, head]
  change (if (i : Int) = e.cursor then shellSubwordPrevHead e.cursor e else .ok ((i : Nat), e)) =
    _ ∧ _
  rw [h.cursor]
  split
  · rw [shellSubwordPrevHead, h.withTokens_spec _ _ inside, Int.toNat_natCast]
    exact ⟨rfl, prevLoop_le (Nat.zero_le _) (Nat.zero_le _)⟩
  · rw [Int.toNat_natCast]
    exact ⟨rfl, hi⟩

theorem Holds.shellWordNextHead_eq {l : Line} (h : e.Holds l) {c : Nat} (hc : c ≤ l.text.length) :
    shellWordNextHead c e = .ok ((wordNextHead l.text c : Nat), e) := by
  rw [shellWordNextHead, h.withTokens_spec _ _ hc, Int.toNat_natCast, shellWordDelimiters,
    strsepTokens_singleton, wordNextHead, h.lineEnd]
  cases nextLoop c false 0 (l.text.splitOn space) <;> rfl

namespace Views

variable (h : e.Views v)

include h

theorem writeFd (bs : List Byte) : (e.writeFd bs).Views v := h.of_becomes (h.holds.writeFd bs)

theorem format (mem : Memory) : (shellFormat mem e).Views (v.formatted mem.format) := by
  cases given : mem.format with
  | false =>
      rw [shellFormat_unchanged given]
      exact h
  | true => exact h.of_becomes (h.holds.shellFormat_spec given)

theorem clear : (shellClear e).Views v.emptied := h.of_becomes h.holds.shellClear_spec

theorem cutComment : (cutComment e).Views v.uncommented where
  holds := h.holds.cutComment
  cut := by
    have kept : (Sdplane.cutComment e).cutBuffer = e.cutBuffer := by
      rw [Sdplane.cutComment]
      split <;> rfl
    rw [kept]
    exact h.cut

/-- The cursor is put at the end of the line. -/
theorem atEnd : { e with cursor := e.lineEnd }.Views (v.moveTo v.line.text.length) where
  holds := by
    have moved := h.holds.moved le_rfl
    rwa [← h.holds.lineEnd] at moved
  cut := h.cut

theorem cursor_eq_lineEnd : e.cursor = e.lineEnd ↔ v.line.after = [] := by
  rw [h.holds.cursor, h.holds.lineEnd, v.line.length_text, ← List.length_eq_zero_iff]
  omega

end Views

end Editor

/-! ## The prompt -/

/-- The lines that can be recalled, the last one first, and what was not copied between them. -/
def recentLines (recorded : List (Option CString)) : List (Option CString) :=
  recorded.reverse.take (historySize - 1)

/-- The line and what was cut out, the lines executed so far and which of them were copied, how far
    back they are browsed, what the keys are bound to, the keymap of the next one and whether it is
    escaped, whether the shell was left or its input has ended, and whether a pager runs. -/
structure Prompt where
  view : LineView
  lines : List CString
  recorded : List (Option CString)
  back : Nat
  normal : Byte → Option Keyfunc
  keymap : Keymap
  escape : Bool
  exited : Bool
  closed : Bool
  paging : Bool

namespace Prompt

variable (a : Answers) (p : Prompt)

/-- An empty prompt, where the keys are bound to this. -/
def fresh (normal : Byte → Option Keyfunc) : Prompt :=
  ⟨⟨⟨[], []⟩, none⟩, [], [], 0, normal, .normal, false, false, false, false⟩

/-- `shell_running`. -/
def running : Bool := !(p.exited || p.closed)

/-- The function of a key. -/
def keyfunc (ch : Byte) : Option Keyfunc :=
  Shell.keyfunc { shellCreate with keymap := p.keymap, keymapNormal := p.normal } ch

def edit (op : EditorOp) : Prompt := { p with view := op.spec a p.view }

def emptied : Prompt := { p with view := p.view.emptied }

/-- The word in front of the cursor is cut out. -/
def deleteWord : Prompt :=
  p.edit a (.cut (wordBack p.view.line.text p.view.line.before.length) p.view.line.before.length)

/-- The line `k + 1` steps back becomes the command line, if there is one. -/
def revisit (k : Nat) : Prompt :=
  match (recentLines p.recorded)[k]?.join with
  | some line => { p with view := { p.view with line := ⟨line.octets, []⟩ }, back := k + 1 }
  | none => p

/-- What is answered goes behind the word. -/
def complete : Prompt :=
  let p := p.edit a (.moveto (wordEnd p.view.line.text p.view.line.before.length))
  match a.completion with
  | some completion => p.edit a (.insert completion)
  | none => p

/-- What the function of a key does. A line is executed in `Prompt.execute`; the functions of telnet
    are not installed. -/
def press (ch : Byte) : Keyfunc → Prompt
  | .forwardChar => p.edit a .forwardChar
  | .backwardChar => p.edit a .backwardChar
  | .moveToBegin => p.edit a .moveToBegin
  | .moveToEnd => p.edit a .moveToEnd
  | .deleteChar => p.edit a .deleteChar
  -- with nothing in front of the cursor, what was cut out is not forgotten
  | .backspace =>
      if p.escape ∧ p.view.line.before ≠ [] then p.deleteWord a else p.edit a .backspace
  | .killLine => p.edit a .killLine
  | .killAll => p.edit a .killAll
  | .yank => p.edit a .yank
  | .insertTab => p.edit a (.insert tabString)
  | .inputChar => p.edit a (.insert (.ofOctets [ch]))
  | .deleteWordBackward => p.deleteWord a
  | .deleteCharAdvanced =>
      if p.view.line.after = [] then p.edit a .backspace else p.edit a .deleteChar
  | .clearScreen | .refresh => { p with view := p.view.formatted a.memory.format }
  | .emptyEnter => p.emptied
  | .completion => p.complete a
  | .lsCandidate =>
      if p.view.line.after = [] then p
      else { p with view := (p.view.moveTo p.view.line.text.length).formatted a.memory.format }
  | .historyPrev => p.revisit p.back
  | .historyNext => if 2 ≤ p.back then p.revisit (p.back - 2) else p
  | .escape => { p with escape := true }
  | .vtyNormal => { p with keymap := .normal }
  | .vtyMoveWordBackward =>
      { p.edit a (.moveto (wordBack p.view.line.text p.view.line.before.length)) with
        keymap := .normal }
  | .vtyMoveWordForward =>
      { p.edit a (.moveto (wordNextHead p.view.line.text p.view.line.before.length)) with
        keymap := .normal }
  | .vtyDeleteWordBackward => { p.deleteWord a with keymap := .normal }
  | .vtyEscape1 => { p with keymap := .escape1 }
  | .vtyEscape2 => { p with keymap := .escape2 }
  | _ => p

end Prompt

/-- Memory is given for the line and for the history, and the line fits into a block whose size is
    an `int`. -/
def Enough (a : Answers) (p : Prompt) : Prop :=
  (∀ n, (a.memory.expand n).isSome = true) ∧ a.memory.history = true ∧
    p.view.line.text.length + 1 ≤ 2 ^ 30

/-! ## The shell shows it -/

/-- What is recorded and how far back it is browsed. -/
def Browses (history : Option CommandHistory) (lines : List (Option CString)) (d : Nat) : Prop :=
  match history with
  | none => lines = [] ∧ d = 0
  | some h => h.Records lines d

/-- What is bound to a key where telnet is not installed, but for what executes a line. -/
def Keyfunc.atPrompt (f : Keyfunc) : Bool := !(f.telnet || f = .execute)

/-- The shell between two keys. -/
structure Shell.Shows (s : Shell) (p : Prompt) : Prop where
  views : s.toEditor.Views p.view
  history : Browses s.history p.recorded p.back
  keymapNormal : s.keymapNormal = p.normal
  plain : ∀ ch, (p.normal ch).all (fun f => f.atPrompt || f = .execute) = true
  keymap : s.keymap = p.keymap
  typing : p.keymap.typing = true
  escape : s.flagEscape = p.escape
  exit : s.flagExit = p.exited
  close : s.flagClose = p.closed
  paging : s.isPaging = p.paging

theorem Browses.add {history : Option CommandHistory} {lines : List (Option CString)} {d : Nat}
    (h : Browses history lines d) (m : Memory) (line : CString) :
    ReturnsGiven (commandHistoryAdd m line history) .noMemory (m.history = true)
      fun h' => Browses (some h') (lines ++ [m.recorded line]) 0 := by
  cases history with
  | some h' => exact .of_ok (CommandHistory.Records.add h m line)
  | none =>
      obtain ⟨rfl, -⟩ := h
      by_cases given : m.history = true
      · exact .of_ok (commandHistoryAdd_first line given)
      · refine .inr ⟨?_, given⟩
        rw [commandHistoryAdd, if_pos ⟨rfl, given⟩]

/-! ### Recalling -/

/-- The line `k + 1` steps back is recalled, if there is one. -/
def recallLine (a : Answers) (h : CommandHistory) (lines : List (Option CString)) (k : Nat)
    (s : Shell) : Except Stop Shell :=
  match (recentLines lines)[k]?.join with
  | none => .ok s
  | some line => do
      let s ← s.editM (shellDeleteString 0 s.lineEnd)
      let s ← s.editM (shellInsert a.memory line)
      .ok { s with
        history := some { h with current := Ring.back historySize (historyNext h.last) (k + 1) } }

namespace CommandHistory.Records

variable {h : CommandHistory} {lines : List (Option CString)} {d : Nat}
  (records : h.Records lines d) {s : Shell} (browsed : s.history = some h) (a : Answers)

include records

/-- The slot `k + 1` steps behind the hole. -/
theorem slot_eq {k : Nat} (inside : k + 1 < historySize) :
    h.array (Ring.back historySize (historyNext h.last) (k + 1)) =
      (recentLines lines)[k]?.join := by
  rw [records.ring.slot k inside, recentLines, List.getElem?_take_of_lt (by omega)]

include browsed

theorem prev_eq : commandHistoryPrev a s = recallLine a h lines d s := by
  have inside := records.inside
  have hole_lt := records.ring.hole_lt
  have start : historyNext (historyNext h.last) =
      Ring.back historySize (historyNext h.last) (historySize - 1) := Ring.next_eq_back hole_lt
  have wrapping : h.current = historyNext (historyNext h.last) ↔ d = historySize - 1 := by
    rw [start, records.current]
    exact Ring.back_inj (by omega) (by decide)
  rw [commandHistoryPrev, browsed]
  dsimp only
  by_cases wrapped : d = historySize - 1
  · have beyond : (recentLines lines)[d]? = none := by
      rw [List.getElem?_eq_none_iff, recentLines, List.length_take]
      omega
    rw [if_pos (wrapping.mpr wrapped), recallLine, beyond, Option.join_none]
  · have back : historyPrev h.current = Ring.back historySize (historyNext h.last) (d + 1) := by
      rw [records.current]
      exact Ring.prev_back hole_lt (by omega)
    rw [if_neg (mt wrapping.mp wrapped), back, records.slot_eq (by omega)]
    rfl

/-- What is browsed is one step behind the line it shows. -/
theorem next_eq : commandHistoryNext a s =
    if 2 ≤ d then recallLine a h lines (d - 2) s else .ok s := by
  have inside := records.inside
  have hole_lt := records.ring.hole_lt
  rw [commandHistoryNext, browsed]
  dsimp only
  rcases Nat.eq_zero_or_pos d with rfl | pos
  · have floor : h.current = historyNext h.last := by rw [records.current, Ring.back_zero]
    rw [if_pos floor, if_neg (by omega)]
  · have floor : h.current ≠ historyNext h.last := by
      have apart : Ring.back historySize (historyNext h.last) d =
          Ring.back historySize (historyNext h.last) 0 ↔ d = 0 :=
        Ring.back_inj (by omega) (by decide)
      rw [records.current]
      rw [Ring.back_zero] at apart
      exact mt apart.mp (by omega)
    have forward : historyNext h.current =
        Ring.back historySize (historyNext h.last) (d - 1) := by
      rw [records.current, show d = d - 1 + 1 by omega]
      exact Ring.next_back hole_lt (by omega)
    rw [if_neg floor, forward]
    by_cases more : 2 ≤ d
    · rw [if_pos more, show d - 1 = d - 2 + 1 by omega, records.slot_eq (by omega)]
      rfl
    · rw [if_neg more, show d - 1 = 0 by omega, Ring.back_zero, records.ring.empty]

end CommandHistory.Records

/-! ### The functions of the keys -/

/-- A longer line fits. -/
theorem Enough.granted {a : Answers} {p : Prompt} {op : EditorOp} (enough : Enough a (p.edit a op))
    (s : Shell) : op.Granted a s p.view := by
  obtain ⟨given, -, short⟩ := enough
  cases op with
  | insert str =>
      apply Memory.grows_of_expands given
      simp only [Prompt.edit, EditorOp.spec, LineView.insert, Line.text_insert, List.length_append]
        at short
      rw [p.view.line.length_text]
      omega
  | yank =>
      intro cut some
      apply Memory.grows_of_expands given
      simp only [Prompt.edit, EditorOp.spec, LineView.yank, some, LineView.insert, Line.text_insert,
        List.length_append] at short
      rw [p.view.line.length_text]
      omega
  | _ => trivial

namespace Shell.Shows

variable {s : Shell} {p : Prompt} (h : s.Shows p) (a : Answers)

include h

theorem written (bs : List Byte) : (s.written bs).Shows p := { h with views := h.views.writeFd bs }

theorem fprintf (bs : List Byte) : (s.fprintf bs).Shows p := { h with }

theorem fflush : s.fflush.Shows p := { h with views := h.views.writeFd s.buffered }

theorem normal : (vtyShellKeyfuncNormal s).Shows { p with keymap := .normal } :=
  { h with keymap := rfl, typing := rfl }

theorem format : (s.edit (shellFormat a.memory)).Shows
    { p with view := p.view.formatted a.memory.format } :=
  { h with views := h.views.format a.memory }

theorem refresh : ∃ s', shellRefresh a s = .ok s' ∧ s'.Shows p :=
  ⟨_, shellRefresh_spec h.views.holds a, h.written _⟩

theorem clearPrompt : (shellPrompt (s.edit shellClear)).Shows p.emptied := by
  have cleared : (s.edit shellClear).Shows p.emptied := { h with views := h.views.clear }
  rw [shellPrompt_spec cleared.views.holds]
  exact cleared.written _

theorem clearPromptRefresh :
    ∃ s', clearPromptRefresh a s = .ok s' ∧ s'.Shows p.emptied :=
  h.clearPrompt.refresh a

theorem op (op : EditorOp) (legal : op.Legal p.escape p.view) :
    ReturnsGiven (op.run a s) .noMemory (Enough a (p.edit a op)) (·.Shows (p.edit a op)) := by
  obtain ⟨returns, stops⟩ := op.run_spec (a := a) h.views (by rwa [h.escape])
  by_cases granted : op.Granted a s p.view
  · obtain ⟨e, ran, views⟩ := returns granted
    exact .of_ok ⟨_, ran, { h with views := views }⟩
  · exact .inr ⟨stops granted, fun enough => granted (enough.granted s)⟩

/-- An operation that asks for no memory. -/
theorem opReturns (op : EditorOp) (legal : op.Legal p.escape p.view)
    (granted : op.Granted a s p.view) : ∃ s', op.run a s = .ok s' ∧ s'.Shows (p.edit a op) := by
  obtain ⟨e, ran, views⟩ := (op.run_spec (a := a) h.views (by rwa [h.escape])).1 granted
  exact ⟨_, ran, { h with views := views }⟩

/-- A function of the editor that does what this operation does. -/
theorem editM {f : Editor → Except Stop Editor} (op : EditorOp) (legal : op.Legal p.escape p.view)
    (same : s.editM f = op.run a s) :
    ReturnsGiven (s.editM f) .noMemory (Enough a (p.edit a op)) (·.Shows (p.edit a op)) :=
  same ▸ h.op a op legal

theorem deleteWord : ReturnsGiven (s.editM (shellDeleteWordBackward a.memory)) .noMemory
    (Enough a (p.deleteWord a)) (·.Shows (p.deleteWord a)) := by
  obtain ⟨back, inside⟩ := h.views.holds.wordBackward_eq
  refine h.editM a (.cut _ _) ⟨inside, p.view.line.length_before_le⟩ ?_
  rw [Shell.editM, shellDeleteWordBackward, back, EditorOp.run, Shell.editM, ← h.views.holds.cursor]
  rfl

theorem backspace :
    let p' := p.press a s.inputch .backspace
    ReturnsGiven (shellKeyfuncBackspace a s) .noMemory (Enough a p') (·.Shows p') := by
  dsimp only [Prompt.press]
  by_cases escaped : p.escape = true ∧ p.view.line.before ≠ []
  · have inside : ¬s.cursor ≤ 0 := by
      have some := List.length_pos_of_ne_nil escaped.2
      rw [h.views.holds.cursor]
      omega
    rw [if_pos escaped, shellKeyfuncBackspace, if_neg inside, h.escape, if_pos escaped.1]
    exact h.deleteWord a
  · rw [if_neg escaped]
    by_cases plain : p.escape = false
    · exact h.op a .backspace plain
    · have first : p.view.line.before = [] := by simpa [plain] using escaped
      have start : s.cursor ≤ 0 := by simp [h.views.holds.cursor, first]
      rw [shellKeyfuncBackspace, if_pos start, Prompt.edit, EditorOp.spec, LineView.delete,
        p.view.line.delete_nothing first]
      exact .ok h

theorem moveWordBackward :
    let p' := p.edit a (.moveto (wordBack p.view.line.text p.view.line.before.length))
    ReturnsGiven (s.editM shellMoveWordBackward) .noMemory (Enough a p') (·.Shows p') := by
  obtain ⟨back, inside⟩ := h.views.holds.wordBackward_eq
  refine h.editM a (.moveto _) (inside.trans p.view.line.length_before_le) ?_
  rw [Shell.editM, shellMoveWordBackward, back]
  rfl

theorem moveWordForward :
    let p' := p.edit a (.moveto (wordNextHead p.view.line.text p.view.line.before.length))
    ReturnsGiven (s.editM shellMoveWordForward) .noMemory (Enough a p') (·.Shows p') := by
  refine h.editM a (.moveto _) (wordNextHead_le _ _) ?_
  rw [Shell.editM, shellMoveWordForward, h.views.holds.cursor,
    h.views.holds.shellWordNextHead_eq p.view.line.length_before_le]
  rfl

theorem moveWordEnd :
    let p' := p.edit a (.moveto (wordEnd p.view.line.text p.view.line.before.length))
    ∃ s', s.editM movetoWordEnd = .ok s' ∧ s'.Shows p' := by
  have inside := p.view.line.length_before_le
  obtain ⟨s', ran, shows⟩ := h.opReturns a (.moveto _) (wordEnd_le inside) trivial
  refine ⟨s', ?_, shows⟩
  rw [Shell.editM, movetoWordEnd, h.views.holds.cursor, h.views.holds.shellWordEnd_eq inside]
  exact ran

theorem complete : ReturnsGiven (commandShellCompletion a s) .noMemory (Enough a (p.complete a))
    (·.Shows (p.complete a)) := by
  obtain ⟨s₁, moved, shows⟩ := h.moveWordEnd a
  rw [commandShellCompletion, moved, Prompt.complete]
  cases a.completion with
  | none => exact .ok shows.fflush
  | some completion =>
      exact (shows.op a (.insert completion) trivial).bind fun s₂ shows₂ => .ok shows₂.fflush

theorem deleteCharAdvanced :
    let p' := p.press a s.inputch .deleteCharAdvanced
    ReturnsGiven (shellKeyfuncDeleteCharAdvanced s) .noMemory (Enough a p') (·.Shows p') := by
  have inside := p.view.line.length_before_le
  have behind := h.views.cursor_eq_lineEnd
  dsimp only [Prompt.press]
  rw [shellKeyfuncDeleteCharAdvanced]
  by_cases last : p.view.line.after = []
  · have ends : s.lineEnd = p.view.line.before.length := by
      rw [← behind.mpr last, h.views.holds.cursor]
    rw [if_neg (by rw [behind.mpr last]; exact lt_irrefl _), if_pos last, ends]
    split
    · next some =>
        obtain ⟨e, done, views⟩ := h.views.deleteString (Nat.sub_le _ 1) inside
        have one : (p.view.line.before.length : Int) - 1 = (p.view.line.before.length - 1 : Nat) := by
          omega
        rw [one]
        exact .of_ok ⟨_, Shell.editM_ok done, { h with views := views }⟩
    · next none =>
        have first : p.view.line.before = [] := by
          rw [← List.length_eq_zero_iff]
          omega
        rw [Prompt.edit, EditorOp.spec, LineView.delete, p.view.line.delete_nothing first]
        exact .ok h
  · have before : s.cursor < s.lineEnd := by
      have bound := p.view.line.length_text
      have some := List.length_pos_of_ne_nil last
      rw [h.views.holds.cursor, h.views.holds.lineEnd]
      omega
    rw [if_pos before, if_neg last]
    refine h.editM a .deleteChar trivial ?_
    rw [EditorOp.run, shellKeyfuncDeleteChar, if_pos before]

/-- The candidates are listed below the line. -/
theorem listCandidates : ∃ s', listCandidates a s = .ok s' ∧ s'.Shows p := by
  have head := h.views.holds.shellWordHead_eq p.view.line.length_before_le
  rw [Sdplane.listCandidates, h.views.holds.cursor, head]
  exact (((h.fprintf _).fprintf _).fprintf _).refresh a

theorem lsCandidate : ∃ s', commandShellLsCandidate a s = .ok s' ∧
    s'.Shows (p.press a s.inputch .lsCandidate) := by
  rw [commandShellLsCandidate, Prompt.press]
  by_cases last : p.view.line.after = []
  · rw [if_neg (not_not.mpr (h.views.cursor_eq_lineEnd.mpr last)), if_pos last]
    exact h.listCandidates a
  · rw [if_pos (mt h.views.cursor_eq_lineEnd.mp last), if_neg last]
    have moved : (s.edit fun e => { e with cursor := e.lineEnd }).Shows
        { p with view := p.view.moveTo p.view.line.text.length } := { h with views := h.views.atEnd }
    obtain ⟨s₁, shown, shows₁⟩ := moved.refresh a
    obtain ⟨s₂, again, shows₂⟩ :=
      ((shows₁.format a).fprintf (s₁.edit (shellFormat a.memory)).nl).refresh a
    obtain ⟨s₃, listed, shows₃⟩ := shows₂.listCandidates a
    refine ⟨s₃, ?_, shows₃⟩
    rw [shown]
    change (shellRefresh a (Shell.fprintf _ _) >>= _) = _
    rw [again]
    exact listed

theorem revisit {hist : CommandHistory} (records : hist.Records p.recorded p.back) {k : Nat}
    (near : k ≤ p.back) :
    ReturnsGiven (recallLine a hist p.recorded k s) .noMemory (Enough a (p.revisit k))
      (·.Shows (p.revisit k)) := by
  rw [recallLine, Prompt.revisit]
  cases recalled : (recentLines p.recorded)[k]?.join with
  | none => exact .ok h
  | some line =>
      have here := Option.join_eq_some_iff.mp recalled
      have inside : k < (recentLines p.recorded).length := (List.getElem?_eq_some_iff.mp here).1
      rw [recentLines, List.length_take, List.length_reverse] at inside
      obtain ⟨s₁, deleted, shows₁⟩ := h.opReturns a (.deleteString 0 p.view.line.text.length)
        ⟨Nat.zero_le _, le_rfl⟩ trivial
      have emptied : p.view.delete 0 p.view.line.text.length = p.view.emptied := by
        simp [LineView.delete, LineView.emptied, Line.delete]
      rw [Prompt.edit, EditorOp.spec, emptied] at shows₁
      have filled := shows₁.op a (.insert line) trivial
      have copied : ∀ i < k + 1, p.recorded.reverse[i]?.join.isSome = true := by
        intro i below
        rcases Nat.lt_succ_iff_lt_or_eq.mp below with before | rfl
        · exact records.copied i (by omega)
        · rw [recentLines, List.getElem?_take_of_lt (by omega)] at here
          rw [here]
          rfl
      have browse := records.browse (k := k + 1) (by omega) copied
      change Shell.editM (shellDeleteString 0 p.view.line.text.length) s = _ at deleted
      dsimp only
      rw [h.views.holds.lineEnd, deleted]
      exact filled.bind fun s₂ shows₂ => .ok { shows₂ with history := browse }

theorem revisit_nothing (none : s.history = none) (k : Nat) : p.revisit k = p := by
  have history := h.history
  rw [none] at history
  simp [Prompt.revisit, recentLines, history.1]

theorem historyPrev : ReturnsGiven (commandHistoryPrev a s) .noMemory (Enough a (p.revisit p.back))
    (·.Shows (p.revisit p.back)) := by
  have history := h.history
  cases browsed : s.history with
  | none =>
      rw [h.revisit_nothing browsed, commandHistoryPrev, browsed]
      exact .ok h
  | some hist =>
      rw [browsed] at history
      rw [history.prev_eq browsed]
      exact h.revisit a history le_rfl

theorem historyNext :
    let p' := p.press a s.inputch .historyNext
    ReturnsGiven (commandHistoryNext a s) .noMemory (Enough a p') (·.Shows p') := by
  have history := h.history
  dsimp only [Prompt.press]
  cases browsed : s.history with
  | none =>
      rw [h.revisit_nothing browsed, ite_self, commandHistoryNext, browsed]
      exact .ok h
  | some hist =>
      rw [browsed] at history
      rw [history.next_eq browsed]
      split
      · exact h.revisit a history (Nat.sub_le _ _)
      · exact .ok h

/-- A key that is not bound to the execution of a line does what is said of the prompt. -/
theorem run {f : Keyfunc} (atPrompt : f.atPrompt = true) :
    ReturnsGiven (f.run a s) .noMemory (Enough a (p.press a s.inputch f))
      (·.Shows (p.press a s.inputch f)) := by
  have normal : ∀ {r : Except Stop Shell} {p' : Prompt},
      ReturnsGiven r .noMemory (Enough a p') (·.Shows p') →
      ReturnsGiven (return vtyShellKeyfuncNormal (← r)) .noMemory
        (Enough a { p' with keymap := .normal }) (·.Shows { p' with keymap := .normal }) :=
    fun edited => edited.bind fun _ shows => .ok shows.normal
  cases f with
  | forwardChar => exact h.op a .forwardChar trivial
  | backwardChar => exact h.op a .backwardChar trivial
  | moveToBegin => exact h.op a .moveToBegin trivial
  | moveToEnd => exact h.op a .moveToEnd trivial
  | deleteChar => exact h.op a .deleteChar trivial
  | backspace => exact h.backspace a
  | killLine => exact h.op a .killLine trivial
  | killAll => exact h.op a .killAll trivial
  | yank => exact h.op a .yank trivial
  | insertTab => exact h.op a (.insert tabString) trivial
  | inputChar => exact h.op a (.insert (.ofOctets [s.inputch])) trivial
  | deleteWordBackward => exact h.deleteWord a
  | deleteCharAdvanced => exact h.deleteCharAdvanced a
  | clearScreen => exact .of_ok (((h.fprintf _).format a).refresh a)
  | refresh => exact .of_ok (((h.format a).fprintf _).refresh a)
  | emptyEnter => exact .ok ((h.fprintf _).clearPrompt.fflush)
  | completion => exact h.complete a
  | lsCandidate => exact .of_ok (h.lsCandidate a)
  | historyPrev => exact h.historyPrev a
  | historyNext => exact h.historyNext a
  | clearTerminal => exact .of_ok (((h.fprintf _).fflush).refresh a)
  | vtyNormal => exact .ok h.normal
  | vtyMoveWordBackward => exact normal (h.moveWordBackward a)
  | vtyMoveWordForward => exact normal (h.moveWordForward a)
  | vtyDeleteWordBackward => exact normal (h.deleteWord a)
  | vtyEscape1 | vtyEscape2 => exact .ok { h with keymap := rfl, typing := rfl }
  | escape => exact .ok { h with escape := rfl }
  | execute | iacStart | telnetOpt | telnetCmd | subnego | sbStart | sbEnd => cases atPrompt

end Shell.Shows

end Sdplane
