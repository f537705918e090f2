import Sdplane.Zcmdsh.Edits

/-!
# The invariant of the line editor

Whatever keys are bound to the functions of the shell and whatever is typed: the cursor stays
in the line and the line in its buffer, the first NUL is at the end of the line, and no
assertion fails. The program can end only for want of memory, or in the description of a
telnet subnegotiation.
-/

namespace Sdplane

/-! ## Showing the line -/

namespace Shell

variable {s : Shell} {l : Line}

/-- The shell once this was written and nothing is buffered. -/
def written (bs : List Byte) (s : Shell) : Shell :=
  { s with toEditor := s.toEditor.writeFd bs, buffered := [] }

/-- What `shell_prompt` writes. -/
def promptSent (s : Shell) : List Byte :=
  s.buffered ++ ((if s.flagInteractive then [carriageReturn] else []) ++ s.prompt)

/-- What the rest of `shell_refresh` writes for a line. -/
def lineSent (s : Shell) (l : Line) : List Byte :=
  s.promptSent ++ l.text ++ List.replicate l.after.length controlH

/-- What `shell_refresh` writes for a line. -/
def refreshSent (s : Shell) (a : Answers) (l : Line) : List Byte :=
  if s.flagDebug ∨ s.debugShell then
    s.buffered ++ (a.debugText ++ s.nl) ++ Shell.lineSent { s with buffered := [] } l
  else s.lineSent l

theorem writeFd_writeFd (e : Editor) (bs bs' : List Byte) :
    (e.writeFd bs).writeFd bs' = e.writeFd (bs ++ bs') := by
  rw [Editor.writeFd, Editor.writeFd, Editor.writeFd]
  by_cases terminal : 0 ≤ e.writefd
  · simp only [if_pos terminal, List.append_assoc]
  · simp only [if_neg terminal]

theorem edit_written (s : Shell) (bs bs' : List Byte) :
    (s.written bs).edit (·.writeFd bs') = s.written (bs ++ bs') := by
  rw [written, edit, writeFd_writeFd, written]

theorem written_written (s : Shell) (bs bs' : List Byte) :
    (s.written bs).written bs' = s.written (bs ++ bs') := by
  rw [written, written, writeFd_writeFd, written]

theorem shellPrompt_spec (h : s.toEditor.Holds l) : shellPrompt s = s.written s.promptSent := by
  have flag : s.fflush.flagInteractive = s.flagInteractive := rfl
  have flushed : s.fflush = s.written s.buffered := rfl
  rw [shellPrompt, if_neg (Int.not_lt.mpr h.terminal), promptSent]
  dsimp only
  rw [flag, flushed]
  by_cases interactive : s.flagInteractive = true
  · rw [if_pos interactive, if_pos interactive, edit_written, edit_written, List.append_assoc]
    rfl
  · rw [if_neg interactive, if_neg interactive, edit_written, List.nil_append]
    rfl

theorem shellDebug_spec (h : s.toEditor.Holds l) (a : Answers) :
    shellDebug a s = .ok (s.written (s.buffered ++ (a.debugText ++ s.nl))) := by
  have inside : l.before.length ≤ l.text.length := l.length_before_le
  obtain ⟨_, -, prev⟩ := h.shellWordPrevHead_spec inside
  obtain ⟨_, -, head⟩ := h.shellWordHead_spec inside
  obtain ⟨_, -, stop⟩ := h.shellWordEnd_spec inside
  rw [← h.cursor] at prev head stop
  have same : s.edit shellTerminate = s := by
    rw [edit, h.shellTerminate_spec]
  rw [shellDebug, same, prev]
  change (shellWordHead s.cursor s.toEditor >>= _) = _
  rw [head]
  change (shellWordEnd s.cursor s.toEditor >>= _) = _
  rw [stop]
  rfl

theorem showLine_spec (h : s.toEditor.Holds l) : showLine s = s.written (s.lineSent l) := by
  have held : (s.written s.promptSent).toEditor.Holds l := (h.writeFd s.promptSent).holds
  have same : (s.written s.promptSent).edit shellTerminate = s.written s.promptSent := by
    rw [edit, held.shellTerminate_spec]
  have all := held.stringAt (i := 0) (Nat.zero_le _)
  rw [Nat.cast_zero, List.drop_zero] at all
  have back : backspaces s.lineEnd s.cursor = List.replicate l.after.length controlH := by
    rw [backspaces, h.lineEnd, h.cursor, Int.toNat_sub, l.length_text, Nat.add_sub_cancel_left]
  rw [showLine, shellPrompt_spec h, same, all, edit_written]
  change (s.written (s.promptSent ++ l.text)).edit (·.writeFd (backspaces s.lineEnd s.cursor)) = _
  rw [back, edit_written, lineSent]

/-- A refresh only writes to the terminal. -/
theorem shellRefresh_spec (h : s.toEditor.Holds l) (a : Answers) :
    shellRefresh a s = .ok (s.written (s.refreshSent a l)) := by
  rw [shellRefresh, refreshSent]
  by_cases debug : s.flagDebug = true ∨ s.debugShell = true
  · rw [if_pos debug, if_pos debug, shellDebug_spec h a]
    have held : (s.written (s.buffered ++ (a.debugText ++ s.nl))).toEditor.Holds l :=
      (h.writeFd _).holds
    change Except.ok (showLine (s.written _)) = _
    rw [showLine_spec held, written_written]
    rfl
  · rw [if_neg debug, if_neg debug, ← showLine_spec h]
    rfl

end Shell

/-! ## The invariant -/

/-- The slot behind the last one is free, and the next line goes there. -/
structure CommandHistory.Ok (h : CommandHistory) : Prop where
  free : h.array (historyNext h.last) = none
  current : h.array h.last = none → h.current = historyNext h.last

theorem CommandHistory.Ok.browsed {h h' : CommandHistory} (ok : h.Ok) (browsed : h.Browsed h') :
    h'.Ok where
  free := by
    rw [browsed.array, browsed.last]
    exact ok.free
  current := by
    intro empty
    rw [browsed.array, browsed.last] at empty
    rw [browsed.current empty (ok.current empty), browsed.last]
    exact ok.current empty

/-- The shell holds a line, and its keymaps are among these. -/
structure Shell.Ok (K : Keymap → Prop) (normal : Byte → Option Keyfunc) (s : Shell) : Prop where
  line : ∃ l, s.toEditor.Holds l
  history : ∀ h, s.history = some h → h.Ok
  keymap : K s.keymap
  keymapNormal : s.keymapNormal = normal

theorem commandHistoryAdd_ok (m : Memory) (line : CString) {history : Option CommandHistory}
    (ok : ∀ h, history = some h → h.Ok) :
    Ensures (commandHistoryAdd m line history) .assertion CommandHistory.Ok := by
  have added : ∀ (array : Nat → Option CString) (i : Nat), CommandHistory.Ok
      ⟨Function.update array (historyNext i) none, i, historyNext i⟩ :=
    fun array i => ⟨Function.update_self _ _ _, fun _ => rfl⟩
  unfold commandHistoryAdd
  split
  · exact .error (by simp)
  · cases history with
    | none => exact .ok (added _ 0)
    | some h =>
        have here : (if (h.array h.last).isSome = true then
            { h with current := historyNext h.last } else h) =
              { h with current := historyNext h.last } := by
          cases newest : h.array h.last with
          | none => rw [← (ok h rfl).current newest]; rfl
          | some last => rfl
        simp only [Option.getD_some, here, (ok h rfl).free]
        exact .ok (added _ (historyNext h.last))

namespace Shell

variable {K : Keymap → Prop} {normal : Byte → Option Keyfunc} {s s' : Shell} {l : Line}

theorem Edited.ok {P : Byte → Prop} (edited : s.Edited P l s') (ok : s.Ok K normal)
    (typing : ∀ k : Keymap, k.typing = true → K k) : s'.Ok K normal := by
  obtain ⟨l', sent, -, holds, -⟩ := edited.editor.edit
  refine ⟨⟨l', holds⟩, ?_, ?_, edited.rest.keymapNormal.trans ok.keymapNormal⟩
  rotate_left
  · exact edited.rest.keymap.elim (fun same => same ▸ ok.keymap) (typing _)
  intro h' some'
  obtain ⟨h, some, browsed⟩ := edited.rest.history h' some'
  exact (ok.history h some).browsed browsed

theorem refresh_ok (ok : s.Ok K normal) (a : Answers) :
    Ensures (shellRefresh a s) .assertion (Shell.Ok K normal) := by
  obtain ⟨l, h⟩ := ok.line
  exact .of_ok ⟨_, shellRefresh_spec h a, { ok with line := ⟨l, (h.writeFd _).holds⟩ }⟩

theorem fprintf_ok (ok : s.Ok K normal) (bs : List Byte) : (s.fprintf bs).Ok K normal := { ok with }

theorem fflush_ok (ok : s.Ok K normal) : s.fflush.Ok K normal := by
  obtain ⟨l, h⟩ := ok.line
  exact { ok with line := ⟨l, (h.writeFd _).holds⟩ }

theorem format_ok (ok : s.Ok K normal) (mem : Memory) : (s.edit (shellFormat mem)).Ok K normal := by
  obtain ⟨l, h⟩ := ok.line
  cases format : mem.format with
  | false => rwa [edit, shellFormat_unchanged format]
  | true => exact { ok with line := ⟨l.format, (h.shellFormat_spec format).holds⟩ }

theorem clear_ok (ok : s.Ok K normal) : (s.edit shellClear).Ok K normal := by
  obtain ⟨l, h⟩ := ok.line
  exact { ok with line := ⟨_, h.shellClear_spec.holds⟩ }

theorem prompt_ok (ok : s.Ok K normal) : (shellPrompt s).Ok K normal := by
  obtain ⟨l, h⟩ := ok.line
  rw [shellPrompt_spec h]
  exact { ok with line := ⟨l, (h.writeFd _).holds⟩ }

theorem clearPromptRefresh_ok (ok : s.Ok K normal) (a : Answers) :
    Ensures (clearPromptRefresh a s) .assertion (Shell.Ok K normal) :=
  refresh_ok (prompt_ok (clear_ok ok)) a

theorem paging_ok (ok : s.Ok K normal) (a : Answers) (closed : Bool) :
    Ensures (shellReadNowaitPaging a s closed) .assertion (Shell.Ok K normal) := by
  unfold shellReadNowaitPaging
  split
  · exact clearPromptRefresh_ok (s := { s with isPaging := false }) { ok with } a
  · exact .ok ok

theorem cutComment_ok (ok : s.Ok K normal) : (s.edit cutComment).Ok K normal := by
  obtain ⟨l, h⟩ := ok.line
  have bound := l.length_text
  have all := h.stringAt (i := 0) (Nat.zero_le _)
  rw [Nat.cast_zero, List.drop_zero] at all
  refine { ok with line := ?_ }
  change ∃ l, (cutComment s.toEditor).Holds l
  rw [cutComment, all]
  cases found : l.text.findIdx? (fun b => b = charByte '#' ∨ b = charByte '!') with
  | none => exact ⟨l, h⟩
  | some comment =>
      obtain ⟨inside, -⟩ := List.findIdx?_eq_some_iff_getElem.mp found
      have moved := h.moved (i := min l.before.length comment) (by omega)
      have cursor : (if s.cursor > (comment : Int) then (comment : Int) else s.cursor) =
          (min l.before.length comment : Nat) := by
        rw [h.cursor]
        split <;> omega
      have place := Line.length_before_ofText (t := l.text) (i := min l.before.length comment)
        (by omega)
      simp only [cursor]
      exact ⟨_, moved.truncated (n := comment) (by rw [Line.moveTo]; omega)
        (by rw [l.text_moveTo]; omega)⟩

theorem answerExecution_eq (s : Shell) (a : Answers) :
    ∃ buffered exit debug paging, answerExecution a s = { s with
      buffered := buffered
      flagExit := exit
      debugShell := debug
      isPaging := paging } := by
  unfold answerExecution
  dsimp only
  split <;> split <;> exact ⟨_, _, _, _, rfl⟩

theorem executeLine_ok (ok : s.Ok K normal) (a : Answers) :
    Ensures (executeLine a s) .assertion (Shell.Ok K normal) := by
  obtain ⟨buffered, exit, debug, paging, answered⟩ := answerExecution_eq s a
  rw [executeLine, answered]
  refine (commandHistoryAdd_ok a.memory (s.stringAt 0) ok.history).bind fun history lines => ?_
  refine .ok { ok with history := ?_ }
  rintro _ ⟨⟩
  exact lines

theorem execute_ok (ok : s.Ok K normal) (a : Answers) :
    Ensures (commandShellExecute a s) .assertion (Shell.Ok K normal) := by
  have formatted := format_ok (cutComment_ok ok) a.memory
  have fed := fflush_ok (fprintf_ok formatted s.nl)
  unfold commandShellExecute
  dsimp only
  split
  · exact clearPromptRefresh_ok fed a
  · refine (executeLine_ok fed a).bind fun s₁ executed => ?_
    have finish : ∀ s₂ : Shell, s₂.Ok K normal → Ensures (if ¬ shellRunning s₂ then .ok s₂
        else if ¬ s₂.isPaging then clearPromptRefresh a s₂ else .ok s₂) .assertion
          (Shell.Ok K normal) := by
      intro s₂ ok₂
      split
      · exact .ok ok₂
      · split
        · exact clearPromptRefresh_ok ok₂ a
        · exact .ok ok₂
    split
    · exact (paging_ok executed a _).bind finish
    · exact finish s₁ executed

theorem completion_ok (ok : s.Ok K normal) (a : Answers) :
    Ensures (commandShellCompletion a s) .assertion (Shell.Ok K normal) := by
  obtain ⟨l, h⟩ := ok.line
  have inside : l.before.length ≤ l.text.length := l.length_before_le
  obtain ⟨i, hi, stop⟩ := h.shellWordEnd_spec inside
  obtain ⟨e, moved, becomes⟩ := h.shellMoveto_spec hi
  have here : s.editM movetoWordEnd = .ok { s with toEditor := e } := by
    refine editM_ok ?_
    rw [movetoWordEnd, h.cursor, stop]
    exact moved
  unfold commandShellCompletion
  rw [here]
  have at_end : Shell.Ok K normal { s with toEditor := e } := { ok with line := ⟨_, becomes.holds⟩ }
  cases a.completion with
  | none => exact .ok (fflush_ok at_end)
  | some completion =>
      have inserted := editM_ensures (s := { s with toEditor := e })
        (becomes.holds.shellInsert_spec a.memory completion)
      refine inserted.bind ?_
      rintro _ ⟨e', becomes', rfl⟩
      exact .ok (fflush_ok { ok with line := ⟨_, becomes'.holds⟩ })

theorem listCandidates_ok (ok : s.Ok K normal) (a : Answers) :
    Ensures (listCandidates a s) .assertion (Shell.Ok K normal) := by
  obtain ⟨l, h⟩ := ok.line
  have inside : l.before.length ≤ l.text.length := l.length_before_le
  obtain ⟨i, -, head⟩ := h.shellWordHead_spec inside
  rw [← h.cursor] at head
  rw [listCandidates, head]
  exact refresh_ok (fprintf_ok (fprintf_ok (fprintf_ok ok _) _) _) a

theorem lsCandidate_ok (ok : s.Ok K normal) (a : Answers) :
    Ensures (commandShellLsCandidate a s) .assertion (Shell.Ok K normal) := by
  unfold commandShellLsCandidate
  split
  · obtain ⟨l, h⟩ := ok.line
    have atEnd := h.moved le_rfl
    rw [← h.lineEnd] at atEnd
    have moved : Shell.Ok K normal (s.edit fun e => { e with cursor := e.lineEnd }) :=
      { ok with line := ⟨_, atEnd⟩ }
    refine (refresh_ok moved a).bind fun s₁ ok₁ => ?_
    exact (refresh_ok (fprintf_ok (format_ok ok₁ a.memory) _) a).bind
      fun s₂ ok₂ => listCandidates_ok ok₂ a
  · exact listCandidates_ok ok a

theorem telnetDebug_ok (ok : s.Ok K normal) (a : Answers) : (telnetDebug a s).Ok K normal := by
  unfold telnetDebug
  split
  · exact fprintf_ok ok _
  · exact ok

theorem describeSubnego_ensures (buf : List Byte) :
    Ensures (describeSubnego buf) .assertion fun _ => True := by
  have once : ∀ p len, Ensures (snprintfSubnego p len) .assertion fun _ => True := by
    intro p len
    unfold snprintfSubnego
    split
    · exact .error (by decide)
    · exact .ok trivial
  have all : ∀ (buf : List Byte) (p : Nat), Ensures
      (buf.foldlM (fun p b => snprintfSubnego p (hexLength b)) p) .assertion fun _ => True := by
    intro buf
    induction buf with
    | nil => exact fun p => .ok trivial
    | cons b buf ih => exact fun p => (once p _).bind fun p' _ => ih p'
  exact (once _ _).bind fun p _ => (all buf p).bind fun p' _ => once p' 1

theorem applySubnego_ok (ok : s.Ok K normal) (a : Answers) : (applySubnego a s).Ok K normal := by
  unfold applySubnego
  split
  · split
    · apply telnetDebug_ok
      exact { ok with }
    · exact ok
  · exact ok

theorem sbEnd_ok (ok : s.Ok K normal) (typing : K .normal) (a : Answers) :
    Ensures (vtyShellKeyfuncSbEnd a s) .assertion (Shell.Ok K normal) := by
  have back : Shell.Ok K normal { s with keymap := .normal } := { ok with keymap := typing }
  have debugged := telnetDebug_ok (telnetDebug_ok back a) a
  exact (describeSubnego_ensures _).bind fun _ _ =>
    refresh_ok (fflush_ok (applySubnego_ok debugged a)) a

theorem run_ok (ok : s.Ok K normal) (a : Answers) (f : Keyfunc)
    (closed : ∀ k : Keymap, f.telnet = true ∨ k.typing = true → K k) :
    Ensures (f.run a s) .assertion (Shell.Ok K normal) := by
  obtain ⟨l, h⟩ := ok.line
  cases edits : f.edits with
  | true =>
      have stored : s.Stored fun _ => True :=
        ⟨fun _ _ _ _ => trivial, fun _ _ _ _ _ _ _ => trivial⟩
      exact (f.run_edited edits h stored a (fun _ => trivial) fun _ _ => trivial).imp
        fun s' edited => edited.ok ok fun k typing => closed k (.inr typing)
  | false =>
      cases f with
      | clearScreen => exact refresh_ok (format_ok (fprintf_ok ok _) a.memory) a
      | refresh => exact refresh_ok (fprintf_ok (format_ok ok a.memory) _) a
      | emptyEnter => exact .ok (fflush_ok (prompt_ok (clear_ok (fprintf_ok ok _))))
      | execute => exact execute_ok ok a
      | completion => exact completion_ok ok a
      | lsCandidate => exact lsCandidate_ok ok a
      | clearTerminal => exact refresh_ok (fflush_ok (fprintf_ok ok _)) a
      | iacStart | telnetCmd => exact .ok { ok with keymap := closed _ (.inl rfl) }
      | telnetOpt =>
          have back : Shell.Ok K normal { s with keymap := .normal, telnetOpt := s.inputch } :=
            { ok with keymap := closed _ (.inl rfl) }
          exact .ok (fflush_ok (telnetDebug_ok back a))
      | subnego =>
          refine .ok (fflush_ok ?_)
          split
          · exact { ok with }
          · exact ok
      | sbStart =>
          have started : Shell.Ok K normal { s with keymap := .subnego, subnegoBuf := [] } :=
            { ok with keymap := closed _ (.inl rfl) }
          exact .ok (fflush_ok (telnetDebug_ok started a))
      | sbEnd => exact sbEnd_ok ok (closed _ (.inl rfl)) a
      | _ => cases edits

theorem finishInput_ok (ok : s.Ok K normal) (a : Answers) (escaped : Bool) :
    Ensures (finishInput a escaped s) .assertion (Shell.Ok K normal) := by
  have cleared : (if escaped then { s with flagEscape := false } else s).Ok K normal := by
    split
    · exact { ok with }
    · exact ok
  unfold finishInput
  generalize (if escaped then { s with flagEscape := false } else s) = s' at cleared ⊢
  dsimp only
  split
  · exact refresh_ok cleared a
  · exact .ok cleared

theorem debugInput_ok (ok : s.Ok K normal) (a : Answers) :
    Ensures (debugInput a s) .assertion (Shell.Ok K normal) := by
  unfold debugInput
  split
  · exact refresh_ok (fprintf_ok ok _) a
  · exact .ok ok

/-- A key keeps the invariant. -/
theorem input_ok (ok : s.Ok K normal) (a : Answers) (ch : Byte)
    (closed : ∀ f, s.keyfunc ch = some f → ∀ k : Keymap, f.telnet = true ∨ k.typing = true → K k) :
    Ensures (shellInput a ch s) .assertion (Shell.Ok K normal) := by
  -- what is debugged before does not change the keymap
  have saved : Shell.Ok (· = s.keymap) normal { s with inputch := ch } := { ok with keymap := rfl }
  refine (debugInput_ok saved a).bind fun s₁ saved₁ => ?_
  have same : s₁.keyfunc ch = s.keyfunc ch := by
    rw [keyfunc, keyfunc, saved₁.keymap, saved₁.keymapNormal, ok.keymapNormal]
  have ok₁ : s₁.Ok K normal := { saved₁ with keymap := saved₁.keymap ▸ ok.keymap }
  have called : Ensures (callKeyfunc a ch s₁) .assertion (Shell.Ok K normal) := by
    unfold callKeyfunc
    rw [same]
    cases bound : s.keyfunc ch with
    | none => exact .ok ok₁
    | some f => exact run_ok ok₁ a f (closed f bound)
  exact called.bind fun s₂ ok₂ => finishInput_ok ok₂ a s.flagEscape

end Shell

/-! ## Any sequence of keys -/

/-- What happens to a shell: a key with what is answered to it, or a look at the pager. -/
inductive ShellEvent where
  | key (ch : Byte) (a : Answers)
  | paging (closed : Bool) (a : Answers)

def ShellEvent.step (s : Shell) : ShellEvent → Except Stop Shell
  | .key ch a => shellInput a ch s
  | .paging closed a => shellReadNowaitPaging a s closed

/-- One event after another. -/
def runShell (events : List ShellEvent) (s : Shell) : Except Stop Shell :=
  events.foldlM ShellEvent.step s

theorem runShell_ok {normal : Byte → Option Keyfunc} {s : Shell}
    (ok : s.Ok (fun _ => True) normal) (events : List ShellEvent) :
    Ensures (runShell events s) .assertion (Shell.Ok (fun _ => True) normal) := by
  induction events generalizing s with
  | nil => exact .ok ok
  | cons event events ih =>
      have step : Ensures (event.step s) .assertion (Shell.Ok (fun _ => True) normal) := by
        cases event with
        | key ch a => exact Shell.input_ok ok a ch fun _ _ _ _ => trivial
        | paging closed a => exact Shell.paging_ok ok a closed
      exact step.bind fun s' ok' => ih ok'

theorem foldl_shellInstall (binds : List (Byte × Keyfunc)) (s : Shell) :
    ∃ keymap, binds.foldl shellInstall s = { s with keymapNormal := keymap } := by
  induction binds generalizing s with
  | nil => exact ⟨s.keymapNormal, rfl⟩
  | cons bind binds ih => exact ih (shellInstall s bind)

/-- Only the normal keymap of a fresh shell depends on the keys. -/
theorem freshShell_eq (binds : List (Byte × Keyfunc)) (writefd : Int) : ∃ keymap,
    freshShell binds writefd = { shellCreate with writefd := writefd, keymapNormal := keymap } := by
  obtain ⟨keymap, installed⟩ := foldl_shellInstall binds shellCreate
  exact ⟨keymap, by rw [freshShell, installed, shellSetTerminal, shellCreate]⟩

/-- A fresh shell holds the empty line. -/
theorem freshShell_holds (binds : List (Byte × Keyfunc)) (writefd : Nat) :
    (freshShell binds writefd).toEditor.Holds ⟨[], []⟩ := by
  obtain ⟨keymap, fresh⟩ := freshShell_eq binds writefd
  rw [fresh]
  have room : (0 : Int) < 32 := by decide
  have small : (32 : Int) < 2 ^ 31 := by decide
  exact ⟨Int.natCast_nonneg writefd, rfl, rfl, room, small, rfl, rfl, List.not_mem_nil⟩

theorem freshShell_ok (binds : List (Byte × Keyfunc)) (writefd : Nat) :
    (freshShell binds writefd).Ok (· = .normal) (freshShell binds writefd).keymapNormal := by
  obtain ⟨keymap, fresh⟩ := freshShell_eq binds writefd
  refine ⟨⟨_, freshShell_holds binds writefd⟩, ?_, ?_, rfl⟩
  · rw [fresh]
    intro h some
    cases some
  · rw [fresh]
    rfl

/-- From a fresh shell with a terminal on, whatever keys are installed, every sequence of keys
    keeps the cursor in the line and the line in its buffer and ends it with its only NUL; no
    assertion fails. -/
theorem lineEditor_invariant (binds : List (Byte × Keyfunc)) (writefd : Nat)
    (events : List ShellEvent) :
    runShell events (freshShell binds writefd) ≠ .error .assertion ∧
      ∀ s, runShell events (freshShell binds writefd) = .ok s →
        0 ≤ s.cursor ∧ s.cursor ≤ s.lineEnd ∧ s.lineEnd < s.size ∧
          s.commandLine s.lineEnd.toNat = 0 ∧
            ∀ i : Nat, (i : Int) < s.lineEnd → s.commandLine i ≠ 0 := by
  have fresh := freshShell_ok binds writefd
  obtain ⟨safe, reached⟩ := runShell_ok { fresh with keymap := trivial } events
  refine ⟨safe, ?_⟩
  intro s run
  obtain ⟨l, h⟩ := (reached s run).line
  have bound := l.length_text
  refine ⟨?_, ?_, ?_, ?_, ?_⟩
  · rw [h.cursor]
    exact Int.natCast_nonneg _
  · rw [h.cursor, h.lineEnd]
    omega
  · rw [h.lineEnd]
    exact h.room
  · rw [h.lineEnd, Int.toNat_natCast]
    exact h.nul
  · intro i hi nul
    rw [h.lineEnd] at hi
    have octet := h.read (i := i) (n := 1) (by omega)
    apply h.noNul
    have mem : s.commandLine i ∈ (l.text.drop i).take 1 := by
      rw [← octet]
      simp [ByteMem.read]
    rw [nul] at mem
    exact List.mem_of_mem_drop (List.mem_of_mem_take mem)

end Sdplane
