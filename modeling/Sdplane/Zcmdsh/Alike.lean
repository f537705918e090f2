import Sdplane.Misc.Agree
import Sdplane.Zcmdsh.Keyfunc

/-!
# What the functions of the shell do not look at

Two shells are alike if they differ in what was written to the terminal and in what telnet
leaves behind. The functions that are not telnet's do the same to shells that are alike.
-/

namespace Sdplane

/-- They differ in what was written. -/
def Editor.Alike (e e' : Editor) : Prop := ∃ out, e' = { e with out := out }

/-- An index found in editors that are alike. -/
def Editor.AlikeAt (p p' : Int × Editor) : Prop := p.1 = p'.1 ∧ p.2.Alike p'.2

namespace Editor.Alike

variable {e e' : Editor} {m : Memory}

theorem refl (e : Editor) : e.Alike e := ⟨e.out, rfl⟩

theorem writeFd (h : e.Alike e') (bs : List Byte) : (e.writeFd bs).Alike (e'.writeFd bs) := by
  obtain ⟨out, rfl⟩ := h
  exact ⟨_, rfl⟩

theorem terminate (h : e.Alike e') : (shellTerminate e).Alike (shellTerminate e') := by
  obtain ⟨out, rfl⟩ := h
  exact ⟨out, rfl⟩

theorem clear (h : e.Alike e') : (shellClear e).Alike (shellClear e') := by
  obtain ⟨out, rfl⟩ := h
  exact ⟨out, rfl⟩

theorem format (h : e.Alike e') : (shellFormat m e).Alike (shellFormat m e') := by
  obtain ⟨out, rfl⟩ := h
  unfold shellFormat
  split
  · exact ⟨_, rfl⟩
  · exact ⟨_, rfl⟩

theorem forward (h : e.Alike e') (num : Int) :
    (shellForward num e).Alike (shellForward num e') := by
  obtain ⟨out, rfl⟩ := h
  unfold shellForward
  by_cases beyond : e.lineEnd < e.cursor + num
  · exact ⟨out, by simp only [if_pos beyond]⟩
  · simp only [if_neg beyond]
    exact ⟨_, rfl⟩

theorem backward (h : e.Alike e') (num : Int) :
    (shellBackward num e).Alike (shellBackward num e') := by
  obtain ⟨out, rfl⟩ := h
  unfold shellBackward
  by_cases beyond : e.cursor - num < 0
  · exact ⟨out, by simp only [if_pos beyond]⟩
  · simp only [if_neg beyond]
    exact ⟨_, rfl⟩

theorem moveto (h : e.Alike e') (index : Int) :
    Agree Alike (shellMoveto index e) (shellMoveto index e') := by
  have ahead := h.forward (index - e.cursor)
  have back := h.backward (e.cursor - index)
  obtain ⟨out, rfl⟩ := h
  unfold shellMoveto
  dsimp only
  split
  · exact .error _
  · split
    · exact .ok ahead
    · split
      · exact .ok back
      · exact .ok ⟨out, rfl⟩

theorem expand (h : e.Alike e') : Agree Alike (shellExpand m e) (shellExpand m e') := by
  obtain ⟨out, rfl⟩ := h
  unfold shellExpand
  dsimp only
  split
  · split
    · exact .ok ⟨out, rfl⟩
    · exact .error _
  · exact .error _

theorem expandLoop (h : e.Alike e') (need : Int) (fuel : Nat) :
    Agree Alike (expandLoop m need fuel e) (expandLoop m need fuel e') := by
  induction fuel generalizing e e' with
  | zero => exact .error _
  | succ fuel ih =>
      have expanded := h.expand (m := m)
      obtain ⟨out, rfl⟩ := h
      unfold Sdplane.expandLoop
      dsimp only
      split
      · exact .ok ⟨out, rfl⟩
      · exact expanded.bind fun _ _ h => ih h

theorem insert (h : e.Alike e') (s : CString) :
    Agree Alike (shellInsert m s e) (shellInsert m s e') := by
  have expanded := h.expandLoop (m := m) (e.lineEnd + s.length + 1) 32
  obtain ⟨out, rfl⟩ := h
  refine expanded.bind ?_
  rintro e _ ⟨out, rfl⟩
  exact .ite Iff.rfl (.ok ⟨_, rfl⟩) (.ok ⟨_, rfl⟩)

theorem deleteString (h : e.Alike e') (start stop : Int) :
    Agree Alike (shellDeleteString start stop e) (shellDeleteString start stop e') := by
  obtain ⟨out, rfl⟩ := h
  unfold shellDeleteString
  dsimp only
  split
  · exact .error _
  · exact .ok ⟨_, rfl⟩

theorem cut (h : e.Alike e') (start stop : Int) :
    Agree Alike (shellCut m start stop e) (shellCut m start stop e') := by
  obtain ⟨out, rfl⟩ := h
  unfold shellCut
  dsimp only
  split
  · exact .error _
  · split
    · exact .ok ⟨out, rfl⟩
    · exact deleteString ⟨out, rfl⟩ start stop

theorem withTokens (h : e.Alike e') (delim : List Byte) (find : List (List Byte) → Int)
    (point : Int) : Agree AlikeAt (withTokens delim find point e)
      (withTokens delim find point e') := by
  obtain ⟨out, rfl⟩ := h
  unfold Sdplane.withTokens
  dsimp only
  split
  · exact .error _
  · exact .ok ⟨rfl, out, rfl⟩

theorem wordBackward (h : e.Alike e') : Agree AlikeAt (wordBackward e) (wordBackward e') := by
  obtain ⟨out, rfl⟩ := h
  refine (withTokens ⟨out, rfl⟩ _ _ _).bind ?_
  rintro ⟨start, e⟩ ⟨_, _⟩ ⟨rfl, out, rfl⟩
  dsimp only
  split
  · exact withTokens ⟨out, rfl⟩ _ _ _
  · exact .ok ⟨rfl, out, rfl⟩

theorem deleteWordBackward (h : e.Alike e') :
    Agree Alike (shellDeleteWordBackward m e) (shellDeleteWordBackward m e') := by
  refine h.wordBackward.bind ?_
  rintro ⟨start, e⟩ ⟨_, _⟩ ⟨rfl, out, rfl⟩
  exact cut ⟨out, rfl⟩ _ _

theorem moveWordBackward (h : e.Alike e') :
    Agree Alike (shellMoveWordBackward e) (shellMoveWordBackward e') := by
  refine h.wordBackward.bind ?_
  rintro ⟨start, e⟩ ⟨_, _⟩ ⟨rfl, out, rfl⟩
  exact moveto ⟨out, rfl⟩ _

theorem moveWordForward (h : e.Alike e') :
    Agree Alike (shellMoveWordForward e) (shellMoveWordForward e') := by
  obtain ⟨out, rfl⟩ := h
  refine (withTokens ⟨out, rfl⟩ _ _ _).bind ?_
  rintro ⟨start, e⟩ ⟨_, _⟩ ⟨rfl, out, rfl⟩
  exact moveto ⟨out, rfl⟩ _

theorem wordEnd (h : e.Alike e') : Agree Alike (movetoWordEnd e) (movetoWordEnd e') := by
  obtain ⟨out, rfl⟩ := h
  refine (withTokens ⟨out, rfl⟩ _ _ _).bind ?_
  rintro ⟨start, e⟩ ⟨_, _⟩ ⟨rfl, out, rfl⟩
  exact moveto ⟨out, rfl⟩ _

theorem cutComment (h : e.Alike e') : (cutComment e).Alike (cutComment e') := by
  obtain ⟨out, rfl⟩ := h
  have same : Editor.stringAt { e with out := out } 0 = e.stringAt 0 := rfl
  unfold Sdplane.cutComment
  rw [same]
  split
  · exact ⟨out, rfl⟩
  · exact ⟨out, rfl⟩

end Editor.Alike

/-- They differ in what was written, to the terminal or to its buffer, and in what telnet
    leaves behind. -/
def Shell.Alike (s s' : Shell) : Prop :=
  ∃ out buffered row col cmd opt buf, s' = { s with
    toEditor := { s.toEditor with out := out }
    buffered := buffered
    wsRow := row
    wsCol := col
    telnetCmd := cmd
    telnetOpt := opt
    subnegoBuf := buf }

namespace Shell.Alike

variable {s s' : Shell} {a : Answers}

theorem refl (s : Shell) : s.Alike s :=
  ⟨s.out, s.buffered, s.wsRow, s.wsCol, s.telnetCmd, s.telnetOpt, s.subnegoBuf, rfl⟩

theorem edit (h : s.Alike s') {f : Editor → Editor}
    (hf : ∀ e e', e.Alike e' → (f e).Alike (f e')) : (s.edit f).Alike (s'.edit f) := by
  obtain ⟨out, buffered, row, col, cmd, opt, buf, rfl⟩ := h
  obtain ⟨out', edited⟩ := hf s.toEditor { s.toEditor with out := out } ⟨out, rfl⟩
  exact ⟨out', buffered, row, col, cmd, opt, buf, by rw [Shell.edit, edited]; rfl⟩

theorem editM (h : s.Alike s') {f : Editor → Except Stop Editor}
    (hf : ∀ e e', e.Alike e' → Agree Editor.Alike (f e) (f e')) :
    Agree Shell.Alike (s.editM f) (s'.editM f) := by
  obtain ⟨out, buffered, row, col, cmd, opt, buf, rfl⟩ := h
  refine (hf s.toEditor { s.toEditor with out := out } ⟨out, rfl⟩).bind ?_
  rintro e _ ⟨out', rfl⟩
  exact .ok ⟨out', buffered, row, col, cmd, opt, buf, rfl⟩

theorem deleteAtCursor (h : s.Alike s') : Agree Shell.Alike
    (s.editM (shellDeleteString s.cursor (s.cursor + 1)))
    (s'.editM (shellDeleteString s'.cursor (s'.cursor + 1))) := by
  have deleted := h.editM fun _ _ he => he.deleteString s.cursor (s.cursor + 1)
  obtain ⟨out, buffered, row, col, cmd, opt, buf, rfl⟩ := h
  exact deleted

theorem cutAll (h : s.Alike s') : Agree Shell.Alike (s.editM (shellCut a.memory 0 s.lineEnd))
    (s'.editM (shellCut a.memory 0 s'.lineEnd)) := by
  have cut := h.editM fun _ _ he => he.cut (m := a.memory) 0 s.lineEnd
  obtain ⟨out, buffered, row, col, cmd, opt, buf, rfl⟩ := h
  exact cut

theorem fprintf (h : s.Alike s') (bs : List Byte) : (s.fprintf bs).Alike (s'.fprintf bs) := by
  obtain ⟨out, buffered, row, col, cmd, opt, buf, rfl⟩ := h
  exact ⟨out, _, row, col, cmd, opt, buf, rfl⟩

theorem fflush (h : s.Alike s') : s.fflush.Alike s'.fflush := by
  obtain ⟨out, buffered, row, col, cmd, opt, buf, rfl⟩ := h
  exact ⟨_, [], row, col, cmd, opt, buf, rfl⟩

theorem ite {c c' : Prop} [Decidable c] [Decidable c'] (same : c ↔ c') {t t' : Shell}
    (h : s.Alike s') (ht : t.Alike t') : (if c then s else t).Alike (if c' then s' else t') := by
  by_cases hc : c
  · rwa [if_pos hc, if_pos (same.mp hc)]
  · rwa [if_neg hc, if_neg fun hc' => hc (same.mpr hc')]

theorem writeFd (h : s.Alike s') (bs : List Byte) :
    (s.edit (·.writeFd bs)).Alike (s'.edit (·.writeFd bs)) :=
  h.edit fun _ _ he => he.writeFd bs

theorem writePrompt (h : s.Alike s') :
    (s.edit (·.writeFd s.prompt)).Alike (s'.edit (·.writeFd s'.prompt)) := by
  obtain ⟨out, buffered, row, col, cmd, opt, buf, rfl⟩ := h
  exact ⟨_, buffered, row, col, cmd, opt, buf, rfl⟩

theorem prompt (h : s.Alike s') : (shellPrompt s).Alike (shellPrompt s') := by
  have flushed := h.fflush
  have returned := flushed.writeFd [carriageReturn]
  obtain ⟨out, buffered, row, col, cmd, opt, buf, rfl⟩ := h
  refine .ite Iff.rfl ⟨out, buffered, row, col, cmd, opt, buf, rfl⟩ ?_
  exact writePrompt (.ite (Iff.refl (s.flagInteractive = true)) returned flushed)

theorem linefeed (h : s.Alike s') : (shellLinefeed s).Alike (shellLinefeed s') := by
  obtain ⟨out, buffered, row, col, cmd, opt, buf, rfl⟩ := h
  exact ⟨out, _, row, col, cmd, opt, buf, rfl⟩

theorem showLine (h : s.Alike s') : (showLine s).Alike (showLine s') := by
  have terminated := h.prompt.edit fun _ _ he => he.terminate
  obtain ⟨out, buffered, row, col, cmd, opt, buf, same⟩ := terminated
  unfold Sdplane.showLine
  dsimp only
  rw [same]
  exact ⟨_, buffered, row, col, cmd, opt, buf, rfl⟩

theorem debug (h : s.Alike s') : Agree Shell.Alike (shellDebug a s) (shellDebug a s') := by
  have terminated := h.edit fun _ _ he => he.terminate
  unfold shellDebug
  generalize s.edit shellTerminate = t at terminated ⊢
  generalize s'.edit shellTerminate = t' at terminated ⊢
  obtain ⟨out, buffered, row, col, cmd, opt, buf, rfl⟩ := terminated
  refine (Editor.Alike.withTokens ⟨out, rfl⟩ _ _ _).bind ?_
  rintro ⟨_, e⟩ ⟨_, _⟩ ⟨rfl, out, rfl⟩
  refine (Editor.Alike.withTokens ⟨out, rfl⟩ _ _ _).bind ?_
  rintro ⟨_, e⟩ ⟨_, _⟩ ⟨rfl, out, rfl⟩
  refine (Editor.Alike.withTokens ⟨out, rfl⟩ _ _ _).bind ?_
  rintro ⟨_, e⟩ ⟨_, _⟩ ⟨rfl, out, rfl⟩
  exact .ok ⟨_, [], row, col, cmd, opt, buf, rfl⟩

theorem refresh (h : s.Alike s') :
    Agree Shell.Alike (shellRefresh a s) (shellRefresh a s') := by
  have debugged := h.debug (a := a)
  have shown := h.showLine
  obtain ⟨out, buffered, row, col, cmd, opt, buf, rfl⟩ := h
  exact .ite (Iff.refl (s.flagDebug = true ∨ s.debugShell = true))
    (debugged.bind fun _ _ h => .ok h.showLine) (.ok shown)

/-- The fields that are not telnet's are the same. -/
theorem history_eq (h : s.Alike s') : s'.history = s.history := by
  obtain ⟨out, buffered, row, col, cmd, opt, buf, rfl⟩ := h
  rfl

theorem cutBuffer_eq (h : s.Alike s') : s'.cutBuffer = s.cutBuffer := by
  obtain ⟨out, buffered, row, col, cmd, opt, buf, rfl⟩ := h
  rfl

theorem yank (h : s.Alike s') :
    Agree Shell.Alike (shellKeyfuncYank a s) (shellKeyfuncYank a s') := by
  unfold shellKeyfuncYank
  rw [h.cutBuffer_eq]
  split
  · exact h.editM fun _ _ he => he.insert _
  · exact .ok h

theorem setHistory (h : s.Alike s') (history : Option CommandHistory) :
    Shell.Alike { s with history := history } { s' with history := history } := by
  obtain ⟨out, buffered, row, col, cmd, opt, buf, rfl⟩ := h
  exact ⟨out, buffered, row, col, cmd, opt, buf, rfl⟩

theorem normal (h : s.Alike s') :
    Shell.Alike (vtyShellKeyfuncNormal s) (vtyShellKeyfuncNormal s') := by
  obtain ⟨out, buffered, row, col, cmd, opt, buf, rfl⟩ := h
  exact ⟨out, buffered, row, col, cmd, opt, buf, rfl⟩

theorem clearPromptRefresh (h : s.Alike s') :
    Agree Shell.Alike (clearPromptRefresh a s) (clearPromptRefresh a s') :=
  (h.edit fun _ _ he => he.clear).prompt.refresh

/-- A line of the history in place of the line. -/
theorem recalled (h : s.Alike s') (line : CString) (history : Option CommandHistory) :
    Agree Shell.Alike
      (do
        let s ← s.editM (shellDeleteString 0 s.lineEnd)
        let s ← s.editM (shellInsert a.memory line)
        .ok { s with history := history })
      (do
        let s ← s'.editM (shellDeleteString 0 s'.lineEnd)
        let s ← s.editM (shellInsert a.memory line)
        .ok { s with history := history }) := by
  have emptied := h.editM fun _ _ he => he.deleteString 0 s.lineEnd
  obtain ⟨out, buffered, row, col, cmd, opt, buf, rfl⟩ := h
  exact emptied.bind fun _ _ h => (h.editM fun _ _ he => he.insert line).bind
    fun _ _ h => .ok (h.setHistory history)

theorem historyPrev (h : s.Alike s') :
    Agree Shell.Alike (commandHistoryPrev a s) (commandHistoryPrev a s') := by
  unfold commandHistoryPrev
  rw [h.history_eq]
  split
  · exact .ok h
  · dsimp only
    split
    · exact .ok h
    · split
      · exact .ok h
      · exact h.recalled _ _

theorem historyNext (h : s.Alike s') :
    Agree Shell.Alike (commandHistoryNext a s) (commandHistoryNext a s') := by
  unfold commandHistoryNext
  rw [h.history_eq]
  split
  · exact .ok h
  · dsimp only
    split
    · exact .ok h
    · split
      · exact .ok h
      · exact h.recalled _ _

theorem readPaging (h : s.Alike s') (closed : Bool) :
    Agree Shell.Alike (shellReadNowaitPaging a s closed) (shellReadNowaitPaging a s' closed) := by
  have done : Shell.Alike { s with isPaging := false } { s' with isPaging := false } := by
    obtain ⟨out, buffered, row, col, cmd, opt, buf, rfl⟩ := h
    exact ⟨out, buffered, row, col, cmd, opt, buf, rfl⟩
  exact .ite Iff.rfl done.clearPromptRefresh (.ok h)

theorem answerExecution (h : s.Alike s') :
    (answerExecution a s).Alike (answerExecution a s') := by
  have printed : Shell.Alike (if a.execution.paging then s else s.fprintf a.execution.printed)
      (if a.execution.paging then s' else s'.fprintf a.execution.printed) :=
    .ite Iff.rfl h (h.fprintf _)
  obtain ⟨out, buffered, row, col, cmd, opt, buf, rfl⟩ := h
  unfold Sdplane.answerExecution
  dsimp only
  generalize (if a.execution.paging then s else s.fprintf a.execution.printed) = t at printed ⊢
  obtain ⟨out, buffered, row, col, cmd, opt, buf, same⟩ := printed
  rw [same]
  exact .ite Iff.rfl ⟨out, _, row, col, cmd, opt, buf, rfl⟩
    ⟨out, buffered, row, col, cmd, opt, buf, rfl⟩

theorem executeLine (h : s.Alike s') :
    Agree Shell.Alike (executeLine a s) (executeLine a s') := by
  have answered := h.answerExecution (a := a)
  have same : s'.stringAt 0 = s.stringAt 0 := by
    obtain ⟨out, buffered, row, col, cmd, opt, buf, rfl⟩ := h
    rfl
  unfold Sdplane.executeLine
  dsimp only
  rw [same, answered.history_eq]
  refine (Agree.refl _).bind ?_
  rintro history _ rfl
  exact .ok (answered.setHistory _)

theorem running_eq (h : s.Alike s') : shellRunning s' = shellRunning s := by
  obtain ⟨out, buffered, row, col, cmd, opt, buf, rfl⟩ := h
  rfl

theorem isPaging_eq (h : s.Alike s') : s'.isPaging = s.isPaging := by
  obtain ⟨out, buffered, row, col, cmd, opt, buf, rfl⟩ := h
  rfl

theorem execute (h : s.Alike s') :
    Agree Shell.Alike (commandShellExecute a s) (commandShellExecute a s') := by
  have commented := h.edit fun _ _ he => he.cutComment
  have formatted := commented.edit fun _ _ he => he.format (m := a.memory)
  have fed := formatted.linefeed.fflush
  have ends : ∀ t t' : Shell, t.Alike t' → Agree Shell.Alike
      (if ¬ shellRunning t then .ok t else if ¬ t.isPaging then Sdplane.clearPromptRefresh a t
        else .ok t)
      (if ¬ shellRunning t' then .ok t' else if ¬ t'.isPaging then Sdplane.clearPromptRefresh a t'
        else .ok t') := by
    intro t t' h
    rw [h.running_eq, h.isPaging_eq]
    exact .ite Iff.rfl (.ok h) (.ite Iff.rfl h.clearPromptRefresh (.ok h))
  unfold commandShellExecute
  dsimp only
  generalize (shellLinefeed ((s.edit cutComment).edit (shellFormat a.memory))).fflush = t at fed ⊢
  generalize (shellLinefeed ((s'.edit cutComment).edit (shellFormat a.memory))).fflush = t'
    at fed ⊢
  have same : t'.stringAt 0 = t.stringAt 0 := by
    obtain ⟨out, buffered, row, col, cmd, opt, buf, rfl⟩ := fed
    rfl
  rw [same]
  refine .ite Iff.rfl fed.clearPromptRefresh (fed.executeLine.bind fun u u' h => ?_)
  rw [h.isPaging_eq]
  exact .ite Iff.rfl ((h.readPaging _).bind ends) (ends u u' h)

theorem completion (h : s.Alike s') :
    Agree Shell.Alike (commandShellCompletion a s) (commandShellCompletion a s') := by
  refine (h.editM fun _ _ he => he.wordEnd).bind fun t t' h => ?_
  dsimp only
  split
  · exact (h.editM fun _ _ he => he.insert _).bind fun _ _ h => .ok h.fflush
  · exact .ok h.fflush

theorem listCandidates (h : s.Alike s') :
    Agree Shell.Alike (listCandidates a s) (listCandidates a s') := by
  obtain ⟨out, buffered, row, col, cmd, opt, buf, rfl⟩ := h
  refine (Editor.Alike.withTokens ⟨out, rfl⟩ _ _ _).bind ?_
  rintro ⟨_, e⟩ ⟨_, _⟩ ⟨rfl, out, rfl⟩
  have found : Shell.Alike { s with toEditor := e } { s with
      toEditor := { e with out := out }
      buffered := buffered
      wsRow := row
      wsCol := col
      telnetCmd := cmd
      telnetOpt := opt
      subnegoBuf := buf } := ⟨out, buffered, row, col, cmd, opt, buf, rfl⟩
  exact (found.linefeed.fprintf a.listing).linefeed.refresh

theorem lsCandidate (h : s.Alike s') :
    Agree Shell.Alike (commandShellLsCandidate a s) (commandShellLsCandidate a s') := by
  have ended : Shell.Alike (s.edit fun e => { e with cursor := e.lineEnd })
      (s'.edit fun e => { e with cursor := e.lineEnd }) := by
    refine h.edit ?_
    rintro e _ ⟨out, rfl⟩
    exact ⟨out, rfl⟩
  have formatted := fun t t' (h : Shell.Alike t t') =>
    (h.edit fun _ _ he => he.format (m := a.memory)).linefeed.refresh (a := a)
  have listed := h.listCandidates (a := a)
  obtain ⟨out, buffered, row, col, cmd, opt, buf, rfl⟩ := h
  refine .ite (Iff.refl (s.cursor ≠ s.lineEnd)) ?_ listed
  exact ended.refresh.bind fun t t' h => (formatted t t' h).bind fun _ _ h => h.listCandidates

end Shell.Alike

/-- A function that is not telnet's does the same to shells that are alike. -/
theorem Keyfunc.run_alike {s s' : Shell} (f : Keyfunc) (plain : f.telnet = false)
    (h : s.Alike s') (a : Answers) : Agree Shell.Alike (f.run a s) (f.run a s') := by
  have backward := fun num => h.edit fun _ _ he => he.backward num
  have deleted := h.deleteAtCursor
  obtain ⟨out, buffered, row, col, cmd, opt, buf, rfl⟩ := id h
  have keys : ∀ keymap flag, Shell.Alike { s with keymap := keymap, flagEscape := flag }
      { s with
        toEditor := { s.toEditor with out := out }
        buffered := buffered
        wsRow := row
        wsCol := col
        telnetCmd := cmd
        telnetOpt := opt
        subnegoBuf := buf
        keymap := keymap
        flagEscape := flag } :=
    fun _ _ => ⟨out, buffered, row, col, cmd, opt, buf, rfl⟩
  cases f with
  | forwardChar => exact .ok (h.edit fun _ _ he => he.forward 1)
  | backwardChar => exact .ok (backward 1)
  | moveToBegin => exact .ok (backward s.cursor)
  | moveToEnd => exact .ok (h.edit fun _ _ he => he.forward (s.lineEnd - s.cursor))
  | deleteChar => exact .ite (Iff.refl (s.cursor < s.lineEnd)) deleted (.ok h)
  | backspace =>
      exact .ite (Iff.refl (s.cursor ≤ 0)) (.ok h) (.ite (Iff.refl (s.flagEscape = true))
        (h.editM fun _ _ he => he.deleteWordBackward) (backward 1).deleteAtCursor)
  | killLine => exact h.editM fun _ _ he => he.cut s.cursor s.lineEnd
  | killAll => exact (backward s.cursor).cutAll
  | yank => exact h.yank
  | clearScreen => exact ((h.fprintf _).edit fun _ _ he => he.format).refresh
  | refresh => exact (h.edit fun _ _ he => he.format).linefeed.refresh
  | emptyEnter => exact .ok (h.linefeed.edit fun _ _ he => he.clear).prompt.fflush
  | insertTab => exact h.editM fun _ _ he => he.insert _
  | escape => exact .ok (keys _ _)
  | deleteWordBackward => exact h.editM fun _ _ he => he.deleteWordBackward
  | deleteCharAdvanced =>
      exact .ite (Iff.refl (s.cursor < s.lineEnd)) deleted (.ite (Iff.refl (0 < s.lineEnd))
        (h.editM fun _ _ he => he.deleteString (s.lineEnd - 1) s.lineEnd) (.ok h))
  | inputChar => exact h.editM fun _ _ he => he.insert _
  | execute => exact h.execute
  | completion => exact h.completion
  | lsCandidate => exact h.lsCandidate
  | historyPrev => exact h.historyPrev
  | historyNext => exact h.historyNext
  | clearTerminal => exact (h.fprintf _).fflush.refresh
  | vtyNormal => exact .ok h.normal
  | vtyMoveWordBackward =>
      exact (h.editM fun _ _ he => he.moveWordBackward).bind fun _ _ h => .ok h.normal
  | vtyMoveWordForward =>
      exact (h.editM fun _ _ he => he.moveWordForward).bind fun _ _ h => .ok h.normal
  | vtyDeleteWordBackward =>
      exact (h.editM fun _ _ he => he.deleteWordBackward).bind fun _ _ h => .ok h.normal
  | vtyEscape1 => exact .ok (keys _ _)
  | vtyEscape2 => exact .ok (keys _ _)
  | iacStart | telnetOpt | telnetCmd | subnego | sbStart | sbEnd => cases plain

end Sdplane
