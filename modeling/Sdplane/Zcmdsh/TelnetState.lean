import Sdplane.Misc.Ensures
import Sdplane.Zcmdsh.Keyfunc

/-!
# The state of telnet

What the functions of telnet look at and change, as an automaton over the octets. Each function
of the keymaps does to this part of the shell what the automaton does, whatever it does to the
line; those that are not telnet's change nothing but the keymap.
-/

namespace Sdplane

/-- The last octet, the keymaps, the size of the window and the payload. -/
structure TelnetState where
  inputch : Byte
  keymap : Keymap
  keymapNormal : Byte → Option Keyfunc
  wsCol : BitVec 16
  wsRow : BitVec 16
  subnegoBuf : List Byte

def Shell.telnetState (s : Shell) : TelnetState :=
  ⟨s.inputch, s.keymap, s.keymapNormal, s.wsCol, s.wsRow, s.subnegoBuf⟩

/-- The size of a window is taken from a payload of five octets. -/
def TelnetState.resize (p : TelnetState) : TelnetState :=
  match p.subnegoBuf with
  | [opt, b1, b2, b3, b4] =>
      if opt = teloptNaws then { p with wsCol := windowSize b1 b2, wsRow := windowSize b3 b4 }
      else p
  | _ => p

/-- What a function of the keymaps does to the state of telnet. -/
def Keyfunc.telnetStep (p : TelnetState) : Keyfunc → TelnetState
  | .iacStart => { p with keymap := .iac1 }
  | .telnetCmd => { p with keymap := .iac2 }
  | .telnetOpt => { p with keymap := .normal }
  | .sbStart => { p with keymap := .subnego, subnegoBuf := [] }
  | .subnego =>
      if p.subnegoBuf.length < sizeofSubnegoBuf then
        { p with subnegoBuf := p.subnegoBuf ++ [p.inputch] }
      else p
  | .sbEnd => TelnetState.resize { p with keymap := .normal }
  | .vtyNormal | .vtyMoveWordBackward | .vtyMoveWordForward | .vtyDeleteWordBackward =>
      { p with keymap := .normal }
  | .vtyEscape1 => { p with keymap := .escape1 }
  | .vtyEscape2 => { p with keymap := .escape2 }
  | _ => p

namespace Shell

variable {s : Shell} {a : Answers}

@[simp] theorem telnetState_edit (f : Editor → Editor) : (s.edit f).telnetState = s.telnetState := rfl

@[simp] theorem telnetState_fprintf (bs : List Byte) : (s.fprintf bs).telnetState = s.telnetState := rfl

@[simp] theorem telnetState_fflush : s.fflush.telnetState = s.telnetState := rfl

@[simp] theorem telnetState_linefeed : (shellLinefeed s).telnetState = s.telnetState := rfl

@[simp] theorem telnetState_prompt : (shellPrompt s).telnetState = s.telnetState := by
  unfold shellPrompt
  split
  · rfl
  · simp only [telnetState_edit]
    split <;> rfl

@[simp] theorem telnetState_showLine : (showLine s).telnetState = s.telnetState := by
  simp [showLine]

@[simp] theorem telnetState_debug : (telnetDebug a s).telnetState = s.telnetState := by
  unfold telnetDebug
  split <;> rfl

/-- The program leaves telnet in this state, if it returns. -/
abbrev Leaves (r : Except Stop Shell) (p : TelnetState) : Prop := Returns r (·.telnetState = p)

/-- What is computed before does not matter. -/
theorem Leaves.bind_any {α : Type} {r : Except Stop α} {f : α → Except Stop Shell} {p : TelnetState}
    (next : ∀ x, Leaves (f x) p) : Leaves (r >>= f) p :=
  Returns.bind (P := fun _ => True) (fun _ _ => trivial) fun x _ => next x

/-- One program after another. -/
theorem Leaves.bind {r : Except Stop Shell} {f : Shell → Except Stop Shell} {p q : TelnetState}
    (first : Leaves r p) (next : ∀ t, t.telnetState = p → Leaves (f t) q) : Leaves (r >>= f) q :=
  Returns.bind first next

variable (s a)

theorem leaves_editM (f : Editor → Except Stop Editor) : Leaves (s.editM f) s.telnetState :=
  .bind_any fun _ => .ok rfl

theorem leaves_refresh : Leaves (shellRefresh a s) s.telnetState := by
  have debugged : Leaves (shellDebug a s) s.telnetState :=
    .bind_any fun _ => .bind_any fun _ => .bind_any fun _ => .ok rfl
  exact .ite (.bind debugged fun t same => .ok (telnetState_showLine.trans same))
    (.ok telnetState_showLine)

theorem leaves_clearPromptRefresh : Leaves (clearPromptRefresh a s) s.telnetState := by
  have refreshed := leaves_refresh (shellPrompt (s.edit shellClear)) a
  rwa [telnetState_prompt, telnetState_edit] at refreshed

theorem leaves_paging (closed : Bool) : Leaves (shellReadNowaitPaging a s closed) s.telnetState :=
  .ite (leaves_clearPromptRefresh { s with isPaging := false } a) (.ok rfl)

@[simp] theorem telnetState_answerExecution : (answerExecution a s).telnetState = s.telnetState := by
  have printed : Shell.telnetState (if a.execution.paging then s
      else s.fprintf a.execution.printed) = s.telnetState := by
    split <;> rfl
  unfold answerExecution
  dsimp only
  generalize (if a.execution.paging then s else s.fprintf a.execution.printed) = t at printed ⊢
  rw [← printed]
  split <;> rfl

theorem leaves_executeLine : Leaves (executeLine a s) s.telnetState :=
  .bind_any fun _ => .ok (telnetState_answerExecution s a)

theorem leaves_execute : Leaves (commandShellExecute a s) s.telnetState := by
  have ends : ∀ t : Shell, t.telnetState = s.telnetState → Leaves
      (if ¬ shellRunning t then .ok t else if ¬ t.isPaging then clearPromptRefresh a t else .ok t)
      s.telnetState :=
    fun t same => .ite (.ok same) (.ite (same ▸ leaves_clearPromptRefresh t a) (.ok same))
  refine .ite (leaves_clearPromptRefresh _ a) (.bind (leaves_executeLine _ a) fun t same => ?_)
  exact .ite (.bind (leaves_paging t a _) fun u same' => ends u (same'.trans same)) (ends t same)

theorem leaves_completion : Leaves (commandShellCompletion a s) s.telnetState := by
  refine .bind (leaves_editM s _) fun t same => ?_
  cases a.completion with
  | none => exact .ok same
  | some completion => exact .bind (leaves_editM t _) fun _ same' => .ok (same'.trans same)

theorem leaves_listCandidates : Leaves (listCandidates a s) s.telnetState :=
  .bind_any fun _ => leaves_refresh _ a

theorem leaves_lsCandidate : Leaves (commandShellLsCandidate a s) s.telnetState := by
  refine .ite (.bind (leaves_refresh _ a) fun t same => ?_) (leaves_listCandidates s a)
  exact .bind (leaves_refresh _ a) fun u same' =>
    same ▸ same' ▸ leaves_listCandidates u a

/-- A line of the history in place of the line. -/
theorem leaves_recalled (line : CString) (history : Option CommandHistory) :
    Leaves (do
      let s ← s.editM (shellDeleteString 0 s.lineEnd)
      let s ← s.editM (shellInsert a.memory line)
      .ok { s with history := history }) s.telnetState :=
  .bind (leaves_editM s _) fun t same => .bind (leaves_editM t _) fun _ same' =>
    .ok (same'.trans same)

theorem leaves_historyPrev : Leaves (commandHistoryPrev a s) s.telnetState := by
  unfold commandHistoryPrev
  split
  · exact .ok rfl
  · refine .ite (.ok rfl) ?_
    dsimp only
    split
    · exact .ok rfl
    · exact leaves_recalled s a _ _

theorem leaves_historyNext : Leaves (commandHistoryNext a s) s.telnetState := by
  unfold commandHistoryNext
  split
  · exact .ok rfl
  · refine .ite (.ok rfl) ?_
    dsimp only
    split
    · exact .ok rfl
    · exact leaves_recalled s a _ _

/-- Back to the normal keymap after an edit. -/
theorem leaves_normal (f : Editor → Except Stop Editor) :
    Leaves (return vtyShellKeyfuncNormal (← s.editM f)) { s.telnetState with keymap := .normal } :=
  .bind (leaves_editM s f) fun _ same => .ok (same ▸ rfl)

theorem telnetState_apply : (applySubnego a s).telnetState = s.telnetState.resize := by
  have payload : s.telnetState.subnegoBuf = s.subnegoBuf := rfl
  unfold applySubnego TelnetState.resize
  rw [payload]
  rcases s.subnegoBuf with _ | ⟨opt, _ | ⟨b1, _ | ⟨b2, _ | ⟨b3, _ | ⟨b4, _ | _⟩⟩⟩⟩⟩
  case cons.cons.cons.cons.cons.nil =>
    dsimp only
    rw [apply_ite Shell.telnetState, telnetState_debug]
    rfl
  all_goals rfl

theorem leaves_sbEnd :
    Leaves (vtyShellKeyfuncSbEnd a s) (Keyfunc.sbEnd.telnetStep s.telnetState) := by
  refine .bind_any fun _ => ?_
  have refreshed := leaves_refresh
    (applySubnego a (telnetDebug a (telnetDebug a { s with keymap := .normal }))).fflush a
  rw [telnetState_fflush, telnetState_apply, telnetState_debug, telnetState_debug] at refreshed
  exact refreshed

end Shell

/-- A function of the keymaps takes telnet where the automaton goes. -/
theorem Keyfunc.run_leaves (f : Keyfunc) (s : Shell) (a : Answers) :
    Shell.Leaves (f.run a s) (f.telnetStep s.telnetState) := by
  have edits := s.leaves_editM
  have still : Shell.Leaves (.ok s) s.telnetState := .ok rfl
  cases f with
  | deleteChar => exact .ite (edits _) still
  | backspace => exact .ite still (.ite (edits _) ((s.edit _).leaves_editM _))
  | killLine | insertTab | inputChar | deleteWordBackward => exact edits _
  | killAll => exact (s.edit _).leaves_editM _
  | yank =>
      change Shell.Leaves (shellKeyfuncYank a s) _
      unfold shellKeyfuncYank
      split
      · exact edits _
      · exact still
  | clearScreen | refresh | clearTerminal => exact Shell.leaves_refresh _ a
  | emptyEnter => exact .ok (Shell.telnetState_prompt (s := (shellLinefeed s).edit shellClear))
  | deleteCharAdvanced => exact .ite (edits _) (.ite (edits _) still)
  | execute => exact s.leaves_execute a
  | completion => exact s.leaves_completion a
  | lsCandidate => exact s.leaves_lsCandidate a
  | historyPrev => exact s.leaves_historyPrev a
  | historyNext => exact s.leaves_historyNext a
  | vtyMoveWordBackward | vtyMoveWordForward | vtyDeleteWordBackward => exact s.leaves_normal _
  | telnetOpt | sbStart => exact .ok Shell.telnetState_debug
  | subnego =>
      refine .ok ?_
      unfold vtyShellKeyfuncSubnego
      rw [Shell.telnetState_fflush, telnetStep]
      exact apply_ite Shell.telnetState _ _ _
  | sbEnd => exact s.leaves_sbEnd a
  | forwardChar | backwardChar | moveToBegin | moveToEnd | escape | vtyNormal | vtyEscape1
  | vtyEscape2 | iacStart | telnetCmd => exact .ok rfl

/-! ## An octet -/

/-- `shell->keymap[ch]`, as far as telnet knows. -/
def TelnetState.keyfunc (p : TelnetState) (ch : Byte) : Option Keyfunc :=
  match p.keymap with
  | .normal => p.keymapNormal ch
  | .escape1 => some (keyFuncEscape1 ch)
  | .escape2 => some .vtyNormal
  | .iac1 => some (keyFuncIac1 ch)
  | .iac2 => some .telnetOpt
  | .subnego => some (keyFuncSubnego ch)

/-- The automaton takes an octet. -/
def TelnetState.step (p : TelnetState) (ch : Byte) : TelnetState :=
  let p := { p with inputch := ch }
  match p.keyfunc ch with
  | some f => f.telnetStep p
  | none => p

/-- `shell_input` takes telnet where the automaton goes. -/
theorem shellInput_leaves (a : Answers) (ch : Byte) (s : Shell) :
    Shell.Leaves (shellInput a ch s) (s.telnetState.step ch) := by
  have debugged : Shell.Leaves (debugInput a { s with inputch := ch })
      { s.telnetState with inputch := ch } := .ite (Shell.leaves_refresh _ a) (.ok rfl)
  have called : ∀ t : Shell, t.telnetState = { s.telnetState with inputch := ch } →
      Shell.Leaves (callKeyfunc a ch t) (s.telnetState.step ch) := by
    intro t same
    have bound : t.keyfunc ch = TelnetState.keyfunc { s.telnetState with inputch := ch } ch := by
      rw [← same]
      rfl
    unfold callKeyfunc TelnetState.step
    rw [bound, ← same]
    dsimp only
    cases t.telnetState.keyfunc ch with
    | some f => exact f.run_leaves t a
    | none => exact .ok rfl
  refine debugged.bind fun t same => (called t same).bind fun u same' => ?_
  have cleared : Shell.telnetState (if s.flagEscape then { u with flagEscape := false } else u) =
      s.telnetState.step ch := by
    rw [← same']
    split <;> rfl
  refine .ite ?_ (.ok cleared)
  rw [← cleared]
  exact Shell.leaves_refresh _ a

/-- A stream of octets takes telnet where the automaton goes. -/
theorem typeKeys_leaves (keys : List (Byte × Answers)) (s : Shell) :
    Shell.Leaves (keys.foldlM (fun s key => shellInput key.2 key.1 s) s)
      ((keys.map Prod.fst).foldl TelnetState.step s.telnetState) := by
  induction keys generalizing s with
  | nil => exact .ok rfl
  | cons key keys ih =>
      rw [List.foldlM_cons, List.map_cons, List.foldl_cons]
      exact (shellInput_leaves key.2 key.1 s).bind fun t same => same ▸ ih t

end Sdplane
