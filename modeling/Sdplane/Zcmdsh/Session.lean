import Sdplane.Zcmdsh.Prompt

/-!
# Sessions

A shell whose commands are those of a command set, and what their functions do to the rest of the
program. `shell_read` (`shell.c:713-737`) hands over what `read` returns octet by octet, and a line
that is entered goes to `command_execute`. All that a session is between two keys is a prompt, and
what the lines executed so far did to the rest of the program.
-/

namespace Sdplane

/-! ## Commands that do something -/

/-- What a function of a command prints, the flags it leaves, and what it sets `shell->pager` to,
    if it does. -/
structure Effect where
  printed : List Byte
  exit : Bool
  debugShell : Bool
  pager : Option Bool

/-- A command set, and what its functions do to the rest of the program. -/
structure CommandSystem (φ ω : Type) where
  libc : Libc
  cmdset : CommandSet φ
  call : φ → List (Option (List Byte)) → ω → ω × Effect

/-- A shell, its `shell->pager`, and the rest of the program. -/
structure Session (ω : Type) where
  shell : Shell
  pager : Bool
  world : ω

section
variable {φ ω : Type} (sys : CommandSystem φ ω)

/-- `command_execute` with the function it calls, if there is one. -/
def CommandSystem.execute (line : List Byte) (w : ω) : ω × Option Effect :=
  match commandExecute sys.libc sys.cmdset line with
  | some (func, argv) =>
      let (w', effect) := sys.call func argv w
      (w', some effect)
  | none => (w, none)

/-- What `command_execute` leaves. Without a function there is nothing but the answer -1. -/
def executionOf (debugShell paging pagerClosed : Bool) : Option Effect → Execution
  | some effect => ⟨0, effect.printed, effect.exit, effect.debugShell, paging, pagerClosed⟩
  | none => ⟨-1, [], false, debugShell, paging, pagerClosed⟩

/-- The line a key has `command_shell_execute` call `command_execute` with. -/
def executedLine (a : Answers) (ch : Byte) (s : Shell) : Option (List Byte) :=
  let line := (readyToExecute a s).stringAt 0
  if s.keyfunc ch = some .execute ∧ line.length ≠ 0 then some line.octets else none

/-- What a key is answered, if this line is executed, and `shell->pager` behind it. Where that is
    set `pager_start` tries to start a pager; where it is not, one that runs goes on. -/
def CommandSystem.answer (pager paging : Bool) (a : Answers) (debugShell : Bool) (w : ω) :
    Option (List Byte) → ω × Bool × Answers
  | some line =>
      let (w', effect) := sys.execute line w
      let paging := if pager then a.execution.paging else paging
      (w', (effect.bind Effect.pager).getD pager,
        { a with execution := executionOf debugShell paging a.execution.pagerClosed effect })
  | none => (w, pager, a)

namespace Session

/-- `shell_input`, where a line that is executed is executed by the command set. -/
def input (x : Session ω) (key : Byte × Answers) : Except Stop (Session ω) := do
  let s ← debugInput key.2 { x.shell with inputch := key.1 }
  let (w, pager, a) := sys.answer x.pager s.isPaging key.2 s.debugShell x.world
    (executedLine key.2 key.1 s)
  let s ← shellInput a key.1 x.shell
  .ok ⟨s, pager, w⟩

/-- The loop of `shell_read` over what `read` returned. -/
def inputs (x : Session ω) (keys : List (Byte × Answers)) : Except Stop (Session ω) :=
  keys.foldlM (input sys) x

/-- What `shell_read` does at the end of the file: `shell_linefeed` and `shell_read_close`. -/
def readClose (x : Session ω) : Session ω :=
  { x with shell := { shellLinefeed x.shell with flagClose := true } }

end Session

namespace CommandSystem

/-- These lines are executed, one after the other. -/
def executeAll (lines : List CString) (w : ω) : ω :=
  lines.foldl (fun w line => (sys.execute line.octets w).1) w

theorem executeAll_concat (lines : List CString) (line : CString) (w : ω) :
    sys.executeAll (lines ++ [line]) w =
      (sys.execute line.octets (sys.executeAll lines w)).1 := by
  rw [executeAll, List.foldl_append]
  rfl

/-- The flag of the shell only goes into the flag of the shell. -/
theorem answer_debugShell (pager paging : Bool) (a : Answers) (b b' : Bool)
    (line : Option (List Byte)) (w : ω) : ∃ w' pager' y y',
      sys.answer pager paging a b w line = (w', pager', { a with execution := y }) ∧
      sys.answer pager paging a b' w line = (w', pager', { a with execution := y' }) ∧
      y.exit = y'.exit ∧ y.paging = y'.paging ∧ y.pagerClosed = y'.pagerClosed := by
  cases line with
  | none => exact ⟨w, pager, a.execution, a.execution, rfl, rfl, rfl, rfl, rfl⟩
  | some line =>
      simp only [answer]
      cases (sys.execute line w).2 <;> exact ⟨_, _, _, _, rfl, rfl, rfl, rfl, rfl⟩

end CommandSystem

/-! ## Dialogs -/

namespace Prompt

variable (a : Answers) (p : Prompt)

/-- An escape is over with the next key. -/
def unescape (escaped : Bool) : Prompt := if escaped then { p with escape := false } else p

/-- The line is ready to be executed. -/
def ready : Prompt := { p with view := p.view.uncommented.formatted a.memory.format }

/-- What is executed, if it is not empty. -/
def entered : CString := .ofOctets (p.ready a).view.line.text

/-- A line was executed, and copied if there was memory for it. -/
def record (line : CString) (x : Execution) : Prompt :=
  { p with
    lines := p.lines ++ [line]
    recorded := p.recorded ++ [a.memory.recorded line]
    back := 0
    exited := p.exited || x.exit
    paging := x.paging }

/-- Behind a pager there is an empty line. -/
def lookAtPager (closed : Bool) : Prompt := if closed then { p.emptied with paging := false } else p

/-- The line is executed, if it is not empty. Behind the last one the line stays as it is, and so
    it does while a pager runs. -/
def execute (x : Execution) : Prompt :=
  if (p.entered a).octets = [] then (p.ready a).emptied
  else
    let p := (p.ready a).record a (p.entered a) x
    let p := if p.paging then p.lookAtPager x.pagerClosed else p
    if p.running ∧ ¬p.paging then p.emptied else p

end Prompt

/-- A prompt, whether there are pagers, and the rest of the program. -/
structure Dialog (ω : Type) where
  prompt : Prompt
  pager : Bool
  world : ω

namespace Dialog

/-- The line is entered. -/
def execute (c : Dialog ω) (a : Answers) : Dialog ω :=
  let line := c.prompt.entered a
  let (w, pager, answered) := sys.answer c.pager c.prompt.paging a false c.world
    (if line.octets = [] then none else some line.octets)
  ⟨c.prompt.execute a answered.execution, pager, w⟩

/-- What a key does, but for the end of an escape. -/
def press (c : Dialog ω) (key : Byte × Answers) : Dialog ω :=
  match c.prompt.keyfunc key.1 with
  | some f =>
      if f = .execute then c.execute sys key.2
      else { c with prompt := c.prompt.press key.2 key.1 f }
  | none => c

/-- A key is typed. -/
def key (c : Dialog ω) (key : Byte × Answers) : Dialog ω :=
  let c' := c.press sys key
  { c' with prompt := c'.prompt.unescape c.prompt.escape }

/-- What `read` returned is typed. -/
def keys (c : Dialog ω) (keys : List (Byte × Answers)) : Dialog ω := keys.foldl (key sys) c

/-- There is enough memory for each of these keys. -/
def Supplied : Dialog ω → List (Byte × Answers) → Prop :=
  Along (key sys) fun c key => Enough key.2 (c.key sys key).prompt

end Dialog

end

/-! ## Executing a line -/

theorem Prompt.keyfunc_atPrompt {p : Prompt}
    (plain : ∀ ch, (p.normal ch).all (fun f => f.atPrompt || f = .execute) = true)
    (typing : p.keymap.typing = true) {ch : Byte} {f : Keyfunc} (bound : p.keyfunc ch = some f) :
    f = .execute ∨ f.atPrompt = true := by
  rw [keyfunc, Shell.keyfunc] at bound
  cases keymap : p.keymap with
  | normal =>
      rw [keymap] at bound
      have known := plain ch
      rw [show p.normal ch = some f from bound] at known
      simpa [or_comm] using known
  | escape1 =>
      rw [keymap] at bound
      cases bound
      unfold keyFuncEscape1
      split_ifs <;> exact .inr rfl
  | escape2 =>
      rw [keymap] at bound
      cases bound
      exact .inr rfl
  | iac1 | iac2 | subnego =>
      rw [keymap] at typing
      cases typing

theorem Prompt.unescape_view (p : Prompt) (escaped : Bool) : (p.unescape escaped).view = p.view := by
  cases escaped <;> rfl

theorem Prompt.execute_congr (p : Prompt) (a : Answers) {x y : Execution}
    (same : x.exit = y.exit ∧ x.paging = y.paging ∧ x.pagerClosed = y.pagerClosed) :
    p.execute a x = p.execute a y := by
  cases x
  cases y
  obtain ⟨rfl, rfl, rfl⟩ := same
  rfl

namespace Shell.Shows

variable {s : Shell} {p : Prompt} (h : s.Shows p) (a : Answers)

include h

theorem keyfunc (ch : Byte) : s.keyfunc ch = p.keyfunc ch := by
  rw [Prompt.keyfunc, Shell.keyfunc, Shell.keyfunc, h.keymap, h.keymapNormal]

theorem running : shellRunning s = p.running := by
  rw [shellRunning, h.exit, h.close, Prompt.running]

theorem stringAt : s.stringAt 0 = .ofOctets p.view.line.text := by
  have all := h.views.holds.stringAt (i := 0) (Nat.zero_le _)
  rw [Nat.cast_zero, List.drop_zero] at all
  rw [← all, CString.ofOctets_octets]

theorem debugInput (ch : Byte) : ∃ s', debugInput a { s with inputch := ch } = .ok s' ∧
    s'.Shows p ∧ s'.inputch = ch := by
  have saved : Shell.Shows { s with inputch := ch } p := { h with }
  unfold Sdplane.debugInput
  split
  · have printed := saved.fprintf (s.nl ++ a.debugText ++ s.nl)
    exact ⟨_, shellRefresh_spec printed.views.holds a, printed.written _, rfl⟩
  · exact ⟨_, rfl, saved, rfl⟩

theorem finishInput (escaped : Bool) :
    ∃ s', finishInput a escaped s = .ok s' ∧ s'.Shows (p.unescape escaped) := by
  have cleared : Shell.Shows (if escaped then { s with flagEscape := false } else s)
      (p.unescape escaped) := by
    cases escaped with
    | false => exact h
    | true => exact { h with escape := rfl }
  unfold Sdplane.finishInput
  generalize (if escaped then { s with flagEscape := false } else s) = s' at cleared ⊢
  dsimp only
  split
  · exact cleared.refresh a
  · exact ⟨_, rfl, cleared⟩

theorem ready : (readyToExecute a s).Shows (p.ready a) :=
  { h with views := ((h.views.cutComment.format a.memory).writeFd _) }

theorem answerExecution : (answerExecution a s).Shows
    { p with exited := p.exited || a.execution.exit, paging := a.execution.paging } := by
  have exit : (s.flagExit || a.execution.exit) = (p.exited || a.execution.exit) := by rw [h.exit]
  unfold Sdplane.answerExecution
  dsimp only
  split <;> split <;> exact { h with exit := exit, paging := rfl }

theorem executeLine : ReturnsGiven (executeLine a s) .noMemory (a.memory.history = true)
    (·.Shows (p.record a (.ofOctets p.view.line.text) a.execution)) := by
  have answered := h.answerExecution a
  have added := answered.history.add a.memory (s.stringAt 0)
  rw [h.stringAt] at added
  rw [Sdplane.executeLine, h.stringAt]
  exact added.bind fun _ browses => .ok { answered with history := browses }

theorem lookAtPager (closed : Bool) : ∃ s', shellReadNowaitPaging a s closed = .ok s' ∧
    s'.Shows (p.lookAtPager closed) := by
  cases closed with
  | false => exact ⟨s, rfl, h⟩
  | true =>
      have stopped : Shell.Shows { s with isPaging := false } { p with paging := false } :=
        { h with paging := rfl }
      exact stopped.clearPromptRefresh a

/-- `command_shell_execute`. -/
theorem execute : ReturnsGiven (commandShellExecute a s) .noMemory (a.memory.history = true)
    (·.Shows (p.execute a a.execution)) := by
  have ready := h.ready a
  have line : (readyToExecute a s).stringAt 0 = p.entered a := ready.stringAt
  have empty : (p.entered a).length = 0 ↔ (p.entered a).octets = [] := List.length_eq_zero_iff
  rw [commandShellExecute_eq, line, Prompt.execute]
  by_cases nothing : (p.entered a).octets = []
  · rw [if_pos (empty.mpr nothing), if_pos nothing]
    exact .of_ok (ready.clearPromptRefresh a)
  · rw [if_neg (mt empty.mp nothing), if_neg nothing]
    refine (ready.executeLine a).bind fun s₁ shows => ?_
    change s₁.Shows ((p.ready a).record a (p.entered a) a.execution) at shows
    dsimp only
    generalize (p.ready a).record a (p.entered a) a.execution = p' at shows ⊢
    have looked : ∃ s₂, (if s₁.isPaging then shellReadNowaitPaging a s₁ a.execution.pagerClosed
        else .ok s₁) = .ok s₂ ∧
          s₂.Shows (if p'.paging then p'.lookAtPager a.execution.pagerClosed else p') := by
      rw [shows.paging]
      cases p'.paging with
      | false => exact ⟨s₁, rfl, shows⟩
      | true => exact shows.lookAtPager a _
    obtain ⟨s₂, looks, shows⟩ := looked
    generalize (if p'.paging then p'.lookAtPager a.execution.pagerClosed else p') = p'' at shows ⊢
    rw [looks]
    change ReturnsGiven (if ¬shellRunning s₂ then .ok s₂
      else if ¬s₂.isPaging then Sdplane.clearPromptRefresh a s₂ else .ok s₂) _ _ _
    rw [shows.running, shows.paging]
    cases p''.running <;> cases p''.paging
    · exact .ok shows
    · exact .ok shows
    · exact .of_ok (shows.clearPromptRefresh a)
    · exact .ok shows

end Shell.Shows

/-! ## The session is the dialog -/

/-- A shell whose keys do nothing but what is said of a prompt. -/
theorem freshShell_shows (binds : List (Byte × Keyfunc)) (writefd : Nat)
    (plain : ∀ ch, ((freshShell binds writefd).keymapNormal ch).all
      (fun f => f.atPrompt || f = .execute) = true) :
    (freshShell binds writefd).Shows (.fresh (freshShell binds writefd).keymapNormal) := by
  have views := freshShell_views binds writefd
  obtain ⟨keymap, fresh⟩ := freshShell_eq binds writefd
  refine ⟨views, ?_, rfl, plain, ?_, rfl, ?_, ?_, ?_, ?_⟩
  all_goals rw [fresh]
  all_goals first | rfl | exact ⟨rfl, rfl⟩

/-- The session is at the prompt of the dialog. -/
def Session.Shows {ω : Type} (x : Session ω) (c : Dialog ω) : Prop :=
  x.shell.Shows c.prompt ∧ x.pager = c.pager ∧ x.world = c.world

section
variable {φ ω : Type} (sys : CommandSystem φ ω) {x : Session ω} {c : Dialog ω}

/-- What a key executes. -/
theorem Shell.Shows.executedLine_eq {s : Shell} {p : Prompt} (h : s.Shows p) (a : Answers) (ch : Byte) :
    executedLine a ch s = if p.keyfunc ch = some .execute ∧ (p.entered a).octets ≠ [] then
      some (p.entered a).octets else none := by
  have line : (readyToExecute a s).stringAt 0 = p.entered a := (h.ready a).stringAt
  simp only [executedLine, line, h.keyfunc, CString.length, ne_eq, List.length_eq_zero_iff]

/-- What the function of a key does, once it is known what it executes. -/
theorem Shell.Shows.press {s : Shell} {c : Dialog ω} (h : s.Shows c.prompt) (a : Answers) :
    ∃ y, sys.answer c.pager s.isPaging a s.debugShell c.world (executedLine a s.inputch s) =
        ((c.press sys (s.inputch, a)).world, (c.press sys (s.inputch, a)).pager,
          { a with execution := y }) ∧
      ReturnsGiven (callKeyfunc { a with execution := y } s.inputch s) .noMemory
        (Enough a (c.press sys (s.inputch, a)).prompt)
        (·.Shows (c.press sys (s.inputch, a)).prompt) := by
  have executed := h.executedLine_eq a s.inputch
  have keyfunc := h.keyfunc s.inputch
  unfold Dialog.press callKeyfunc
  rw [executed, keyfunc, h.paging]
  cases bound : c.prompt.keyfunc s.inputch with
  | none => exact ⟨a.execution, by simp [CommandSystem.answer], .ok h⟩
  | some f =>
      dsimp only
      by_cases executes : f = .execute
      · subst executes
        simp only [true_and, ne_eq, ite_not, if_true]
        obtain ⟨w, pager, y, y', answered, answered', same⟩ := sys.answer_debugShell c.pager
          c.prompt.paging a s.debugShell false
          (if (c.prompt.entered a).octets = [] then none else some (c.prompt.entered a).octets)
          c.world
        have done := h.execute { a with execution := y }
        rw [Dialog.execute, answered']
        dsimp only
        rw [← c.prompt.execute_congr a same]
        exact ⟨y, answered, done.imp (fun _ shows => shows) fun enough => enough.2.1⟩
      · rw [if_neg executes, if_neg (by simp [executes])]
        exact ⟨a.execution, rfl,
          h.run a ((Prompt.keyfunc_atPrompt h.plain h.typing bound).resolve_left executes)⟩

/-- A key. -/
theorem Session.Shows.input (h : x.Shows c) (key : Byte × Answers) :
    ReturnsGiven (x.input sys key) .noMemory (Enough key.2 (c.key sys key).prompt)
      (·.Shows (c.key sys key)) := by
  obtain ⟨ch, a⟩ := key
  obtain ⟨shows, pager, world⟩ := h
  obtain ⟨s, debugged, showsKey, rfl⟩ := shows.debugInput a ch
  obtain ⟨y, answered, called⟩ := showsKey.press sys a
  rw [← world, ← pager] at answered
  have typed : x.input sys (s.inputch, a) =
      (callKeyfunc { a with execution := y } s.inputch s >>=
        finishInput { a with execution := y } x.shell.flagEscape) >>=
          fun s' => .ok ⟨s', (c.press sys (s.inputch, a)).pager,
            (c.press sys (s.inputch, a)).world⟩ := by
    have again : debugInput { a with execution := y } { x.shell with inputch := s.inputch } = .ok s :=
      debugged
    simp only [Session.input, shellInput, debugged, answered, again, bind, Except.bind]
  have view : (c.key sys (s.inputch, a)).prompt.view =
      (c.press sys (s.inputch, a)).prompt.view := Prompt.unescape_view _ _
  rw [typed, shows.escape, Enough, view]
  exact (called.bind fun s₂ shows₂ => .of_ok (shows₂.finishInput _ _)).bind
    fun s₃ shows₃ => .ok ⟨shows₃, rfl, rfl⟩

/-- What one `read` returns. -/
theorem Session.Shows.inputs (h : x.Shows c) (keys : List (Byte × Answers)) :
    ReturnsGiven (x.inputs sys keys) .noMemory (c.Supplied sys keys)
      (·.Shows (c.keys sys keys)) :=
  foldlM_simulates (R := Session.Shows) (fun _ _ key h => h.input sys key) keys h

/-! ## What was done -/

/-- What was done to the rest of the program is what the lines did. -/
def Dialog.Done (w : ω) (c : Dialog ω) : Prop := c.world = sys.executeAll c.prompt.lines w

namespace Prompt

variable (a : Answers) (p : Prompt)

theorem revisit_lines (k : Nat) : (p.revisit k).lines = p.lines := by
  unfold revisit
  split <;> rfl

/-- No key but the one that executes a line changes what was executed. -/
theorem press_lines (ch : Byte) (f : Keyfunc) : (p.press a ch f).lines = p.lines := by
  cases f with
  | historyPrev => exact p.revisit_lines _
  | historyNext =>
      dsimp only [press]
      split
      · exact p.revisit_lines _
      · rfl
  | completion =>
      dsimp only [press, complete]
      split <;> rfl
  | backspace | deleteCharAdvanced | lsCandidate =>
      dsimp only [press]
      split <;> rfl
  | _ => rfl

theorem unescape_lines (escaped : Bool) : (p.unescape escaped).lines = p.lines := by
  cases escaped <;> rfl

theorem lookAtPager_lines (closed : Bool) : (p.lookAtPager closed).lines = p.lines := by
  cases closed <;> rfl

theorem execute_lines (x : Execution) : (p.execute a x).lines =
    if (p.entered a).octets = [] then p.lines else p.lines ++ [p.entered a] := by
  unfold execute
  split
  · rfl
  · dsimp only
    split <;> split <;> first | rfl | exact lookAtPager_lines _ _

end Prompt

namespace Dialog

variable {w : ω}

theorem Done.execute (h : c.Done sys w) (a : Answers) : (c.execute sys a).Done sys w := by
  have before : c.world = sys.executeAll c.prompt.lines w := h
  rw [Dialog.execute, Done]
  dsimp only
  rw [Prompt.execute_lines]
  split
  · exact h
  · rw [sys.executeAll_concat, ← before]
    rfl

theorem Done.press (h : c.Done sys w) (key : Byte × Answers) :
    (c.press sys key).Done sys w := by
  rw [Dialog.press]
  split
  · split
    · exact h.execute sys key.2
    · rw [Done, Prompt.press_lines]
      exact h
  · exact h

theorem Done.key (h : c.Done sys w) (key : Byte × Answers) : (c.key sys key).Done sys w := by
  rw [Dialog.key, Done, Prompt.unescape_lines]
  exact h.press sys key

theorem Done.keys (h : c.Done sys w) (keys : List (Byte × Answers)) :
    (c.keys sys keys).Done sys w := by
  induction keys generalizing c with
  | nil => exact h
  | cons key keys ih => exact ih (h.key sys key)

end Dialog

end

end Sdplane
