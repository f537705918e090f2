import Sdplane.Zcmdsh.Abbreviation
import Sdplane.Zcmdsh.Session

/-!
# Scripts

The shell of `startup_config` (`sdplane/startup_config.c:29-83`), which reads its lines from a
file. What its session does to the rest of the program is read off the dialog: what is typed goes
to the end of the line, and an end of a line executes it.
-/

namespace Sdplane

open Words

/-! ## The loop -/

/-- The loop of `startup_config`, over what one `read` after the other returns until the end of
    the file. -/
def Session.startupLoop {φ ω : Type} (sys : CommandSystem φ ω) :
    List (List (Byte × Answers)) → Session ω → Except Stop (Session ω)
  | [], x => .ok (if shellRunning x.shell then x.readClose else x)
  | keys :: rest, x =>
      if shellRunning x.shell then do
        let x ← x.inputs sys keys
        startupLoop sys rest x
      else .ok x

/-- The shell of `startup_config`; its `shell->pager` is off. -/
def startupShell : Shell :=
  { freshShell commandShellBinds 1 with prompt := litString "startup-config> " }

/-! ## What a script says -/

/-- The ends of a line. -/
def endsLine (b : Byte) : Bool := b = newlineByte ∨ b = carriageReturn

/-- What a script may be made of: what is typed as it is, and the ends of its lines. The list of
    candidates that `?` prints is for a reader. -/
def inScript (b : Byte) : Prop := (0x20 ≤ b ∧ b ≤ 0x7E ∧ b ≠ charByte '?') ∨ endsLine b = true

instance : DecidablePred inScript := fun b =>
  inferInstanceAs (Decidable ((0x20 ≤ b ∧ b ≤ 0x7E ∧ b ≠ charByte '?') ∨ endsLine b = true))

/-- A command that neither leaves the shell nor sets `shell->pager`. -/
def Effect.Stays (effect : Effect) : Prop := effect.exit = false ∧ effect.pager ≠ some true

/-- The shell goes on without a pager. -/
theorem Effect.Stays.left {effect : Option Effect} (stays : ∀ e ∈ effect, e.Stays)
    (debugShell pagerClosed : Bool) :
    (executionOf debugShell false pagerClosed effect).exit = false ∧
      (executionOf debugShell false pagerClosed effect).paging = false ∧
      (effect.bind Effect.pager).getD false = false := by
  cases effect with
  | none => exact ⟨rfl, rfl, rfl⟩
  | some effect =>
      obtain ⟨exit, pager⟩ := stays effect rfl
      refine ⟨exit, rfl, ?_⟩
      rw [Option.bind_some]
      cases same : effect.pager with
      | none => rfl
      | some set =>
          cases set with
          | false => rfl
          | true => exact absurd same pager

section
variable {φ ω : Type} (sys : CommandSystem φ ω)

namespace CommandSystem

/-- A line of a script: the words in front of its comment are executed, if there are any. -/
def runLine (line : List Byte) (w : ω) : ω × Option Effect :=
  let words := joined space (withoutComment line)
  if words = [] then (w, none) else sys.execute words w

/-- One line after the other. -/
def interpret (lines : List (List Byte)) (w : ω) : ω :=
  lines.foldl (fun w line => (sys.runLine line w).1) w

/-- None of the lines leaves the shell or sets `shell->pager`. -/
def Stays : List (List Byte) → ω → Prop
  | [], _ => True
  | line :: lines, w =>
      (∀ effect ∈ (sys.runLine line w).2, effect.Stays) ∧ Stays lines (sys.runLine line w).1

/-- Commands that never do. -/
theorem stays_of_never (never : ∀ func argv w, (sys.call func argv w).2.Stays)
    (lines : List (List Byte)) (w : ω) : sys.Stays lines w := by
  induction lines generalizing w with
  | nil => trivial
  | cons line lines ih =>
      refine ⟨fun effect done => ?_, ih _⟩
      unfold runLine execute at done
      dsimp only at done
      split at done
      · cases done
      · split at done
        · cases done
          exact never _ _ _
        · cases done

end CommandSystem

end

/-- Memory is given. -/
structure Memory.Gives (mem : Memory) : Prop where
  expand : ∀ n, (mem.expand n).isSome = true
  format : mem.format = true
  history : mem.history = true

theorem startupShell_shows : startupShell.Shows (.fresh startupShell.keymapNormal) := by
  have fresh := freshShell_shows commandShellBinds 1 (by decide +kernel)
  exact { fresh with }

/-- What the keys of a script are bound to. -/
theorem startupShell_keymap (ch : Byte) :
    (0x20 ≤ ch ∧ ch ≤ 0x7E ∧ ch ≠ charByte '?' →
      startupShell.keymapNormal ch = some .inputChar) ∧
    (endsLine ch = true → startupShell.keymapNormal ch = some .execute) := by
  revert ch
  decide +kernel

/-! ## All of a script -/

/-- The lines of a text that end; behind them is what is left open. -/
def completeLines (text : List Byte) : List (List Byte) := (text.splitOnP endsLine).dropLast

/-- The line a text leaves open. -/
def openLine (text : List Byte) : List Byte := (text.splitOnP endsLine).getLastD []

section
variable {t : List Byte} (opened : ∀ b ∈ t, endsLine b = false)

include opened

theorem completeLines_open : completeLines t = [] := by
  rw [completeLines, List.splitOnP_eq_singleton opened]
  rfl

theorem openLine_open : openLine t = t := by
  rw [openLine, List.splitOnP_eq_singleton opened]
  rfl

theorem completeLines_end {b : Byte} (ends : endsLine b = true) (rest : List Byte) :
    completeLines (t ++ b :: rest) = t :: completeLines rest := by
  rw [completeLines, List.splitOnP_append_cons_of_forall_mem opened b ends,
    List.dropLast_cons_of_ne_nil (List.splitOnP_ne_nil _ _)]
  rfl

theorem openLine_end {b : Byte} (ends : endsLine b = true) (rest : List Byte) :
    openLine (t ++ b :: rest) = openLine rest := by
  rw [openLine, List.splitOnP_append_cons_of_forall_mem opened b ends, openLine]
  cases lines : rest.splitOnP endsLine with
  | nil => exact absurd lines (List.splitOnP_ne_nil _ _)
  | cons line lines => rfl

/-- What is open goes to the front of a line. -/
theorem splitOnP_open (rest : List Byte) :
    (t ++ rest).splitOnP endsLine = (rest.splitOnP endsLine).modifyHead (t ++ ·) := by
  induction t with
  | nil =>
      rw [List.nil_append]
      cases rest.splitOnP endsLine <;> rfl
  | cons b t ih =>
      have goesOn : ¬endsLine b = true := by simp [opened b List.mem_cons_self]
      rw [List.cons_append, List.splitOnP_cons_eq_if_modifyHead, if_neg goesOn,
        ih fun b' mem => opened b' (List.mem_cons_of_mem b mem), List.modifyHead_modifyHead]
      rfl

theorem exists_line (rest : List Byte) :
    ∃ line ∈ (t ++ rest).splitOnP endsLine, t.length ≤ line.length := by
  rw [splitOnP_open opened]
  cases lines : rest.splitOnP endsLine with
  | nil => exact absurd lines (List.splitOnP_ne_nil _ _)
  | cons line lines => exact ⟨t ++ line, List.mem_cons_self, by simp⟩

end

/-- A text of lines that all end. -/
def endedLines (lines : List (List Byte)) : List Byte :=
  (lines.map fun line => line ++ [newlineByte]).flatten

theorem splitOnP_endedLines {lines : List (List Byte)}
    (opened : ∀ line ∈ lines, ∀ b ∈ line, endsLine b = false) :
    (endedLines lines).splitOnP endsLine = lines ++ [[]] := by
  induction lines with
  | nil => exact List.splitOnP_nil
  | cons line lines ih =>
      obtain ⟨here, later⟩ := List.forall_mem_cons.mp opened
      have text : endedLines (line :: lines) = line ++ newlineByte :: endedLines lines := by
        simp [endedLines]
      rw [text, List.splitOnP_append_cons_of_forall_mem here newlineByte (by decide), ih later]
      rfl

namespace Dialog

variable {φ ω : Type} {sys : CommandSystem φ ω}

/-- The dialog has this much of a line of a script, and this much is to come. -/
structure Reading (sys : CommandSystem φ ω) (c : Dialog ω) (t rest : List Byte) : Prop where
  line : c.prompt.view.line = ⟨t, []⟩
  pager : c.pager = false
  paging : c.prompt.paging = false
  normal : c.prompt.normal = startupShell.keymapNormal
  keymap : c.prompt.keymap = .normal
  escape : c.prompt.escape = false
  exited : c.prompt.exited = false
  closed : c.prompt.closed = false
  noNul : 0 ∉ t
  opened : ∀ b ∈ t, endsLine b = false
  script : ∀ b ∈ rest, inScript b
  short : ∀ line ∈ (t ++ rest).splitOnP endsLine, line.length + 2 ≤ 2 ^ 30
  stays : sys.Stays (completeLines (t ++ rest)) c.world

/-- From one dialog to the next, with less to come: all that is executed, and the line left open,
    are the same. -/
def Outlives (sys : CommandSystem φ ω) (c : Dialog ω) (text : List Byte) (c' : Dialog ω)
    (text' : List Byte) : Prop :=
  sys.interpret (completeLines text) c.world = sys.interpret (completeLines text') c'.world ∧
    openLine text = openLine text'

variable {c : Dialog ω} {t rest : List Byte} {key : Byte × Answers}

namespace Reading

/-- At the beginning of a script. -/
theorem start {text : List Byte} {w : ω} (script : ∀ b ∈ text, inScript b)
    (short : ∀ line ∈ text.splitOnP endsLine, line.length + 2 ≤ 2 ^ 30)
    (stays : sys.Stays (completeLines text) w) :
    Dialog.Reading sys ⟨.fresh startupShell.keymapNormal, false, w⟩ [] text :=
  ⟨rfl, rfl, rfl, rfl, rfl, rfl, rfl, rfl, List.not_mem_nil, by simp, script, short, stays⟩

theorem keyfunc (h : c.Reading sys t rest) (ch : Byte) :
    c.prompt.keyfunc ch = startupShell.keymapNormal ch := by
  rw [Prompt.keyfunc, h.keymap, h.normal]
  rfl

theorem running (h : c.Reading sys t rest) : c.prompt.running = true := by
  rw [Prompt.running, h.exited, h.closed]
  rfl

/-- What a key of a script does. -/
theorem key_eq (h : c.Reading sys t rest) : c.key sys key = c.press sys key := by
  rw [Dialog.key, h.escape]
  rfl

/-- What is typed goes to the end of the line. -/
theorem key_char (h : c.Reading sys t rest)
    (typed : 0x20 ≤ key.1 ∧ key.1 ≤ 0x7E ∧ key.1 ≠ charByte '?') : key.1 ≠ 0 ∧
    c.key sys key =
      { c with prompt := { c.prompt with
        view := { c.prompt.view with line := ⟨t ++ [key.1], []⟩ } } } := by
  have char : key.1 ≠ 0 := by
    intro nul
    rw [nul] at typed
    exact absurd typed.1 (by decide)
  have octets : (CString.ofOctets [key.1]).octets = [key.1] := by
    rw [CString.octets_ofOctets]
    simpa using char
  refine ⟨char, ?_⟩
  rw [h.key_eq, Dialog.press, h.keyfunc, (startupShell_keymap key.1).1 typed]
  dsimp only
  rw [if_neg (by decide), Prompt.press, Prompt.edit, EditorOp.spec, LineView.insert, octets, h.line]
  rfl

/-- The words in front of the comment are entered. -/
theorem entered (h : c.Reading sys t rest) {a : Answers} (given : a.memory.format = true) :
    (c.prompt.entered a).octets = joined space (withoutComment t) := by
  have text : (c.prompt.ready a).view.line.text = joined space (withoutComment t) := by
    have whole : c.prompt.view.line.text = t := by simp [h.line, Line.text]
    rw [Prompt.ready, LineView.formatted, given, if_pos rfl, Line.text_format]
    dsimp only [LineView.uncommented]
    rw [Line.uncommented, Line.text_ofText, whole]
  have noNul : 0 ∉ joined space (withoutComment t) := by
    intro nul
    have formatted := (Line.ofText (withoutComment t) 0).text_format
    rw [Line.text_ofText] at formatted
    rw [← formatted] at nul
    have mem := Line.mem_text_format _ nul
    rw [Line.text_ofText] at mem
    exact h.noNul ((List.takeWhile_sublist _).subset mem)
  rw [Prompt.entered, text, CString.octets_ofOctets]
  exact List.takeWhile_eq_self_iff.mpr fun b hb => by
    simpa using ne_of_mem_of_not_mem hb noNul

/-- A line that is executed goes, and the next one is empty. -/
theorem execute_eq (h : c.Reading sys t rest) {a : Answers} (given : a.memory.format = true)
    (something : joined space (withoutComment t) ≠ []) {x : Execution} (exit : x.exit = false)
    (paging : x.paging = false) :
    ∃ cut lines recorded back, c.prompt.execute a x =
      { c.prompt with
        view := ⟨⟨[], []⟩, cut⟩
        lines := lines
        recorded := recorded
        back := back
        paging := false } := by
  rw [Prompt.execute, h.entered given, if_neg something]
  simp only [Prompt.record, exit, paging, Bool.or_false, Bool.false_eq_true, if_false]
  rw [if_pos ⟨h.running, not_false⟩]
  exact ⟨_, _, _, _, rfl⟩

/-- The end of a line executes it. -/
theorem key_end (h : c.Reading sys t rest) (ends : endsLine key.1 = true)
    (given : key.2.memory.format = true)
    (stays : ∀ effect ∈ (sys.runLine t c.world).2, effect.Stays) :
    ∃ cut lines recorded back, c.key sys key =
      ⟨{ c.prompt with
          view := ⟨⟨[], []⟩, cut⟩
          lines := lines
          recorded := recorded
          back := back }, false, (sys.runLine t c.world).1⟩ := by
  have entered := h.entered given
  rw [h.key_eq, Dialog.press, h.keyfunc, (startupShell_keymap key.1).2 ends]
  dsimp only
  rw [if_pos rfl, Dialog.execute, entered, h.pager]
  rw [CommandSystem.runLine] at stays ⊢
  by_cases nothing : joined space (withoutComment t) = []
  · rw [if_pos nothing, if_pos nothing]
    dsimp only [CommandSystem.answer]
    rw [Prompt.execute, entered, if_pos nothing]
    exact ⟨_, _, _, _, rfl⟩
  · rw [if_neg nothing] at stays
    rw [if_neg nothing, if_neg nothing]
    dsimp only [CommandSystem.answer]
    obtain ⟨exit, paging, pager⟩ := Effect.Stays.left stays false key.2.execution.pagerClosed
    obtain ⟨cut, lines, recorded, back, executed⟩ := h.execute_eq given nothing exit paging
    rw [pager, if_neg Bool.false_ne_true, h.paging, executed]
    exact ⟨cut, lines, recorded, back, rfl⟩

/-- A key of a script. -/
theorem next (h : c.Reading sys t (key.1 :: rest)) (gives : key.2.memory.Gives) :
    ∃ t', (c.key sys key).Reading sys t' rest ∧
      Outlives sys c (t ++ key.1 :: rest) (c.key sys key) (t' ++ rest) ∧
      Enough key.2 (c.key sys key).prompt := by
  have later : ∀ b ∈ rest, inScript b := fun b mem => h.script b (List.mem_cons_of_mem _ mem)
  obtain ⟨line, mem, long⟩ := exists_line h.opened (key.1 :: rest)
  have short : t.length + 2 ≤ 2 ^ 30 := by
    have bound := h.short line mem
    omega
  cases ends : endsLine key.1 with
  | true =>
      have lines := completeLines_end h.opened ends rest
      have stays := h.stays
      rw [lines] at stays
      obtain ⟨cut, _, _, _, executed⟩ := h.key_end ends gives.format stays.1
      rw [executed]
      refine ⟨[], { h with
          line := rfl
          pager := rfl
          noNul := List.not_mem_nil
          opened := by simp
          script := later
          short := fun line mem => h.short line ?_
          stays := stays.2 }, ⟨?_, openLine_end h.opened ends rest⟩, gives.expand,
        gives.history, by simp [Line.text]⟩
      · rw [List.splitOnP_append_cons_of_forall_mem h.opened _ ends]
        exact List.mem_cons_of_mem t mem
      · rw [lines]
        rfl
  | false =>
      have typed := (h.script key.1 List.mem_cons_self).resolve_right (by simp [ends])
      obtain ⟨char, put⟩ := h.key_char typed
      have text : t ++ key.1 :: rest = t ++ [key.1] ++ rest := by simp
      rw [put, text]
      refine ⟨t ++ [key.1], { h with
          line := rfl
          noNul := by simpa using ⟨h.noNul, char.symm⟩
          opened := ?_
          script := later
          short := text ▸ h.short
          stays := text ▸ h.stays }, ⟨rfl, rfl⟩, gives.expand, gives.history, ?_⟩
      · intro b mem
        rcases List.mem_append.mp mem with mem | mem
        · exact h.opened b mem
        · rwa [List.mem_singleton.mp mem]
      · simp [Line.text]
        omega

/-- The octets one `read` returns. -/
theorem keys {keys : List (Byte × Answers)} (h : c.Reading sys t (keys.map Prod.fst ++ rest))
    (gives : ∀ key ∈ keys, key.2.memory.Gives) :
    ∃ t', (c.keys sys keys).Reading sys t' rest ∧
      Outlives sys c (t ++ (keys.map Prod.fst ++ rest)) (c.keys sys keys) (t' ++ rest) ∧
      c.Supplied sys keys := by
  induction keys generalizing c t with
  | nil => exact ⟨t, h, ⟨rfl, rfl⟩, trivial⟩
  | cons key keys ih =>
      obtain ⟨t₁, h₁, ⟨done₁, open₁⟩, enough⟩ := h.next (gives key List.mem_cons_self)
      obtain ⟨t₂, h₂, ⟨done₂, open₂⟩, supplied⟩ :=
        ih h₁ fun key' mem => gives key' (List.mem_cons_of_mem key mem)
      exact ⟨t₂, h₂, ⟨done₁.trans done₂, open₁.trans open₂⟩, enough, supplied⟩

/-- The loop of `startup_config`. -/
theorem startupLoop {reads : List (List (Byte × Answers))} {x : Session ω}
    (h : c.Reading sys t (reads.flatten.map Prod.fst)) (shows : x.Shows c)
    (gives : ∀ keys ∈ reads, ∀ key ∈ keys, key.2.memory.Gives) :
    ∃ x', x.startupLoop sys reads = .ok x' ∧ x'.shell.flagClose = true ∧
      x'.world = sys.interpret (completeLines (t ++ reads.flatten.map Prod.fst)) c.world ∧
      x'.shell.toEditor.Holds ⟨openLine (t ++ reads.flatten.map Prod.fst), []⟩ := by
  have running : shellRunning x.shell = true := by rw [shows.1.running, h.running]
  induction reads generalizing x c t with
  | nil =>
      refine ⟨x.readClose, ?_, rfl, ?_, ?_⟩
      · rw [Session.startupLoop, if_pos running]
      · rw [List.flatten_nil, List.map_nil, List.append_nil, completeLines_open h.opened]
        exact shows.2.2
      · rw [List.flatten_nil, List.map_nil, List.append_nil, openLine_open h.opened, ← h.line]
        exact { shows.1.views.holds with }
  | cons keys reads ih =>
      rw [List.flatten_cons, List.map_append] at h ⊢
      obtain ⟨t₁, h₁, ⟨done₁, open₁⟩, supplied⟩ := h.keys (gives keys List.mem_cons_self)
      obtain ⟨x₁, read, shows₁⟩ := (shows.inputs sys keys).returns supplied
      obtain ⟨x', loop, closed, world, line⟩ := ih h₁ shows₁
        (fun keys' mem => gives keys' (List.mem_cons_of_mem keys mem))
        (by rw [shows₁.1.running, h₁.running])
      refine ⟨x', ?_, closed, ?_, ?_⟩
      · rw [Session.startupLoop, if_pos running, read]
        exact loop
      · rw [world, done₁]
      · rw [open₁]
        exact line

end Reading

end Dialog

/-- What is read, whatever part of it one `read` returns. -/
def textOf (reads : List (List (Byte × Answers))) : List Byte := reads.flatten.map Prod.fst

/-- Whatever the commands do, and however `read` cuts the script into pieces: if it is made of what
    is typed as it is and of ends of lines, memory is given and no command leaves the shell or sets
    its pager, it is read to its end. What is done to the rest of the program is what its complete
    lines do, one after the other, each without its comment and with single spaces; a last line
    without an end is left in the editor and not executed. -/
theorem startupLoop_interprets {φ ω : Type} (sys : CommandSystem φ ω)
    (reads : List (List (Byte × Answers))) (w : ω) (script : ∀ b ∈ textOf reads, inScript b)
    (gives : ∀ keys ∈ reads, ∀ key ∈ keys, key.2.memory.Gives)
    (short : ∀ line ∈ (textOf reads).splitOnP endsLine, line.length + 2 ≤ 2 ^ 30)
    (stays : sys.Stays (completeLines (textOf reads)) w) :
    ∃ x, Session.startupLoop sys reads ⟨startupShell, false, w⟩ = .ok x ∧
      x.shell.flagClose = true ∧
      x.world = sys.interpret (completeLines (textOf reads)) w ∧
      x.shell.toEditor.Holds ⟨openLine (textOf reads), []⟩ := by
  have start := Dialog.Reading.start script short stays
  exact start.startupLoop ⟨startupShell_shows, rfl, rfl⟩ gives

/-- Commands that change the promiscuous mode of ports, and nothing else. -/
def promiscuousSystem : CommandSystem PortHandler (List (Nat × Bool)) where
  libc := quietLibc
  cmdset := promiscuousCommands
  call := fun func argv w => (w ++ func 1 argv, ⟨[], false, false, none⟩)

/-- A key, when memory is given. -/
def typedKey (b : Byte) : Byte × Answers :=
  (b, { Answers.silent with memory := .granted })

theorem startupLoop_interprets_promiscuous :
    ∃ x, Session.startupLoop promiscuousSystem
        [(litString "set port all promis").map typedKey,
          (litString "cuous enable # all\n  set  port 0 ").map typedKey,
          (litString "pro disable\n\nset port 0").map typedKey] ⟨startupShell, false, []⟩ = .ok x ∧
      x.world = [(0, true), (0, false)] ∧
      x.shell.toEditor.Holds ⟨litString "set port 0", []⟩ := by
  obtain ⟨x, run, -, world, line⟩ := startupLoop_interprets promiscuousSystem
    [(litString "set port all promis").map typedKey,
      (litString "cuous enable # all\n  set  port 0 ").map typedKey,
      (litString "pro disable\n\nset port 0").map typedKey] [] (by decide +kernel)
    (by
      intro keys mem key typed
      have given : key.2 = (typedKey 0).2 := by
        simp only [List.mem_cons, List.not_mem_nil, or_false] at mem
        rcases mem with rfl | rfl | rfl <;> obtain ⟨b, -, rfl⟩ := List.mem_map.mp typed <;> rfl
      rw [given]
      exact ⟨fun _ => rfl, rfl, rfl⟩)
    (by decide +kernel) (promiscuousSystem.stays_of_never (fun _ _ _ => ⟨rfl, by simp [promiscuousSystem]⟩) _ _)
  refine ⟨x, run, ?_, ?_⟩
  · rw [world]
    decide +kernel
  · exact line

end Sdplane
