import Sdplane.Zcmdsh.Session

/-!
# The console

The shell of `console_shell` (`sdplane/console_shell.c:102-163`). In each turn of its loop
`shell_read_nowait` (`shell.c:739-753`) hands over what there is to be read; while a pager runs,
the loop looks whether it is done.
-/

namespace Sdplane

/-- What a turn of the loop finds: what `read` returns, if `poll` finds something, whether the pager
    is done, and what is answered then. -/
structure Turn where
  read : Option (List (Byte × Answers))
  pagerClosed : Bool
  answers : Answers

section
variable {φ ω : Type} (sys : CommandSystem φ ω)

/-! ## The loop -/

namespace Session

/-- `shell_read_nowait`; where `read` returns no octet the input has ended. -/
def readNowait (x : Session ω) : Option (List (Byte × Answers)) → Except Stop (Session ω)
  | none => .ok x
  | some [] => .ok x.readClose
  | some keys => x.inputs sys keys

/-- A turn of the loop of `console_shell`, which ends with the shell. -/
def consoleTurn (x : Session ω) (t : Turn) : Except Stop (Session ω) :=
  if ¬shellRunning x.shell then .ok x
  else if x.shell.isPaging then do
    let s ← shellReadNowaitPaging t.answers x.shell t.pagerClosed
    .ok { x with shell := s }
  else x.readNowait sys t.read

/-- `console_shell`, for these turns of its loop. -/
def console (a : Answers) (turns : List Turn) (w : ω) : Except Stop (Session ω) := do
  let s ← clearPromptRefresh a consoleShell
  turns.foldlM (consoleTurn sys) ⟨s, true, w⟩

end Session

/-! ## The dialog -/

namespace Dialog

/-- Something is read, or not, or the input has ended. -/
def readNowait (c : Dialog ω) : Option (List (Byte × Answers)) → Dialog ω
  | none => c
  | some [] => { c with prompt := { c.prompt with closed := true } }
  | some keys => c.keys sys keys

/-- A turn of the loop. -/
def turn (c : Dialog ω) (t : Turn) : Dialog ω :=
  if ¬c.prompt.running then c
  else if c.prompt.paging then { c with prompt := c.prompt.lookAtPager t.pagerClosed }
  else c.readNowait sys t.read

/-- There is enough memory for the keys that are read in this turn. -/
def SuppliedIn (c : Dialog ω) (t : Turn) : Prop :=
  c.prompt.running ∧ ¬c.prompt.paging → c.Supplied sys (t.read.getD [])

/-- At the beginning. -/
def console (w : ω) : Dialog ω := ⟨.fresh consoleShell.keymapNormal, true, w⟩

end Dialog

theorem consoleShell_shows : consoleShell.Shows (.fresh consoleShell.keymapNormal) := by
  have fresh := freshShell_shows (commandShellBinds ++ escapeBinds ++ terminalBinds) 1
    (by decide +kernel)
  exact { fresh with }

namespace Session.Shows

variable {x : Session ω} {c : Dialog ω} (h : x.Shows c)

include h

theorem readNowait (read : Option (List (Byte × Answers))) :
    ReturnsGiven (x.readNowait sys read) .noMemory (c.Supplied sys (read.getD []))
      (·.Shows (c.readNowait sys read)) := by
  cases read with
  | none => exact .ok h
  | some keys =>
      cases keys with
      | nil => exact .ok ⟨{ h.1 with close := rfl }, h.2⟩
      | cons key keys => exact h.inputs sys (key :: keys)

theorem turn (t : Turn) :
    ReturnsGiven (x.consoleTurn sys t) .noMemory (c.SuppliedIn sys t) (·.Shows (c.turn sys t)) := by
  rw [Session.consoleTurn, h.1.running, h.1.paging, Dialog.turn, Dialog.SuppliedIn]
  by_cases running : c.prompt.running = true
  · rw [if_neg (not_not.mpr running), if_neg (not_not.mpr running)]
    by_cases paging : c.prompt.paging = true
    · obtain ⟨s, looks, shows⟩ := h.1.lookAtPager t.answers t.pagerClosed
      rw [if_pos paging, if_pos paging, looks]
      exact .ok ⟨shows, h.2⟩
    · rw [if_neg paging, if_neg paging]
      exact (h.readNowait sys t.read).imp (fun _ shows => shows)
        fun supplied => supplied ⟨running, paging⟩
  · rw [if_pos running, if_pos running]
    exact .ok h

end Session.Shows

theorem Dialog.Done.turn {c : Dialog ω} {w : ω} (h : c.Done sys w) (t : Turn) :
    (c.turn sys t).Done sys w := by
  rw [Dialog.turn]
  split
  · exact h
  · split
    · rw [Done, Prompt.lookAtPager_lines]
      exact h
    · cases t.read with
      | none => exact h
      | some keys =>
          cases keys with
          | nil => exact h
          | cons key keys => exact h.keys sys (key :: keys)

end

end Sdplane
