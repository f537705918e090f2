import Sdplane.Zcmdsh.Word

/-!
# The shell

`struct shell` with the functions of `lib/zcmdsh/shell.c` that show it, and the history of
`command_shell.c:73-153`. What the allocator, the commands and the completion answer to a
key, and the texts printed for debugging, are an input.
-/

namespace Sdplane

/-- The functions the keymaps bind. -/
inductive Keyfunc where
  | forwardChar | backwardChar | moveToBegin | moveToEnd | deleteChar | backspace | killLine
  | killAll | yank | clearScreen | refresh | emptyEnter | insertTab | escape
  | deleteWordBackward | deleteCharAdvanced | inputChar
  | execute | completion | lsCandidate | historyPrev | historyNext | clearTerminal
  | vtyNormal | vtyMoveWordBackward | vtyMoveWordForward | vtyDeleteWordBackward
  | vtyEscape1 | vtyEscape2
  | iacStart | telnetOpt | telnetCmd | subnego | sbStart | sbEnd
deriving DecidableEq

/-- What `shell->keymap` points at. -/
inductive Keymap where
  | normal | escape1 | escape2 | iac1 | iac2 | subnego
deriving DecidableEq

/-- The keymaps of what is typed; the others are telnet's. -/
def Keymap.typing : Keymap → Bool
  | .normal | .escape1 | .escape2 => true
  | .iac1 | .iac2 | .subnego => false

/-- The functions of telnet. -/
def Keyfunc.telnet : Keyfunc → Bool
  | .iacStart | .telnetOpt | .telnetCmd | .subnego | .sbStart | .sbEnd => true
  | _ => false

/-- `struct command_history`. -/
structure CommandHistory where
  array : Nat → Option CString
  last : Nat
  current : Nat

/-- `struct shell`, its flags one by one; `buffered` is what `terminal` has not flushed. The
    flags of the category `zcmdsh` are `debugShell` (`DEBUG_CONFIG`) and `debugTelnet`. -/
structure Shell extends Editor where
  buffered : List Byte
  flagEscape : Bool
  flagExit : Bool
  flagClose : Bool
  flagDebug : Bool
  flagInteractive : Bool
  nl : List Byte
  prompt : List Byte
  inputch : Byte
  keymap : Keymap
  keymapNormal : Byte → Option Keyfunc
  history : Option CommandHistory
  debugShell : Bool
  debugTelnet : Bool
  wsRow : BitVec 16
  wsCol : BitVec 16
  telnetCmd : Byte
  telnetOpt : Byte
  subnegoBuf : List Byte
  isPaging : Bool

/-- What `pager_start`, `command_execute` and the handler it calls do: the value returned,
    what is printed, the flags that are left, whether a pager was started and whether it is
    done when `shell_read_nowait_paging` asks. -/
structure Execution where
  ret : Int
  printed : List Byte
  exit : Bool
  debugShell : Bool
  paging : Bool
  pagerClosed : Bool

/-- What is answered to a key. -/
structure Answers where
  memory : Memory
  execution : Execution
  completion : Option CString
  listing : List Byte
  debugText : List Byte

/-- All memory that is asked for. -/
def Memory.granted : Memory := ⟨fun _ => some fun _ => 0, true, true, true, true⟩

/-- No memory, and nothing else. -/
def Answers.silent : Answers where
  memory := ⟨fun _ => none, false, false, false, false⟩
  execution := ⟨0, [], false, false, false, false⟩
  completion := none
  listing := []
  debugText := []

def newlineByte : Byte := 0x0A

def carriageReturn : Byte := 0x0D

/-- `HISTORY_SIZE`. -/
def historySize : Nat := 128

/-- `HISTORY_PREV`. -/
def historyPrev (x : Nat) : Nat := if x = 0 then historySize - 1 else x - 1

/-- `HISTORY_NEXT`. -/
def historyNext (x : Nat) : Nat := if x + 1 = historySize then 0 else x + 1

theorem historyPrev_historyNext (x : Nat) : historyPrev (historyNext x) = x := by
  unfold historyPrev historyNext historySize
  split <;> split <;> omega

/-- `command_history_add`. Neither what `malloc` nor what `strdup` returns is checked: without a
    history `memset` ends the program, without a copy the slot stays empty. -/
def commandHistoryAdd (m : Memory) (line : CString) (history : Option CommandHistory) :
    Except Stop CommandHistory :=
  if history.isNone ∧ ¬m.history then .error .noMemory else
    let h := history.getD ⟨fun _ => none, 0, 0⟩
    let h := if (h.array h.last).isSome then { h with current := historyNext h.last } else h
    if (h.array h.current).isSome then .error .assertion else
      let h := { h with
        array := Function.update h.array h.current (if m.record then some line else none)
        last := h.current
        current := historyNext h.current }
      .ok { h with array := Function.update h.array h.current none }

namespace Shell

/-- A function of the editor called by a function of the shell. -/
def edit (f : Editor → Editor) (s : Shell) : Shell := { s with toEditor := f s.toEditor }

def editM (f : Editor → Except Stop Editor) (s : Shell) : Except Stop Shell := do
  let e ← f s.toEditor
  .ok { s with toEditor := e }

/-- `fprintf (shell->terminal, ...)`. -/
def fprintf (bs : List Byte) (s : Shell) : Shell := { s with buffered := s.buffered ++ bs }

/-- `fflush (shell->terminal)`. -/
def fflush (s : Shell) : Shell := { s.edit (·.writeFd s.buffered) with buffered := [] }

end Shell

/-- `shell_linefeed`. -/
def shellLinefeed (s : Shell) : Shell := s.fprintf s.nl

/-- `shell_prompt`. -/
def shellPrompt (s : Shell) : Shell :=
  if s.writefd < 0 then s else
    let s := s.fflush
    -- move cursor to beginning
    let s := if s.flagInteractive then s.edit (·.writeFd [carriageReturn]) else s
    s.edit (·.writeFd s.prompt)

/-- `shell_debug`. -/
def shellDebug (a : Answers) (s : Shell) : Except Stop Shell := do
  let s := s.edit shellTerminate
  let (_, e) ← shellWordPrevHead s.cursor s.toEditor
  let (_, e) ← shellWordHead e.cursor e
  let (_, e) ← shellWordEnd e.cursor e
  let s := { s with toEditor := e }
  .ok (s.fprintf (a.debugText ++ s.nl)).fflush

/-- The rest of `shell_refresh`, once what is to be debugged is printed. -/
def showLine (s : Shell) : Shell :=
  -- print prompt
  let s := shellPrompt s
  -- print current command line
  let s := s.edit shellTerminate
  let s := s.edit (·.writeFd (s.stringAt 0).octets)
  -- move cursor back to its position
  s.edit (·.writeFd (backspaces s.lineEnd s.cursor))

/-- `shell_refresh`. -/
def shellRefresh (a : Answers) (s : Shell) : Except Stop Shell := do
  let s ← if s.flagDebug ∨ s.debugShell then shellDebug a s else .ok s
  .ok (showLine s)

/-- `shell_running`. -/
def shellRunning (s : Shell) : Bool := !(s.flagExit || s.flagClose)

end Sdplane
