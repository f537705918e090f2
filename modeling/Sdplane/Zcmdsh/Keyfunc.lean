import Sdplane.Zcmdsh.Shell

/-!
# Keys

The functions the keymaps bind (`lib/zcmdsh/shell_keyfunc.c`, `command_shell.c:95-153` and
`655-921`, `shell_telnet.c:272-453`, `shell_keyfunc_clear_terminal` of `sdplane/vty_shell.c`),
the keymaps, `shell_input` and how a shell is made.
-/

namespace Sdplane

section
variable (a : Answers) (s : Shell)

/-! ## `shell_keyfunc.c` -/

/-- `shell_keyfunc_forward_char`. -/
def shellKeyfuncForwardChar : Shell := s.edit (shellForward 1)

/-- `shell_keyfunc_backward_char`. -/
def shellKeyfuncBackwardChar : Shell := s.edit (shellBackward 1)

/-- `shell_keyfunc_move_to_begin`. -/
def shellKeyfuncMoveToBegin : Shell := s.edit (shellBackward s.cursor)

/-- `shell_keyfunc_move_to_end`. -/
def shellKeyfuncMoveToEnd : Shell := s.edit (shellForward (s.lineEnd - s.cursor))

/-- `shell_keyfunc_delete_char`. -/
def shellKeyfuncDeleteChar : Except Stop Shell :=
  if s.cursor < s.lineEnd then s.editM (shellDeleteString s.cursor (s.cursor + 1)) else .ok s

/-- `shell_keyfunc_backspace`. -/
def shellKeyfuncBackspace : Except Stop Shell :=
  if s.cursor ≤ 0 then .ok s
  else if s.flagEscape then s.editM (shellDeleteWordBackward a.memory)
  else
    let s := s.edit (shellBackward 1)
    s.editM (shellDeleteString s.cursor (s.cursor + 1))

/-- `shell_keyfunc_kill_line`. -/
def shellKeyfuncKillLine : Except Stop Shell := s.editM (shellCut a.memory s.cursor s.lineEnd)

/-- `shell_keyfunc_kill_all`. -/
def shellKeyfuncKillAll : Except Stop Shell :=
  let s := s.edit (shellBackward s.cursor)
  s.editM (shellCut a.memory 0 s.lineEnd)

/-- `shell_keyfunc_yank`. -/
def shellKeyfuncYank : Except Stop Shell :=
  match s.cutBuffer with
  | some cut => s.editM (shellInsert a.memory cut)
  | none => .ok s

/-- Clear the screen and move to the top left. -/
def clearScreen : List Byte :=
  [27, charByte '[', charByte '2', charByte 'J', 27, charByte '[', charByte '1', charByte ';',
    charByte '1', charByte 'H']

/-- `shell_keyfunc_clear_screen`. -/
def shellKeyfuncClearScreen : Except Stop Shell :=
  shellRefresh a ((s.fprintf clearScreen).edit (shellFormat a.memory))

/-- `shell_keyfunc_refresh`. -/
def shellKeyfuncRefresh : Except Stop Shell :=
  shellRefresh a (shellLinefeed (s.edit (shellFormat a.memory)))

/-- `shell_keyfunc_empty_enter`. -/
def shellKeyfuncEmptyEnter : Shell := (shellPrompt ((shellLinefeed s).edit shellClear)).fflush

/-- `"<tab>"`. -/
def tabString : CString where
  octets := [0x3C, 0x74, 0x61, 0x62, 0x3E]
  noNul := by decide

/-- `shell_keyfunc_insert_tab`. -/
def shellKeyfuncInsertTab : Except Stop Shell := s.editM (shellInsert a.memory tabString)

/-- `shell_keyfunc_escape`. -/
def shellKeyfuncEscape : Shell := { s with flagEscape := true }

/-- `shell_keyfunc_delete_char_advanced`. -/
def shellKeyfuncDeleteCharAdvanced : Except Stop Shell :=
  if s.cursor < s.lineEnd then s.editM (shellDeleteString s.cursor (s.cursor + 1))
  else if 0 < s.lineEnd then s.editM (shellDeleteString (s.lineEnd - 1) s.lineEnd)
  else .ok s

/-- `shell_input_char`. -/
def shellInputChar : Except Stop Shell :=
  s.editM (shellInsert a.memory (.ofOctets [s.inputch]))

/-- `vty_shell_keyfunc_normal`. -/
def vtyShellKeyfuncNormal : Shell := { s with keymap := .normal }

/-! ## `command_shell.c` -/

/-- `command_history_prev`. -/
def commandHistoryPrev : Except Stop Shell :=
  match s.history with
  | none => .ok s
  | some history =>
      let start := historyNext (historyNext history.last)
      -- wrapping
      if history.current = start then .ok s else
        let prev := historyPrev history.current
        match history.array prev with
        | none => .ok s
        | some line => do
            let s ← s.editM (shellDeleteString 0 s.lineEnd)
            let s ← s.editM (shellInsert a.memory line)
            .ok { s with history := some { history with current := prev } }

/-- `command_history_next`. -/
def commandHistoryNext : Except Stop Shell :=
  match s.history with
  | none => .ok s
  | some history =>
      let floor := historyNext history.last
      -- wrapping
      if history.current = floor then .ok s else
        let next := historyNext history.current
        match history.array next with
        | none => .ok s
        | some line => do
            let s ← s.editM (shellDeleteString 0 s.lineEnd)
            let s ← s.editM (shellInsert a.memory line)
            .ok { s with history := some { history with current := next } }

/-- An empty line behind a new prompt. -/
def clearPromptRefresh : Except Stop Shell := shellRefresh a (shellPrompt (s.edit shellClear))

/-- `shell_read_nowait_paging`; `closed` tells whether the pager is done. -/
def shellReadNowaitPaging (closed : Bool) : Except Stop Shell :=
  if closed then clearPromptRefresh a { s with isPaging := false } else .ok s

/-- The comment of a line, from `strpbrk (shell->command_line, "#!")` on, is cut off. -/
def cutComment (e : Editor) : Editor :=
  match (e.stringAt 0).octets.findIdx? (fun b => b = charByte '#' ∨ b = charByte '!') with
  | some comment =>
      let e := { e with lineEnd := comment }
      shellTerminate { e with cursor := if e.cursor > e.lineEnd then e.lineEnd else e.cursor }
  | none => e

/-- What `command_execute` leaves; while a pager runs, what is printed goes there. -/
def answerExecution : Shell :=
  let line := s.stringAt 0
  let x := a.execution
  let s := if x.paging then s else s.fprintf x.printed
  let s := { s with
    flagExit := s.flagExit || x.exit
    debugShell := x.debugShell
    isPaging := x.paging }
  if x.ret < 0 ∧ ¬ x.paging then
    s.fprintf (litString "no such command: " ++ line.octets ++ s.nl)
  else s

/-- The line is executed and goes into the history. -/
def executeLine : Except Stop Shell := do
  let s' := answerExecution a s
  let history ← commandHistoryAdd a.memory (s.stringAt 0) s'.history
  .ok { s' with history := some history }

/-- `command_shell_execute`. -/
def commandShellExecute : Except Stop Shell := do
  let s := (s.edit cutComment).edit (shellFormat a.memory)
  let s := (shellLinefeed s).fflush
  if (s.stringAt 0).length = 0 then clearPromptRefresh a s
  else
    let s ← executeLine a s
    let s ← if s.isPaging then shellReadNowaitPaging a s a.execution.pagerClosed else .ok s
    if ¬ shellRunning s then .ok s
    else if ¬ s.isPaging then clearPromptRefresh a s
    else .ok s

/-- `shell_moveto (shell, shell_word_end (shell, shell->cursor))`. -/
def movetoWordEnd (e : Editor) : Except Stop Editor := do
  let (stop, e) ← shellWordEnd e.cursor e
  shellMoveto stop e

/-- `command_shell_completion`. -/
def commandShellCompletion : Except Stop Shell := do
  let s ← s.editM movetoWordEnd
  let s ← match a.completion with
    | some completion => s.editM (shellInsert a.memory completion)
    | none => .ok s
  .ok s.fflush

/-- The candidates of the word are listed, and the line is shown below. -/
def listCandidates : Except Stop Shell := do
  let (_, e) ← shellWordHead s.cursor s.toEditor
  let s := shellLinefeed { s with toEditor := e }
  shellRefresh a (shellLinefeed (s.fprintf a.listing))

/-- `command_shell_ls_candidate`. -/
def commandShellLsCandidate : Except Stop Shell := do
  let s ←
    if s.cursor ≠ s.lineEnd then do
      let s ← shellRefresh a (s.edit fun e => { e with cursor := e.lineEnd })
      shellRefresh a (shellLinefeed (s.edit (shellFormat a.memory)))
    else .ok s
  listCandidates a s

/-- `shell_keyfunc_clear_terminal`. -/
def shellKeyfuncClearTerminal : Except Stop Shell :=
  shellRefresh a (s.fprintf clearScreen).fflush

/-! ## `shell_telnet.c` -/

/-- A text printed when telnet is debugged. -/
def telnetDebug : Shell := if s.debugTelnet then s.fprintf (a.debugText ++ s.nl) else s

/-- `vty_shell_keyfunc_iac_start`. -/
def vtyShellKeyfuncIacStart : Shell := { s with keymap := .iac1, telnetCmd := 0 }

/-- `vty_shell_keyfunc_telnet_opt`. -/
def vtyShellKeyfuncTelnetOpt : Shell :=
  (telnetDebug a { s with keymap := .normal, telnetOpt := s.inputch }).fflush

/-- `vty_shell_keyfunc_telnet_cmd`. -/
def vtyShellKeyfuncTelnetCmd : Shell := { s with keymap := .iac2, telnetCmd := s.inputch }

/-- `sizeof (shell->subnego_buf)`. -/
def sizeofSubnegoBuf : Nat := 256

/-- `vty_shell_keyfunc_subnego`. -/
def vtyShellKeyfuncSubnego : Shell :=
  let s :=
    if s.subnegoBuf.length < sizeofSubnegoBuf then
      { s with subnegoBuf := s.subnegoBuf ++ [s.inputch] }
    else s
  s.fflush

/-- `vty_shell_keyfunc_sb_start`. -/
def vtyShellKeyfuncSbStart : Shell :=
  (telnetDebug a { s with keymap := .subnego, subnegoBuf := [] }).fflush

/-- `ret = snprintf (p, end - p, ...); p += ret` in a buffer whose `end` is at 63: behind
    `end` the size is negative, which is a huge `size_t`. -/
def snprintfSubnego (p len : Nat) : Except Stop Nat :=
  if 63 < p then .error .overrun else .ok (p + len)

/-- The length of `" %#hhx"`. -/
def hexLength (b : Byte) : Nat := if b = 0 then 2 else if b < 0x10 then 4 else 5

/-- The description of the subnegotiation: `"len: %d ["`, the octets, `"]"`. -/
def describeSubnego (buf : List Byte) : Except Stop Nat := do
  let p ← snprintfSubnego 0 (7 + (Nat.toDigits 10 buf.length).length)
  let p ← buf.foldlM (fun p b => snprintfSubnego p (hexLength b)) p
  snprintfSubnego p 1

/-- `TELOPT_NAWS`. -/
def teloptNaws : Byte := 31

/-- `((u_short) hi << 8) + lo` as an `unsigned short`, of signed characters. -/
def windowSize (hi lo : Byte) : BitVec 16 := (hi.signExtend 16 <<< 8) + lo.signExtend 16

/-- The subnegotiation is acted upon. -/
def applySubnego : Shell :=
  match s.subnegoBuf with
  | [opt, b1, b2, b3, b4] =>
      if opt = teloptNaws then
        telnetDebug a { s with wsRow := windowSize b3 b4, wsCol := windowSize b1 b2 }
      else s
  | _ => s

/-- `vty_shell_keyfunc_sb_end`. -/
def vtyShellKeyfuncSbEnd : Except Stop Shell := do
  let s := telnetDebug a { s with keymap := .normal }
  let _ ← describeSubnego s.subnegoBuf
  shellRefresh a (applySubnego a (telnetDebug a s)).fflush

end

/-! ## The keymaps -/

/-- Calls the function. -/
def Keyfunc.run (a : Answers) (s : Shell) : Keyfunc → Except Stop Shell
  | .forwardChar => .ok (shellKeyfuncForwardChar s)
  | .backwardChar => .ok (shellKeyfuncBackwardChar s)
  | .moveToBegin => .ok (shellKeyfuncMoveToBegin s)
  | .moveToEnd => .ok (shellKeyfuncMoveToEnd s)
  | .deleteChar => shellKeyfuncDeleteChar s
  | .backspace => shellKeyfuncBackspace a s
  | .killLine => shellKeyfuncKillLine a s
  | .killAll => shellKeyfuncKillAll a s
  | .yank => shellKeyfuncYank a s
  | .clearScreen => shellKeyfuncClearScreen a s
  | .refresh => shellKeyfuncRefresh a s
  | .emptyEnter => .ok (shellKeyfuncEmptyEnter s)
  | .insertTab => shellKeyfuncInsertTab a s
  | .escape => .ok (shellKeyfuncEscape s)
  | .deleteWordBackward => s.editM (shellDeleteWordBackward a.memory)
  | .deleteCharAdvanced => shellKeyfuncDeleteCharAdvanced s
  | .inputChar => shellInputChar a s
  | .execute => commandShellExecute a s
  | .completion => commandShellCompletion a s
  | .lsCandidate => commandShellLsCandidate a s
  | .historyPrev => commandHistoryPrev a s
  | .historyNext => commandHistoryNext a s
  | .clearTerminal => shellKeyfuncClearTerminal a s
  | .vtyNormal => .ok (vtyShellKeyfuncNormal s)
  | .vtyMoveWordBackward => return vtyShellKeyfuncNormal (← s.editM shellMoveWordBackward)
  | .vtyMoveWordForward => return vtyShellKeyfuncNormal (← s.editM shellMoveWordForward)
  | .vtyDeleteWordBackward =>
      return vtyShellKeyfuncNormal (← s.editM (shellDeleteWordBackward a.memory))
  | .vtyEscape1 => .ok { s with keymap := .escape1 }
  | .vtyEscape2 => .ok { s with keymap := .escape2 }
  | .iacStart => .ok (vtyShellKeyfuncIacStart s)
  | .telnetOpt => .ok (vtyShellKeyfuncTelnetOpt a s)
  | .telnetCmd => .ok (vtyShellKeyfuncTelnetCmd s)
  | .subnego => .ok (vtyShellKeyfuncSubnego s)
  | .sbStart => .ok (vtyShellKeyfuncSbStart a s)
  | .sbEnd => vtyShellKeyfuncSbEnd a s

/-- The commands of telnet, after an IAC. -/
def telnetSe : Byte := 240
def telnetSb : Byte := 250
def telnetWill : Byte := 251
def telnetWont : Byte := 252
def telnetDo : Byte := 253
def telnetDont : Byte := 254
def telnetIac : Byte := 255

/-- `key_func_escape_1`. -/
def keyFuncEscape1 (ch : Byte) : Keyfunc :=
  if ch = charByte 'b' then .vtyMoveWordBackward
  else if ch = charByte 'f' then .vtyMoveWordForward
  else if ch = controlH ∨ ch = 0x7F then .vtyDeleteWordBackward
  else if ch = charByte '[' then .vtyEscape2
  else .vtyNormal

/-- `key_func_iac_1`. -/
def keyFuncIac1 (ch : Byte) : Keyfunc :=
  if ch = telnetSb then .sbStart
  else if ch = telnetSe then .sbEnd
  else if ch = telnetDo ∨ ch = telnetWill ∨ ch = telnetDont ∨ ch = telnetWont then .telnetCmd
  else .telnetOpt

/-- `key_func_subnego`. -/
def keyFuncSubnego (ch : Byte) : Keyfunc := if ch = telnetIac then .iacStart else .subnego

/-- `shell->keymap[ch]`. -/
def Shell.keyfunc (s : Shell) (ch : Byte) : Option Keyfunc :=
  match s.keymap with
  | .normal => s.keymapNormal ch
  | .escape1 => some (keyFuncEscape1 ch)
  | .escape2 => some .vtyNormal
  | .iac1 => some (keyFuncIac1 ch)
  | .iac2 => some .telnetOpt
  | .subnego => some (keyFuncSubnego ch)

/-- What `shell_input` prints when the shell is debugged. -/
def debugInput (a : Answers) (s : Shell) : Except Stop Shell :=
  if s.debugShell then shellRefresh a (s.fprintf (s.nl ++ a.debugText ++ s.nl)) else .ok s

/-- `if (shell->keymap[ch]) (*shell->keymap[ch]) (shell)`. -/
def callKeyfunc (a : Answers) (ch : Byte) (s : Shell) : Except Stop Shell :=
  match s.keyfunc ch with
  | some f => f.run a s
  | none => .ok s

/-- The end of `shell_input`. -/
def finishInput (a : Answers) (escaped : Bool) (s : Shell) : Except Stop Shell :=
  let s := if escaped then { s with flagEscape := false } else s
  if s.flagDebug then shellRefresh a s else .ok s

/-- `shell_input`. -/
def shellInput (a : Answers) (ch : Byte) (s : Shell) : Except Stop Shell := do
  let escaped := s.flagEscape
  -- save input char
  let s ← debugInput a { s with inputch := ch }
  let s ← callKeyfunc a ch s
  finishInput a escaped s

/-- `default_keymap`. -/
def defaultKeymap (ch : Byte) : Option Keyfunc :=
  if 0x20 ≤ ch ∧ ch ≤ 0x7E then some .inputChar
  else match ch.toNat with
    | 0x01 => some .moveToBegin
    | 0x02 => some .backwardChar
    | 0x04 => some .deleteChar
    | 0x05 => some .moveToEnd
    | 0x06 => some .forwardChar
    | 0x08 => some .backspace
    | 0x09 => some .insertTab
    | 0x0A => some .emptyEnter
    | 0x0B => some .killLine
    | 0x0C => some .clearScreen
    | 0x0D => some .emptyEnter
    | 0x12 => some .refresh
    | 0x15 => some .killAll
    | 0x17 => some .deleteWordBackward
    | 0x19 => some .yank
    | 0x1B => some .escape
    | 0x7F => some .deleteCharAdvanced
    | _ => none

/-! ## Making a shell -/

/-- `shell_create`. -/
def shellCreate : Shell where
  writefd := -1
  commandLine := fun _ => 0
  cursor := 0
  lineEnd := 0
  size := 32
  cutBuffer := none
  out := []
  buffered := []
  flagEscape := false
  flagExit := false
  flagClose := false
  flagDebug := false
  flagInteractive := true
  nl := [newlineByte]
  prompt := litString "prompt> "
  inputch := 0
  keymap := .normal
  keymapNormal := defaultKeymap
  history := none
  debugShell := false
  debugTelnet := false
  wsRow := 0
  wsCol := 0
  telnetCmd := 0
  telnetOpt := 0
  subnegoBuf := []
  isPaging := false

/-- `shell_install`, while the normal keymap is the current one. -/
def shellInstall (s : Shell) (bind : Byte × Keyfunc) : Shell :=
  { s with keymapNormal := Function.update s.keymapNormal bind.1 (some bind.2) }

/-- `shell_set_terminal`. -/
def shellSetTerminal (writefd : Int) (s : Shell) : Shell :=
  { s with flagClose := false, writefd := writefd }

/-- What `command_shell_create` installs. -/
def commandShellBinds : List (Byte × Keyfunc) :=
  [(0x0A, .execute), (0x0D, .execute), (0x09, .completion), (charByte '?', .lsCandidate),
    (0x10, .historyPrev), (0x0E, .historyNext)]

/-- What `shell_escape_keyfunc_init` installs. -/
def escapeBinds : List (Byte × Keyfunc) := [(0x1B, .vtyEscape1)]

/-- What `shell_telnet_keyfunc_init` installs. -/
def telnetBinds : List (Byte × Keyfunc) := [(telnetIac, .iacStart)]

/-- What `console_shell` and `vty_shell` install. -/
def terminalBinds : List (Byte × Keyfunc) := [(0x0C, .clearTerminal), (0x7F, .deleteCharAdvanced)]

/-- A new shell with these keys installed and a terminal attached. -/
def freshShell (binds : List (Byte × Keyfunc)) (writefd : Int) : Shell :=
  shellSetTerminal writefd (binds.foldl shellInstall shellCreate)

/-- The shell of the console. -/
def consoleShell : Shell :=
  { freshShell (commandShellBinds ++ escapeBinds ++ terminalBinds) 1 with
    prompt := litString "console> " }

end Sdplane
