import Sdplane.Misc.CString
import Sdplane.Misc.ForEach

/-!
# The line editor

The functions of `lib/zcmdsh/shell.c:26-326` that edit the command line and draw it. An
`Editor` is the part of `struct shell` they work on; `out` is what was written to `writefd`
so far. What the allocator answers is an input.
-/

namespace Sdplane

/-- Why the program ends. -/
inductive Stop where
  | assertion
  | noMemory
  | overrun
deriving DecidableEq

/-- What the editor needs of `struct shell`; `lineEnd` is `end`. -/
structure Editor where
  writefd : Int
  commandLine : ByteMem
  cursor : Int
  lineEnd : Int
  size : Int
  cutBuffer : Option CString
  out : List Byte

/-- What the allocator answers during a key: what is behind the old octets in the block
    `realloc` gives for a size, and whether the other blocks are given: what is cut out, a copy of
    the line, the history and a copy of the line in it. -/
structure Memory where
  expand : Int → Option ByteMem
  cut : Bool
  format : Bool
  history : Bool
  record : Bool

/-- `CONTROL ('H')`. -/
def controlH : Byte := 0x08

def space : Byte := 0x20

/-- `for (i = from; dest < i; i--) writec (shell->writefd, CONTROL ('H'))`, as what it writes. -/
def backspaces (start dest : Int) : List Byte := List.replicate (start - dest).toNat controlH

namespace Editor

/-- `write (shell->writefd, ...)`. -/
def writeFd (e : Editor) (bs : List Byte) : Editor :=
  { e with out := if 0 ≤ e.writefd then e.out ++ bs else e.out }

/-- The string at an index of the command line. -/
def stringAt (e : Editor) (i : Int) : CString := e.commandLine.cString e.size.toNat i.toNat

end Editor

/-- `shell_terminate`. -/
def shellTerminate (e : Editor) : Editor :=
  { e with commandLine :=
      if e.lineEnd < 0 ∨ e.size ≤ e.lineEnd then e.commandLine
      else e.commandLine.store8 e.lineEnd.toNat 0 }

/-- The automatic variables of `shell_format`; `end` is the length of the line. -/
structure Formatted where
  commandLine : List Byte
  cursor : Nat
  count : Nat

/-- A round of the loop of `shell_format`. -/
def formatOctet (cursor : Int) (i : Nat) (b : Byte) (f : Formatted) : Formatted :=
  let count := if b = space then f.count + 1 else f.count
  -- omit redundant spaces
  if b = space ∧ 1 < count then { f with count := count }
  -- omit even the first space if it is the beginning of the line
  else if b = space ∧ i = 0 then { f with count := count }
  else
    { commandLine := f.commandLine ++ [b]
      cursor := if (i : Int) < cursor then f.cursor + 1 else f.cursor
      count := if b ≠ space then 0 else count }

/-- The loop of `shell_format` over a line. -/
def formatLine (cursor : Int) (line : List Byte) : Formatted :=
  forEach (formatOctet cursor) 0 line ⟨[], 0, 0⟩

/-- `shell_format`. -/
def shellFormat (mem : Memory) (e : Editor) : Editor :=
  if mem.format then
    let f := formatLine e.cursor (e.commandLine.read 0 e.lineEnd.toNat)
    let line := ByteMem.ofList f.commandLine
    -- move to the beginning
    let e' := e.writeFd (backspaces e.cursor 0)
    -- re-write the new command line
    let e' := e'.writeFd (line.cString e.size.toNat 0).octets
    -- erase the last part
    let e' := e'.writeFd (List.replicate (e.lineEnd - f.commandLine.length).toNat space)
    -- move back to the cursor
    let e' := e'.writeFd (backspaces e.lineEnd f.cursor)
    { e' with commandLine := line, cursor := f.cursor, lineEnd := f.commandLine.length }
  else e

/-- `shell_clear`. -/
def shellClear (e : Editor) : Editor := shellTerminate { e with cursor := 0, lineEnd := 0 }

/-- `shell_expand`: the new size is an `int`, and no block is larger than that. -/
def shellExpand (mem : Memory) (e : Editor) : Except Stop Editor :=
  if e.size * 2 < 2 ^ 31 then
    match mem.expand (e.size * 2) with
    | some block =>
        .ok { e with
          commandLine := fun i => if (i : Int) < e.size then e.commandLine i else block i
          size := e.size * 2 }
    | none => .error .noMemory
  else .error .noMemory

/-- `while (shell->end + strlen (s) + 1 > shell->size) shell_expand (shell)`. An `int` can be
    doubled 31 times. -/
def expandLoop (mem : Memory) (need : Int) : Nat → Editor → Except Stop Editor
  | 0, _ => .error .noMemory
  | fuel + 1, e =>
      if need ≤ e.size then .ok e else do
        let e ← shellExpand mem e
        expandLoop mem need fuel e

/-- `shell_insert`. -/
def shellInsert (mem : Memory) (s : CString) (e : Editor) : Except Stop Editor := do
  let e ← expandLoop mem (e.lineEnd + s.length + 1) 32 e
  let line := e.commandLine.write (e.cursor + s.length).toNat
    (e.commandLine.read e.cursor.toNat (e.lineEnd - e.cursor).toNat)
  let line := line.write e.cursor.toNat s.octets
  let e := shellTerminate { e with commandLine := line, lineEnd := e.lineEnd + s.length }
  if e.writefd ≥ 0 then
    let e := e.writeFd (e.stringAt e.cursor).octets
    let e := { e with cursor := e.cursor + s.length }
    .ok (e.writeFd (backspaces e.lineEnd e.cursor))
  else .ok e

/-- The middle of `shell_delete_string`: go back to the place the deletion starts, redraw the
    part related to it, adjust the cursor and go back to it. -/
def redrawFrom (start : Int) (e : Editor) : Editor :=
  let e := e.writeFd (backspaces e.cursor start)
  let e := e.writeFd (e.stringAt start).octets
  let e := { e with cursor := start }
  e.writeFd (backspaces e.lineEnd e.cursor)

/-- `shell_delete_string`. -/
def shellDeleteString (start stop : Int) (e : Editor) : Except Stop Editor :=
  if ¬ (0 ≤ start ∧ start ≤ stop ∧ stop ≤ e.lineEnd) then .error .assertion else
    let movesize := e.lineEnd - stop
    let line := e.commandLine.write start.toNat (e.commandLine.read stop.toNat movesize.toNat)
    -- erase the not-needed-anymore part
    let line := line.write (start + movesize).toNat
      (List.replicate (e.lineEnd - (start + movesize)).toNat space)
    -- terminate the string at the previous end
    let e := redrawFrom start (shellTerminate { e with commandLine := line })
    -- adjust the ending
    .ok (shellTerminate { e with lineEnd := e.lineEnd - (stop - start) })

/-- `shell_cut`. -/
def shellCut (mem : Memory) (start stop : Int) (e : Editor) : Except Stop Editor :=
  if ¬ (0 ≤ start ∧ start ≤ stop ∧ stop ≤ e.lineEnd) then .error .assertion else
    let e := { e with cutBuffer := none }
    if stop - start = 0 then .ok e else
      let cut := CString.ofOctets (e.commandLine.read start.toNat (stop - start).toNat)
      shellDeleteString start stop { e with cutBuffer := if mem.cut then some cut else none }

/-- `shell_forward`. -/
def shellForward (num : Int) (e : Editor) : Editor :=
  if e.lineEnd < e.cursor + num then e else
    let e := e.writeFd (e.commandLine.read e.cursor.toNat num.toNat)
    { e with cursor := e.cursor + num }

/-- `shell_backward`. -/
def shellBackward (num : Int) (e : Editor) : Editor :=
  if e.cursor - num < 0 then e else
    let e := { e with cursor := e.cursor - num }
    e.writeFd (backspaces num 0)

/-- `shell_moveto`. -/
def shellMoveto (index : Int) (e : Editor) : Except Stop Editor :=
  if ¬ (0 ≤ index ∧ index ≤ e.lineEnd) then .error .assertion else
    if e.cursor < index then .ok (shellForward (index - e.cursor) e)
    else if index < e.cursor then .ok (shellBackward (e.cursor - index) e)
    else .ok e

end Sdplane
