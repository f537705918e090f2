import Sdplane.Zcmdsh.Editor

/-!
# Words of the command line

The functions of `lib/zcmdsh/shell.c:328-549` that look for the word around an index. Each
tokenizes a copy of the line with `strsep`; a token is known by where it starts and its
octets. The copies get their memory.
-/

namespace Sdplane

/-- `SHELL_WORD_DELIMITERS`. -/
def shellWordDelimiters : List Byte := [space]

/-- `SHELL_WORD_DELIMITERS_SUB`. -/
def shellWordDelimitersSub : List Byte := [space, 0x2F]

/-- The loop that keeps the last token that is not empty, up to the one around `point`. -/
def wordLoop (point : Nat) : Nat × List Byte → Nat → List (List Byte) → Nat × List Byte
  | word, _, [] => word
  | word, next, t :: ts =>
      if word.1 ≤ point ∧ point < next then word
      else wordLoop point (if t ≠ [] then (next, t) else word) (next + t.length + 1) ts

/-- The loop that looks for the token behind the one around `point`. -/
def nextLoop (point : Nat) : Bool → Nat → List (List Byte) → Option Nat
  | _, _, [] => none
  | true, word, t :: _ => if t ≠ [] then some word else none
  | false, word, t :: ts =>
      nextLoop point (word ≤ point ∧ point ≤ word + t.length) (word + t.length + 1) ts

/-- The loop that keeps the last token that is not empty before the one around `point`. -/
def prevLoop (point : Nat) : Nat → Nat → List (List Byte) → Nat
  | prev, _, [] => prev
  | prev, word, t :: ts =>
      if word ≤ point ∧ point ≤ word + t.length then prev
      else prevLoop point (if t ≠ [] then word else prev) (word + t.length + 1) ts

/-- What the word functions have in common: `point` is checked, the line terminated and
    its tokens handed to `find`. -/
def withTokens (delim : List Byte) (find : List (List Byte) → Int) (point : Int) (e : Editor) :
    Except Stop (Int × Editor) :=
  if ¬ (0 ≤ point ∧ point ≤ e.lineEnd) then .error .assertion else
    let e := shellTerminate e
    .ok (find (strsepTokens delim (e.stringAt 0).octets), e)

/-- The start of the word, or `point` where it is behind the word. The first token is the
    first word, so what the loop starts with is never looked at but for its place. -/
def headAt (point : Int) (tokens : List (List Byte)) : Int :=
  let word := wordLoop point.toNat (0, []) 0 tokens
  if word.1 + word.2.length < point then point else word.1

/-- `shell_word_head`. -/
def shellWordHead (point : Int) : Editor → Except Stop (Int × Editor) :=
  withTokens shellWordDelimiters (headAt point) point

/-- `shell_subword_head`. -/
def shellSubwordHead (point : Int) : Editor → Except Stop (Int × Editor) :=
  withTokens shellWordDelimitersSub (headAt point) point

/-- `shell_word_end`. -/
def shellWordEnd (point : Int) : Editor → Except Stop (Int × Editor) :=
  withTokens shellWordDelimiters (fun tokens =>
      let word := wordLoop point.toNat (0, []) 0 tokens
      if word.1 + word.2.length < point then point else word.1 + word.2.length)
    point

/-- `shell_word_next_head`. -/
def shellWordNextHead (point : Int) (e : Editor) : Except Stop (Int × Editor) :=
  withTokens shellWordDelimiters (fun tokens =>
      match nextLoop point.toNat false 0 tokens with
      | some next => next
      | none => e.lineEnd)
    point e

/-- `shell_word_prev_head`. -/
def shellWordPrevHead (point : Int) : Editor → Except Stop (Int × Editor) :=
  withTokens shellWordDelimiters (fun tokens => prevLoop point.toNat 0 0 tokens) point

/-- `shell_subword_prev_head`. -/
def shellSubwordPrevHead (point : Int) : Editor → Except Stop (Int × Editor) :=
  withTokens shellWordDelimitersSub (fun tokens => prevLoop point.toNat 0 0 tokens) point

/-- Where the word functions that go backward go to. -/
def wordBackward (e : Editor) : Except Stop (Int × Editor) := do
  let (start, e) ← shellSubwordHead e.cursor e
  if start = e.cursor then shellSubwordPrevHead e.cursor e else .ok (start, e)

/-- `shell_delete_word_backward`. -/
def shellDeleteWordBackward (mem : Memory) (e : Editor) : Except Stop Editor := do
  let (start, e) ← wordBackward e
  shellCut mem start e.cursor e

/-- `shell_move_word_backward`. -/
def shellMoveWordBackward (e : Editor) : Except Stop Editor := do
  let (start, e) ← wordBackward e
  shellMoveto start e

/-- `shell_move_word_forward`. -/
def shellMoveWordForward (e : Editor) : Except Stop Editor := do
  let (start, e) ← shellWordNextHead e.cursor e
  shellMoveto start e

end Sdplane
