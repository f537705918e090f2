import Sdplane.Misc.Words
import Sdplane.Zcmdsh.Abbreviation
import Sdplane.Zcmdsh.LineEditor

/-!
# Normalized lines

`shell_format` leaves the words of the line with single spaces between them, and the cursor
behind as many octets as were kept before it. The words `command_execute` is given are those
of the line without its comment.
-/

namespace Sdplane

open Words

/-! ## `shell_format` -/

/-- A round drops a redundant space, or keeps the octet. -/
theorem formatOctet_eq (cursor : Int) (i : Nat) (b : Byte) (f : Formatted) :
    formatOctet cursor i b f =
      if b = space ∧ decide (0 < f.count ∨ i = 0) = true then { f with count := f.count + 1 }
      else
        { commandLine := f.commandLine ++ [b]
          cursor := if (i : Int) < cursor then f.cursor + 1 else f.cursor
          count := if b = space then f.count + 1 else 0 } := by
  unfold formatOctet
  by_cases hb : b = space
  · by_cases first : i = 0
    · simp [hb, first]
    · simp [hb, first]
  · simp [hb]

theorem formatLoop_eq (cursor : Int) (i : Nat) (t : List Byte) (f : Formatted) :
    (forEach (formatOctet cursor) i t f).commandLine =
        f.commandLine ++ squeeze space (decide (0 < f.count ∨ i = 0)) t ∧
      (forEach (formatOctet cursor) i t f).cursor = f.cursor +
        (squeeze space (decide (0 < f.count ∨ i = 0)) (t.take (cursor - i).toNat)).length := by
  induction t generalizing i f with
  | nil => simp [forEach, squeeze]
  | cons b t ih =>
      obtain ⟨text, place⟩ := ih (i + 1) (formatOctet cursor i b f)
      have upTo : (b :: t).take (cursor - i).toNat =
          if (i : Int) < cursor then b :: t.take (cursor - (i + 1 : Nat)).toNat else [] := by
        by_cases before : (i : Int) < cursor
        · have succ : (cursor - i).toNat = (cursor - (i + 1 : Nat)).toNat + 1 := by omega
          rw [if_pos before, succ, List.take_succ_cons]
        · have zero : (cursor - i).toNat = 0 := by omega
          rw [if_neg before, zero, List.take_zero]
      have nothing : ¬(i : Int) < cursor → t.take (cursor - (i + 1 : Nat)).toNat = [] := by
        intro behind
        have zero : (cursor - (i + 1 : Nat)).toNat = 0 := by omega
        rw [zero, List.take_zero]
      rw [forEach, text, place, upTo, formatOctet_eq]
      generalize decide (0 < f.count ∨ i = 0) = redundant
      generalize t.take (cursor - (i + 1 : Nat)).toNat = before at nothing ⊢
      by_cases dropped : b = space ∧ redundant = true
      · have again : decide (0 < f.count + 1 ∨ i + 1 = 0) = true := by simp
        rw [if_pos dropped, squeeze, if_pos dropped]
        simp only [again, true_and]
        by_cases inside : (i : Int) < cursor
        · rw [if_pos inside, squeeze, if_pos dropped]
        · rw [if_neg inside, nothing inside]
          rfl
      · have again : decide (0 < (if b = space then f.count + 1 else 0) ∨ i + 1 = 0) =
            decide (b = space) := by
          by_cases hb : b = space <;> simp [hb]
        rw [if_neg dropped, squeeze, if_neg dropped]
        simp only [again, List.append_assoc, List.singleton_append, true_and]
        by_cases inside : (i : Int) < cursor
        · rw [if_pos inside, if_pos inside, squeeze, if_neg dropped, List.length_cons]
          omega
        · rw [if_neg inside, if_neg inside, nothing inside]
          rfl

/-- What `shell_format` makes of a line, its words apart: it drops the redundant spaces. -/
theorem Line.format_eq (l : Line) :
    l.format = .ofText (squeeze space true l.text) (squeeze space true l.before).length := by
  obtain ⟨text, place⟩ := formatLoop_eq l.before.length 0 l.text ⟨[], 0, 0⟩
  have before : l.text.take ((l.before.length : Int) - (0 : Nat)).toNat = l.before := by
    rw [Nat.cast_zero, Int.sub_zero, Int.toNat_natCast, l.take_text]
  rw [before] at place
  rw [Line.format, formatLine, text, place]
  simp

theorem Line.text_format (l : Line) : l.format.text = joined space l.text := by
  rw [l.format_eq, text_ofText, squeeze_eq_joined]

/-- The text before the cursor is squeezed, too. -/
theorem Line.before_format (l : Line) : l.format.before = squeeze space true l.before := by
  obtain ⟨redundant, split⟩ := @squeeze_append _ _ space true l.before l.after
  rw [l.format_eq, ofText, text, split, List.take_left]

/-- Normalizing a normalized line changes nothing. -/
theorem Line.format_format (l : Line) : l.format.format = l.format := by
  rw [l.format.format_eq, l.before_format, squeeze_squeeze, l.format_eq, text_ofText, squeeze_squeeze]

/-! ## `command_shell_execute` -/

/-- The line without its comment. -/
def withoutComment (t : List Byte) : List Byte :=
  t.takeWhile fun b => ¬(b = charByte '#' ∨ b = charByte '!')

theorem Editor.Holds.cutComment {e : Editor} {l : Line} (h : e.Holds l) :
    (cutComment e).Holds
      (.ofText (withoutComment l.text) (min l.before.length (withoutComment l.text).length)) := by
  have bound := l.length_text
  have all := h.stringAt (i := 0) (Nat.zero_le _)
  rw [Nat.cast_zero, List.drop_zero] at all
  rw [Sdplane.cutComment, all]
  cases found : l.text.findIdx? (fun b => b = charByte '#' ∨ b = charByte '!') with
  | none =>
      have whole : withoutComment l.text = l.text := by
        apply List.takeWhile_eq_self_iff.mpr
        intro b hb
        simpa using List.findIdx?_eq_none_iff.mp found b hb
      rw [whole, Nat.min_eq_left (by omega)]
      have here := l.moveTo_self
      rw [Line.moveTo] at here
      rw [here]
      exact h
  | some comment =>
      obtain ⟨inside, first⟩ := List.findIdx?_eq_some_iff_findIdx_eq.mp found
      have cut : withoutComment l.text = l.text.take comment := by
        rw [withoutComment, List.takeWhile_eq_take_findIdx_not, ← first]
        simp
      have length : (withoutComment l.text).length = comment := by
        rw [cut, List.length_take_of_le inside.le]
      have moved := h.moved (i := min l.before.length comment) (by omega)
      have place := Line.length_before_ofText (t := l.text) (i := min l.before.length comment)
        (by omega)
      have cursor : (if e.cursor > (comment : Int) then (comment : Int) else e.cursor) =
          (min l.before.length comment : Nat) := by
        rw [h.cursor]
        split <;> omega
      have holds := moved.truncated (n := comment) (by rw [Line.moveTo, place]; omega)
        (by rw [l.text_moveTo]; omega)
      rw [l.text_moveTo, Line.moveTo, place, ← cut] at holds
      simp only [cursor, length]
      exact holds

/-- The shell when `command_shell_execute` calls `command_execute`, on its command line. -/
def readyToExecute (a : Answers) (s : Shell) : Shell :=
  (shellLinefeed ((s.edit cutComment).edit (shellFormat a.memory))).fflush

theorem commandShellExecute_eq (a : Answers) (s : Shell) :
    commandShellExecute a s =
      if ((readyToExecute a s).stringAt 0).length = 0 then clearPromptRefresh a (readyToExecute a s)
      else executeLine a (readyToExecute a s) >>= fun s =>
        (if s.isPaging then shellReadNowaitPaging a s a.execution.pagerClosed else .ok s) >>= fun s =>
          if ¬shellRunning s then .ok s
          else if ¬s.isPaging then clearPromptRefresh a s
          else .ok s := by
  have ready : (shellLinefeed ((s.edit cutComment).edit (shellFormat a.memory))).fflush =
      readyToExecute a s := rfl
  simp only [commandShellExecute, ready]
  congr 1
  congr 1
  funext s
  split <;> rfl

section
variable {φ : Type} (libc : Libc) (cmdset : CommandSet φ)

/-- `command_execute`, once the line is split into words. -/
def executeWords (line : List Byte) (words : List (List Byte)) :
    Option (φ × List (Option (List Byte))) :=
  let (argv, found) := executeLoop libc cmdset line CommandSet.root [] none words
  match found with
  | some node => (cmdset.node node).func.map fun func => (func, argv)
  | none => none

theorem commandExecute_eq (line : List Byte) : commandExecute libc cmdset line =
    executeWords libc cmdset line (strsepTokens commandWordDelimiters line) := rfl

/-- The loop ends at the first empty word. -/
theorem executeLoop_takeWhile (line : List Byte) (parent : Nat) (argv : List (Option (List Byte)))
    (found : Option Nat) (words : List (List Byte)) :
    executeLoop libc cmdset line parent argv found (words.takeWhile (· ≠ [])) =
      executeLoop libc cmdset line parent argv found words := by
  induction words generalizing parent argv found with
  | nil => rfl
  | cons word words ih =>
      by_cases empty : word = []
      · simp [empty, executeLoop]
      · rw [List.takeWhile_cons_of_pos (by simpa using empty), executeLoop, executeLoop, if_neg empty,
          if_neg empty]
        cases commandMatchUniqueExact libc cmdset parent word with
        | none => rfl
        | some node =>
            dsimp only
            split
            · rfl
            · exact ih _ _ _

/-- `command_execute` does what the words before the first empty one say. -/
theorem commandExecute_takeWhile (line : List Byte) : commandExecute libc cmdset line =
    executeWords libc cmdset line ((line.splitOn space).takeWhile (· ≠ [])) := by
  rw [commandExecute_eq, executeWords, executeWords, executeLoop_takeWhile, commandWordDelimiters,
    strsepTokens_singleton]

end

/-- The command line `command_execute` is called with. -/
theorem readyToExecute_line {s : Shell} {l : Line} (h : s.toEditor.Holds l) {a : Answers}
    (given : a.memory.format = true) :
    ((readyToExecute a s).stringAt 0).octets = joined space (withoutComment l.text) := by
  have formatted := (h.cutComment.shellFormat_spec given).holds
  have all := formatted.stringAt (i := 0) (Nat.zero_le _)
  rw [Nat.cast_zero, List.drop_zero, Line.text_format, Line.text_ofText] at all
  exact all

/-- For every line and cursor: `shell_format` leaves the words joined by single spaces, and one
    space behind them if the line has a word and ends in a space; these are the octets that are
    kept, and the cursor is behind those kept before it. Normalizing again changes nothing. What
    `command_execute` does with the line of the shell is what it does with the words of the
    line without its comment. -/
theorem line_normalized :
    (∀ l : Line,
      l.format.text = [space].intercalate (words space l.text) ++
        (if words space l.text ≠ [] ∧ l.text.getLast? = some space then [space] else []) ∧
      l.format.text.map some = (keptPlaces space l.text).map (l.text[·]?) ∧
      l.format.before.length = ((keptPlaces space l.text).filter (· < l.before.length)).length ∧
      l.format.format = l.format ∧
      ∀ (e : Editor) (mem : Memory), e.Holds l → mem.format = true →
        (shellFormat mem e).Holds l.format) ∧
    ∀ (φ : Type) (libc : Libc) (cmdset : CommandSet φ) (a : Answers) (s : Shell) (l : Line),
      s.toEditor.Holds l → a.memory.format = true →
      let line := ((readyToExecute a s).stringAt 0).octets
      (line.splitOn space).takeWhile (· ≠ []) = words space (withoutComment l.text) ∧
        commandExecute libc cmdset line =
          executeWords libc cmdset line (words space (withoutComment l.text)) := by
  constructor
  · intro l
    have text := l.text_format
    refine ⟨text, ?_, ?_, l.format_format, ?_⟩
    · rw [text, ← squeeze_eq_joined]
      exact squeeze_eq_kept l.text
    · rw [l.before_format, ← length_squeeze_take, l.take_text]
    · intro e mem h given
      exact (h.shellFormat_spec given).holds
  · intro φ libc cmdset a s l h given
    dsimp only
    have tokens := @splitOn_joined _ _ space (withoutComment l.text)
    rw [commandExecute_takeWhile, readyToExecute_line h given, tokens]
    exact ⟨rfl, rfl⟩

/-- A line with a comment, with the cursor between its words. -/
def commentedLine : Line := ⟨litString "  show ", litString "  version  # all"⟩

def commentedShell : Shell := { freshShell [] 1 with
  commandLine := ByteMem.write (fun _ => 0) 0 commentedLine.text
  cursor := 7
  lineEnd := 23 }

theorem commentedShell_holds : commentedShell.toEditor.Holds commentedLine :=
  ⟨by decide, rfl, rfl, by decide, by decide, by decide, by decide, by decide⟩

theorem line_normalized_commented :
    (shellFormat .granted commentedShell.toEditor).Holds commentedLine.format ∧
    commentedLine.format = ⟨litString "show ", litString "version # all"⟩ ∧
    ((((readyToExecute { Answers.silent with memory := .granted } commentedShell).stringAt
        0).octets.splitOn space).takeWhile (· ≠ []) = [litString "show", litString "version"]) := by
  obtain ⟨formats, executes⟩ := line_normalized
  obtain ⟨-, -, -, -, holds⟩ := formats commentedLine
  refine ⟨holds _ _ commentedShell_holds rfl, rfl, ?_⟩
  have ready := executes Unit quietLibc commandSetCreate { Answers.silent with memory := .granted } _ _
    commentedShell_holds rfl
  rw [ready.1]
  decide

end Sdplane
