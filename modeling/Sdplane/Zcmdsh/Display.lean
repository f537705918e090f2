import Sdplane.Zcmdsh.LineEditor
import Mathlib.Data.List.GetD

/-!
# What the operator sees

A row of a terminal without bound: printable characters overwrite and advance,
`CONTROL ('H')` goes left, a carriage return goes to the first column and a newline to an
empty row. What the terminal makes of any other octet is left open. The functions that edit
the line leave it on the row, behind the prompt, with the terminal cursor on the cursor.
-/

namespace Sdplane

/-- A character that is shown. -/
def printable (b : Byte) : Prop := 0x20 ≤ b ∧ b ≤ 0x7E

instance (b : Byte) : Decidable (printable b) := inferInstanceAs (Decidable (_ ∧ _))

/-- The row the terminal cursor is on, and its column. -/
structure Screen where
  row : Nat → Byte
  col : Nat

namespace Screen

/-- A row that starts with `t` and is blank behind. -/
def showing (t : List Byte) (col : Nat) : Screen := ⟨fun i => t.getD i space, col⟩

/-- What an octet does; `other` is what the terminal does with the rest. -/
def put (other : Byte → Screen → Screen) (scr : Screen) (b : Byte) : Screen :=
  if printable b then ⟨Function.update scr.row scr.col b, scr.col + 1⟩
  else if b = controlH then { scr with col := scr.col - 1 }
  else if b = carriageReturn then { scr with col := 0 }
  else if b = newlineByte then { scr with row := fun _ => space }
  else other b scr

def feed (other : Byte → Screen → Screen) (scr : Screen) (bs : List Byte) : Screen :=
  bs.foldl (put other) scr

variable {other : Byte → Screen → Screen}

@[simp] theorem feed_nil (scr : Screen) : scr.feed other [] = scr := rfl

@[simp] theorem feed_append (scr : Screen) (bs bs' : List Byte) :
    scr.feed other (bs ++ bs') = (scr.feed other bs).feed other bs' := List.foldl_append

/-- Blanks at the end of a row are nothing. -/
theorem showing_blanks (t : List Byte) (n col : Nat) :
    showing (t ++ List.replicate n space) col = showing t col := by
  rw [showing, showing, mk.injEq]
  refine ⟨?_, rfl⟩
  funext i
  by_cases inside : i < t.length
  · rw [List.getD_append _ _ _ _ inside]
  · rw [List.getD_append_right _ _ _ _ (Nat.le_of_not_lt inside),
      List.getD_eq_default t space (Nat.le_of_not_lt inside)]
    by_cases blank : i - t.length < n
    · rw [List.getD_replicate space blank]
    · exact List.getD_eq_default _ _ (by rw [List.length_replicate]; omega)

theorem feed_back (t : List Byte) (col n : Nat) :
    (showing t col).feed other (List.replicate n controlH) = showing t (col - n) := by
  induction n generalizing col with
  | zero => rfl
  | succ n ih =>
      have once : put other (showing t col) controlH = showing t (col - 1) := rfl
      rw [List.replicate_succ, feed, List.foldl_cons, once]
      refine (ih (col - 1)).trans ?_
      rw [Nat.sub_sub, Nat.add_comm 1 n]

theorem put_printable {t : List Byte} {col : Nat} {b : Byte} (hb : printable b)
    (inside : col ≤ t.length) :
    put other (showing t col) b = showing (t.take col ++ b :: t.drop (col + 1)) (col + 1) := by
  have length : (t.take col).length = col := List.length_take_of_le inside
  rw [put, if_pos hb, showing, showing, mk.injEq]
  refine ⟨?_, rfl⟩
  funext i
  dsimp only
  rcases Nat.lt_trichotomy i col with before | rfl | behind
  · rw [Function.update_of_ne before.ne, List.getD_append _ _ _ _ (by omega)]
    simp [List.getD_eq_getElem?_getD, before]
  · rw [Function.update_self, List.getD_append_right _ _ _ _ (by omega), length, Nat.sub_self]
    rfl
  · rw [Function.update_of_ne behind.ne', List.getD_append_right _ _ _ _ (by omega), length]
    obtain ⟨k, rfl⟩ := Nat.exists_eq_add_of_lt behind
    have place : col + k + 1 - col = k + 1 := by omega
    rw [place, List.getD_cons_succ]
    simp only [List.getD_eq_getElem?_getD, List.getElem?_drop]
    congr 2
    omega

/-- Characters overwrite what is on the row from the cursor on. -/
theorem feed_printable {bs : List Byte} (hbs : ∀ b ∈ bs, printable b) {t : List Byte} {col : Nat}
    (inside : col ≤ t.length) : (showing t col).feed other bs =
      showing (t.take col ++ bs ++ t.drop (col + bs.length)) (col + bs.length) := by
  induction bs generalizing t col with
  | nil => simp
  | cons b bs ih =>
      have length : (t.take col).length = col := List.length_take_of_le inside
      rw [feed, List.foldl_cons, put_printable (hbs b List.mem_cons_self) inside]
      refine (ih (fun b' hb' => hbs b' (List.mem_cons_of_mem b hb')) ?_).trans ?_
      · rw [List.length_append, List.length_cons, length]
        omega
      · have split : t.take col ++ b :: t.drop (col + 1) =
            (t.take col ++ [b]) ++ t.drop (col + 1) := by simp
        have front : (t.take col ++ [b]).length = col + 1 := by
          rw [List.length_append, length, List.length_singleton]
        have sum : col + 1 + bs.length = col + (b :: bs).length := by
          rw [List.length_cons]
          omega
        rw [split, List.take_left' front, ← List.drop_drop, List.drop_left' front, List.drop_drop,
          sum]
        simp

/-- What is drawn up to the end of the row or beyond leaves nothing of its rest. -/
theorem feed_rest {a b bs : List Byte} {col : Nat} (here : a.length = col)
    (hbs : ∀ x ∈ bs, printable x) (length : b.length ≤ bs.length) :
    (showing (a ++ b) col).feed other bs = showing (a ++ bs) (col + bs.length) := by
  rw [feed_printable hbs (by rw [List.length_append]; omega), List.take_left' here,
    List.drop_eq_nil_of_le (by rw [List.length_append]; omega), List.append_nil]

/-- What is drawn again changes nothing. -/
theorem feed_same {a b bs : List Byte} {col : Nat} (here : a.length = col)
    (hbs : ∀ x ∈ bs, printable x) (same : bs <+: b) :
    (showing (a ++ b) col).feed other bs = showing (a ++ b) (col + bs.length) := by
  obtain ⟨rest, rfl⟩ := same
  have behind : (a ++ bs).length = col + bs.length := by
    rw [List.length_append, here]
  rw [feed_printable hbs (by rw [List.length_append]; omega), List.take_left' here,
    ← List.append_assoc, List.drop_left' behind]

end Screen

theorem printable_space : printable space := by decide

theorem printable_blanks {n : Nat} : ∀ b ∈ List.replicate n space, printable b := by
  intro b hb
  rw [List.eq_of_mem_replicate hb]
  exact printable_space

namespace Line

/-- The line as it is shown behind a prompt. -/
def onScreen (prompt : List Byte) (l : Line) : Screen :=
  .showing (prompt ++ l.text) (prompt.length + l.before.length)

variable {other : Byte → Screen → Screen} {prompt : List Byte} {l : Line}

theorem onScreen_moveTo (shown : ∀ b ∈ l.text, printable b) {i : Nat} (hi : i ≤ l.text.length) :
    (l.onScreen prompt).feed other (l.moveSent i) = (l.moveTo i).onScreen prompt := by
  have bound := l.length_text
  have here : (prompt ++ l.before).length = prompt.length + l.before.length := List.length_append
  rw [onScreen, onScreen, moveSent, text_moveTo, moveTo, length_before_ofText hi,
    Screen.feed_append]
  rw [text, ← List.append_assoc, Screen.feed_same here, Screen.feed_back, List.length_take]
  · congr 1
    omega
  · intro b hb
    exact shown b (List.mem_append_right _ (List.mem_of_mem_take hb))
  · exact List.take_prefix _ _

theorem onScreen_insert (shown : ∀ b ∈ l.text, printable b) {s : List Byte}
    (hs : ∀ b ∈ s, printable b) :
    (l.onScreen prompt).feed other (l.insertSent s) = (l.insert s).onScreen prompt := by
  have here : (prompt ++ l.before).length = prompt.length + l.before.length := List.length_append
  rw [onScreen, onScreen, insertSent, text_insert, text, Screen.feed_append, ← List.append_assoc,
    Screen.feed_rest here, Screen.feed_back]
  · simp only [insert, List.append_assoc, List.length_append]
    congr 1
    omega
  · intro b hb
    rcases List.mem_append.mp hb with hb | hb
    · exact hs b hb
    · exact shown b (List.mem_append_right _ hb)
  · rw [List.length_append]
    omega

theorem onScreen_delete (shown : ∀ b ∈ l.text, printable b) {a b : Nat} (hab : a ≤ b)
    (hb : b ≤ l.text.length) (ha : a ≤ l.before.length) :
    (l.onScreen prompt).feed other (l.deleteSent a b) = (l.delete a b).onScreen prompt := by
  have bound := l.length_text
  have start : (l.text.take a).length = a := List.length_take_of_le (by omega)
  have here : (prompt ++ l.text.take a).length = prompt.length + a := by
    rw [List.length_append, start]
  have place : prompt.length + l.before.length - (l.before.length - a) = prompt.length + a := by
    omega
  have split : prompt ++ l.text = (prompt ++ l.text.take a) ++ l.text.drop a := by
    rw [List.append_assoc, List.take_append_drop]
  rw [onScreen, deleteSent, Screen.feed_append, Screen.feed_append, Screen.feed_back, place, split,
    Screen.feed_rest here, Screen.feed_back, ← List.append_assoc, Screen.showing_blanks]
  · simp only [onScreen, delete, text, List.append_assoc, List.length_append, List.length_drop,
      List.length_replicate] at *
    congr 1
    omega
  · intro x hx
    rcases List.mem_append.mp hx with hx | hx
    · exact shown x (List.mem_of_mem_drop hx)
    · exact printable_blanks x hx
  · simp only [List.length_append, List.length_drop, List.length_replicate]
    omega

theorem onScreen_format (shown : ∀ b ∈ l.text, printable b) :
    (l.onScreen prompt).feed other l.formatSent = l.format.onScreen prompt := by
  have shorter : l.format.text.length ≤ l.text.length := by
    rw [format, text_ofText]
    exact l.format_bounds.2
  have inside : l.format.before.length ≤ l.format.text.length :=
    l.format.length_before_le
  have place : prompt.length + l.before.length - l.before.length = prompt.length :=
    Nat.add_sub_cancel _ _
  rw [onScreen, formatSent, Screen.feed_append, List.append_assoc, Screen.feed_append,
    Screen.feed_back, place, Screen.feed_rest rfl, Screen.feed_back, ← List.append_assoc,
    Screen.showing_blanks, onScreen]
  · simp only [List.length_append, List.length_replicate]
    congr 1
    omega
  · intro x hx
    rcases List.mem_append.mp hx with hx | hx
    · exact shown x (l.mem_text_format hx)
    · exact printable_blanks x hx
  · simp only [List.length_append, List.length_replicate]
    omega

/-- Every edit is drawn as it is made. -/
theorem Edit.onScreen {sent : List Byte} {l' : Line} (edit : l.Edit printable sent l')
    (shown : ∀ b ∈ l.text, printable b) :
    (l.onScreen prompt).feed other sent = l'.onScreen prompt ∧ ∀ b ∈ l'.text, printable b := by
  induction edit with
  | nothing l => exact ⟨rfl, shown⟩
  | moveTo l hi => exact ⟨onScreen_moveTo shown hi, l.text_moveTo _ ▸ shown⟩
  | insert l hs =>
      refine ⟨onScreen_insert shown hs, ?_⟩
      intro b hb
      exact (l.mem_text_insert.mp hb).elim (hs b) (shown b)
  | delete l hab hb ha =>
      exact ⟨onScreen_delete shown hab hb ha, fun x hx => shown x (l.mem_text_delete hx)⟩
  | format l => exact ⟨onScreen_format shown, fun x hx => shown x (l.mem_text_format hx)⟩
  | trans _ _ ih ih' =>
      obtain ⟨drawn, shown'⟩ := ih shown
      obtain ⟨drawn', shown''⟩ := ih' shown'
      exact ⟨by rw [Screen.feed_append, drawn, drawn'], shown''⟩

end Line

/-! ## The shell on the screen -/

section

variable (other : Byte → Screen → Screen) (blank : Screen)

/-- The screen after what was written to the terminal. -/
def Shell.screen (s : Shell) : Screen := blank.feed other s.out

/-- The shell edits a line that the row shows behind the prompt, and everything it can insert
    can be shown. -/
structure Shell.Displayed (s : Shell) : Prop where
  line : ∃ l, s.toEditor.Holds l ∧ (∀ b ∈ l.text, printable b) ∧
    s.screen other blank = l.onScreen s.prompt
  stored : s.Stored printable
  prompt : ∀ b ∈ s.prompt, printable b
  interactive : s.flagInteractive = true
  nl : ∃ bs, s.nl = bs ++ [newlineByte]

end

namespace Shell

variable {other : Byte → Screen → Screen} {blank : Screen} {s s' : Shell} {l : Line}

/-- What the history holds depends on the slots alone. -/
theorem Stored.congr (stored : s.Stored printable) (rest : s.SameRest s')
    (cut : ∀ c, s'.cutBuffer = some c → ∀ b ∈ c.octets, printable b) : s'.Stored printable where
  cut := cut
  history := by
    intro h' some' i c hc
    obtain ⟨h, some, browsed⟩ := rest.history h' some'
    exact stored.history h some i c (browsed.array ▸ hc)

/-- An edit is drawn. -/
theorem Edited.displayed (shown : s.Displayed other blank)
    (edited : ∀ l, s.toEditor.Holds l → s.Edited printable l s') : s'.Displayed other blank := by
  obtain ⟨l, holds, chars, row⟩ := shown.line
  have edited := edited l holds
  obtain ⟨l', sent, edit, holds', out⟩ := edited.editor.edit
  obtain ⟨drawn, chars'⟩ : (l.onScreen s.prompt).feed other sent = l'.onScreen s.prompt ∧ _ :=
    edit.onScreen chars
  refine ⟨⟨l', holds', chars', ?_⟩, shown.stored.congr edited.rest ?_, ?_, ?_, ?_⟩
  · rw [screen, out, Screen.feed_append, ← screen, row, drawn, edited.rest.prompt]
  · intro c hc
    rcases edited.editor.cut c hc with before | fromLine
    · exact shown.stored.cut c before
    · exact fun b hb => chars b (fromLine b hb)
  · rw [edited.rest.prompt]
    exact shown.prompt
  · rw [edited.rest.interactive]
    exact shown.interactive
  · rw [edited.rest.nl]
    exact shown.nl

/-- Behind a newline a prompt and a line are alone on their row. -/
theorem feed_prompt (scr : Screen) (prompt bs : List Byte) (l : Line)
    (hprompt : ∀ b ∈ prompt, printable b) (chars : ∀ b ∈ l.text, printable b) :
    scr.feed other (bs ++ [newlineByte] ++ ([carriageReturn] ++ prompt) ++ l.text ++
      List.replicate l.after.length controlH) = l.onScreen prompt := by
  have returned : ((scr.feed other bs).feed other [newlineByte]).feed other [carriageReturn] =
      Screen.showing [] 0 := rfl
  have bound := l.length_text
  rw [Screen.feed_append, Screen.feed_append, Screen.feed_append, Screen.feed_append,
    Screen.feed_append, returned]
  have first : (Screen.showing [] 0).feed other prompt = _ :=
    Screen.feed_rest (a := []) (b := []) rfl hprompt (Nat.zero_le _)
  have second : (Screen.showing (prompt ++ []) prompt.length).feed other l.text = _ :=
    Screen.feed_rest rfl chars (Nat.zero_le _)
  rw [List.append_nil] at second
  rw [Nat.zero_add, List.nil_append] at first
  rw [first, second, Screen.feed_back, Line.onScreen]
  congr 1
  omega

theorem Stored.written (stored : s.Stored printable) (bs : List Byte) :
    (s.written bs).Stored printable := ⟨stored.cut, stored.history⟩

/-- A refresh shows the line on a new row, after a line feed or if something was debugged. -/
theorem refresh_displayed (a : Answers) (holds : s.toEditor.Holds l)
    (chars : ∀ b ∈ l.text, printable b) (stored : s.Stored printable)
    (hprompt : ∀ b ∈ s.prompt, printable b) (interactive : s.flagInteractive = true)
    (nl : ∃ bs, s.nl = bs ++ [newlineByte])
    (fresh : (s.flagDebug = true ∨ s.debugShell = true) ∨
      ∃ bs, s.buffered = bs ++ [newlineByte]) :
    ∃ sent, shellRefresh a s = .ok (s.written sent) ∧ (s.written sent).Displayed other blank := by
  have becomes := holds.writeFd (s.refreshSent a l)
  refine ⟨_, shellRefresh_spec holds a, ⟨l, becomes.holds, chars, ?_⟩, stored.written _, hprompt,
    interactive, nl⟩
  have sent : ∃ bs, s.refreshSent a l = bs ++ [newlineByte] ++ ([carriageReturn] ++ s.prompt) ++
      l.text ++ List.replicate l.after.length controlH := by
    obtain ⟨tail, nl⟩ := nl
    by_cases debug : s.flagDebug = true ∨ s.debugShell = true
    · refine ⟨s.buffered ++ (a.debugText ++ tail), ?_⟩
      simp [refreshSent, lineSent, promptSent, debug, interactive, nl]
    · obtain ⟨bs, buffered⟩ := fresh.resolve_left debug
      refine ⟨bs, ?_⟩
      simp [refreshSent, lineSent, promptSent, debug, interactive, buffered]
  obtain ⟨bs, sent⟩ := sent
  change blank.feed other (s.toEditor.writeFd (s.refreshSent a l)).out = _
  rw [becomes.out, Screen.feed_append, sent]
  exact feed_prompt _ s.prompt bs l hprompt chars

/-- A shell whose keys and rest are others shows the same. -/
theorem Displayed.congr (shown : s.Displayed other blank) (editor : s'.toEditor = s.toEditor)
    (rest : s.SameRest s') : s'.Displayed other blank := by
  apply Edited.displayed shown
  intro l holds
  exact Edited.congr ⟨holds.unedited, .refl s⟩ editor rest

/-- A shell that is debugged is shown again. -/
theorem Displayed.debugged (shown : s.Displayed other blank) (a : Answers) (bs : List Byte)
    (debug : s.flagDebug = true ∨ s.debugShell = true) :
    ∃ sent, shellRefresh a (s.fprintf bs) = .ok (s.written sent) ∧
      (s.written sent).Displayed other blank := by
  obtain ⟨l, holds, chars, -⟩ := shown.line
  exact refresh_displayed (s := s.fprintf bs) a holds chars
    ⟨shown.stored.cut, shown.stored.history⟩ shown.prompt shown.interactive shown.nl (.inl debug)

theorem debugInput_displayed (shown : s.Displayed other blank) (a : Answers) :
    ∃ e buffered, debugInput a s = .ok { s with toEditor := e, buffered := buffered } ∧
      Shell.Displayed other blank { s with toEditor := e, buffered := buffered } := by
  unfold debugInput
  split
  case isTrue debug =>
    obtain ⟨_, refreshed, shown'⟩ := shown.debugged a (s.nl ++ a.debugText ++ s.nl) (.inr debug)
    exact ⟨_, [], refreshed, shown'⟩
  case isFalse => exact ⟨s.toEditor, s.buffered, rfl, shown⟩

theorem refreshKey_displayed (shown : s.Displayed other blank) (a : Answers) :
    ∃ s', shellKeyfuncRefresh a s = .ok s' ∧ s'.Displayed other blank := by
  obtain ⟨l, holds, chars, -⟩ := shown.line
  have formatted : ∃ l', (shellFormat a.memory s.toEditor).Holds l' ∧
      (∀ b ∈ l'.text, printable b) ∧
        (shellFormat a.memory s.toEditor).cutBuffer = s.cutBuffer := by
    cases format : a.memory.format with
    | false =>
        rw [shellFormat_unchanged format]
        exact ⟨l, holds, chars, rfl⟩
    | true =>
        have becomes := holds.shellFormat_spec format
        exact ⟨l.format, becomes.holds, fun b hb => chars b (l.mem_text_format hb),
          becomes.cutBuffer⟩
  obtain ⟨l', holds', chars', cut⟩ := formatted
  obtain ⟨tail, nl⟩ := shown.nl
  have ended : s.buffered ++ s.nl = s.buffered ++ tail ++ [newlineByte] := by
    rw [nl, List.append_assoc]
  have stored : (shellLinefeed (s.edit (shellFormat a.memory))).Stored printable :=
    ⟨fun c hc => shown.stored.cut c (cut ▸ hc), shown.stored.history⟩
  obtain ⟨_, refreshed, shown'⟩ := refresh_displayed a holds' chars' stored shown.prompt
    shown.interactive shown.nl (.inr ⟨s.buffered ++ tail, ended⟩)
  exact ⟨_, refreshed, shown'⟩

end Shell

/-! ## The editing keys -/

/-- The function edits the line or refreshes the row, and what it types can be shown. -/
def Keyfunc.Shows (ch : Byte) (f : Keyfunc) : Prop :=
  (f.edits = true ∨ f = .refresh) ∧ (f = .inputChar → printable ch)

/-- What is reached by keys that are bound to such functions when they are typed. -/
inductive Shell.EditKeys (s₀ : Shell) : Shell → Prop where
  | start : EditKeys s₀ s₀
  | key {s s' : Shell} {ch : Byte} {a : Answers} : EditKeys s₀ s →
      (∀ f, s.keyfunc ch = some f → f.Shows ch) → shellInput a ch s = .ok s' → EditKeys s₀ s'

namespace Shell

variable {other : Byte → Screen → Screen} {blank : Screen} {s s' : Shell}

theorem run_displayed {f : Keyfunc} {a : Answers} (shows : f.Shows s.inputch)
    (shown : s.Displayed other blank) (run : f.run a s = .ok s') : s'.Displayed other blank := by
  rcases shows.1 with edits | rfl
  · apply Edited.displayed shown
    intro l holds
    exact (f.run_edited edits holds shown.stored a shows.2 (by decide)).2 s' run
  · obtain ⟨s'', refreshed, shown'⟩ := refreshKey_displayed shown a
    cases refreshed.symm.trans run
    exact shown'

theorem finishInput_displayed {a : Answers} {escaped : Bool} (shown : s.Displayed other blank)
    (finish : finishInput a escaped s = .ok s') : s'.Displayed other blank := by
  have cleared : (if escaped then { s with flagEscape := false } else s).Displayed other blank := by
    split
    · exact shown.congr rfl ⟨rfl, rfl, rfl, rfl, rfl, .refl _, rfl, .inl rfl⟩
    · exact shown
  unfold finishInput at finish
  generalize (if escaped then { s with flagEscape := false } else s) = s₁ at cleared finish
  dsimp only at finish
  split at finish
  case isTrue debug =>
    obtain ⟨_, refreshed, shown'⟩ := cleared.debugged a [] (.inl debug)
    have same : s₁.fprintf [] = s₁ := by
      rw [fprintf, List.append_nil]
    rw [same] at refreshed
    cases refreshed.symm.trans finish
    exact shown'
  case isFalse =>
    cases finish
    exact cleared

/-- A key keeps the line on the row. -/
theorem input_displayed {ch : Byte} {a : Answers} (shown : s.Displayed other blank)
    (shows : ∀ f, s.keyfunc ch = some f → f.Shows ch) (input : shellInput a ch s = .ok s') :
    s'.Displayed other blank := by
  have saved : Shell.Displayed other blank { s with inputch := ch } :=
    shown.congr rfl ⟨rfl, rfl, rfl, rfl, rfl, .refl _, rfl, .inl rfl⟩
  obtain ⟨e, buffered, debugged, shown₁⟩ := debugInput_displayed saved a
  obtain ⟨s₁, first, rest⟩ := bind_ok input
  cases debugged.symm.trans first
  obtain ⟨s₂, called, finish⟩ := bind_ok rest
  refine finishInput_displayed ?_ finish
  unfold callKeyfunc at called
  split at called
  case h_1 f bound => exact run_displayed (shows f bound) shown₁ called
  case h_2 =>
    cases called
    exact shown₁

/-- Every run of editing keys. -/
theorem EditKeys.displayed {s₀ : Shell} (shown : s₀.Displayed other blank)
    (run : s₀.EditKeys s) : s.Displayed other blank := by
  induction run with
  | start => exact shown
  | key _ shows input ih => exact input_displayed ih shows input

/-- On an empty row the prompt is shown. -/
theorem prompt_displayed (holds : s.toEditor.Holds ⟨[], []⟩)
    (row : s.screen other blank = .showing [] 0) (buffered : s.buffered = [])
    (stored : s.Stored printable) (hprompt : ∀ b ∈ s.prompt, printable b)
    (interactive : s.flagInteractive = true) (nl : ∃ bs, s.nl = bs ++ [newlineByte]) :
    (shellPrompt s).Displayed other blank := by
  have becomes := holds.writeFd s.promptSent
  have returned : (Screen.showing [] 0).feed other [carriageReturn] = .showing [] 0 := rfl
  have first : (Screen.showing [] 0).feed other s.prompt = _ :=
    Screen.feed_rest (a := []) (b := []) rfl hprompt (Nat.zero_le _)
  rw [List.nil_append, Nat.zero_add] at first
  rw [shellPrompt_spec holds]
  refine ⟨⟨⟨[], []⟩, becomes.holds, List.forall_mem_nil _, ?_⟩, stored.written _, hprompt,
    interactive, nl⟩
  change blank.feed other (s.toEditor.writeFd s.promptSent).out = _
  rw [becomes.out, Screen.feed_append, ← screen, row, promptSent, buffered, if_pos interactive,
    List.nil_append, Screen.feed_append, returned, first, Line.onScreen, Line.text]
  rw [List.append_nil, List.append_nil, List.length_nil, Nat.add_zero]
  rfl

/-- A new shell, once it is prepared as the terminals prepare it. -/
theorem freshShell_displayed (binds : List (Byte × Keyfunc)) (writefd : Nat) :
    (shellPrompt ((freshShell binds writefd).edit shellClear)).Displayed other
      (.showing [] 0) := by
  have cleared := (freshShell_holds binds writefd).shellClear_spec
  obtain ⟨keymap, fresh⟩ := freshShell_eq binds writefd
  have stored : ((freshShell binds writefd).edit shellClear).Stored printable := by
    rw [fresh]
    exact ⟨fun _ hc => (nomatch hc), fun _ hh => (nomatch hh)⟩
  have hprompt : ∀ b ∈ litString "prompt> ", printable b := by decide
  refine prompt_displayed cleared.holds ?_ ?_ stored ?_ ?_ ?_ <;> rw [fresh]
  · rfl
  · rfl
  · exact hprompt
  · rfl
  · exact ⟨[], rfl⟩

end Shell

/-- The row shows the prompt, the line behind it and blanks, and the terminal cursor is on the
    cursor, after every key that edits the line or refreshes the row. -/
theorem display_simulation (other : Byte → Screen → Screen) (blank : Screen) {s₀ s : Shell}
    (shown : s₀.Displayed other blank) (run : s₀.EditKeys s) :
    ((s.screen other blank).col : Int) = s.prompt.length + s.cursor ∧
      ∀ i, (s.screen other blank).row i =
        (s.prompt ++ s.commandLine.read 0 s.lineEnd.toNat).getD i space := by
  obtain ⟨l, holds, -, row⟩ := (run.displayed shown).line
  rw [row, holds.lineEnd, Int.toNat_natCast, holds.line, holds.cursor]
  exact ⟨Nat.cast_add _ _, fun _ => rfl⟩

/-- A key typed at a prompt. -/
theorem display_simulation_typed : ∃ s,
    shellInput .silent (charByte 'q') (shellPrompt ((freshShell [] (1 : Nat)).edit shellClear)) =
      .ok s ∧
    ((s.screen (fun _ scr => scr) (.showing [] 0)).col : Int) = s.prompt.length + s.cursor := by
  obtain ⟨s, typed⟩ : ∃ s, shellInput .silent (charByte 'q')
      (shellPrompt ((freshShell [] (1 : Nat)).edit shellClear)) = .ok s := ⟨_, rfl⟩
  refine ⟨s, typed, ?_⟩
  refine (display_simulation _ _ (Shell.freshShell_displayed [] 1) (.key .start ?_ typed)).1
  rintro f ⟨⟩
  exact ⟨.inl rfl, fun _ => by decide⟩

end Sdplane
