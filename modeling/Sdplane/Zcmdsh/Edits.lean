import Sdplane.Zcmdsh.Keyfunc
import Sdplane.Zcmdsh.WordBounds

/-!
# What the editing keys do

Every function that edits the line makes a sequence of edits of it: moving the cursor,
inserting a string, deleting a part that does not begin behind the cursor, normalizing the
spaces. `Edit` has one constructor for each, with what it writes.
-/

namespace Sdplane

/-- Edits of a line, whose insertions are of octets with `P`, and what they write. -/
inductive Line.Edit (P : Byte → Prop) : Line → List Byte → Line → Prop where
  | nothing (l : Line) : Edit P l [] l
  | moveTo (l : Line) {i : Nat} : i ≤ l.text.length → Edit P l (l.moveSent i) (l.moveTo i)
  | insert (l : Line) {s : List Byte} : (∀ b ∈ s, P b) → Edit P l (l.insertSent s) (l.insert s)
  | delete (l : Line) {a b : Nat} : a ≤ b → b ≤ l.text.length → a ≤ l.before.length →
      Edit P l (l.deleteSent a b) (l.delete a b)
  | format (l : Line) : Edit P l l.formatSent l.format
  | trans {l l' l'' : Line} {sent sent' : List Byte} :
      Edit P l sent l' → Edit P l' sent' l'' → Edit P l (sent ++ sent') l''

/-- The editor was edited; what is cut out now was in the line or in the cut buffer. -/
structure Editor.Edited (P : Byte → Prop) (e : Editor) (l : Line) (e' : Editor) : Prop where
  edit : ∃ l' sent, l.Edit P sent l' ∧ e'.Holds l' ∧ e'.out = e.out ++ sent
  cut : ∀ c, e'.cutBuffer = some c → e.cutBuffer = some c ∨ ∀ b ∈ c.octets, b ∈ l.text

/-- Browsing a history leaves what it holds; with nothing in the last slot it stays behind it. -/
structure CommandHistory.Browsed (h h' : CommandHistory) : Prop where
  array : h'.array = h.array
  last : h'.last = h.last
  current : h.array h.last = none → h.current = historyNext h.last → h'.current = h.current

theorem CommandHistory.Browsed.refl (h : CommandHistory) : h.Browsed h := ⟨rfl, rfl, fun _ _ => rfl⟩

theorem CommandHistory.Browsed.trans {h h' h'' : CommandHistory} (first : h.Browsed h')
    (second : h'.Browsed h'') : h.Browsed h'' where
  array := second.array.trans first.array
  last := second.last.trans first.last
  current := by
    intro empty behind
    have stays := first.current empty behind
    rw [← stays]
    refine second.current ?_ ?_
    · rw [first.array, first.last]
      exact empty
    · rw [stays, first.last]
      exact behind

/-- A shell that has a history now had it before, and it was browsed. -/
def CommandHistory.BrowsedIn (before after : Option CommandHistory) : Prop :=
  ∀ h', after = some h' → ∃ h, before = some h ∧ h.Browsed h'

theorem CommandHistory.BrowsedIn.refl (history : Option CommandHistory) :
    BrowsedIn history history := fun h some => ⟨h, some, .refl h⟩

/-- What of the shell an edit does not touch. -/
structure Shell.SameRest (s s' : Shell) : Prop where
  nl : s'.nl = s.nl
  prompt : s'.prompt = s.prompt
  interactive : s'.flagInteractive = s.flagInteractive
  debug : s'.flagDebug = s.flagDebug
  debugShell : s'.debugShell = s.debugShell
  history : CommandHistory.BrowsedIn s.history s'.history
  keymapNormal : s'.keymapNormal = s.keymapNormal
  keymap : s'.keymap = s.keymap ∨ s'.keymap.typing = true

/-- A function of the shell edited the line. -/
structure Shell.Edited (P : Byte → Prop) (s : Shell) (l : Line) (s' : Shell) : Prop where
  editor : s.toEditor.Edited P l s'.toEditor
  rest : s.SameRest s'

/-- The octets that can be pasted or recalled. -/
structure Shell.Stored (P : Byte → Prop) (s : Shell) : Prop where
  cut : ∀ c, s.cutBuffer = some c → ∀ b ∈ c.octets, P b
  history : ∀ h, s.history = some h → ∀ i c, h.array i = some c → ∀ b ∈ c.octets, P b

theorem Shell.SameRest.refl (s : Shell) : s.SameRest s :=
  ⟨rfl, rfl, rfl, rfl, rfl, .refl _, rfl, .inl rfl⟩

namespace Editor

variable {P : Byte → Prop} {e e' : Editor} {l l' : Line} {sent : List Byte}

theorem Becomes.edited (becomes : e.Becomes l' sent e') (edit : l.Edit P sent l') :
    e.Edited P l e' where
  edit := ⟨l', sent, edit, becomes.holds, becomes.out⟩
  cut := fun _ hc => .inl (becomes.cutBuffer ▸ hc)

/-- The cursor is moved first. -/
theorem Becomes.moveEdited {e'' : Editor} {i : Nat} (hi : i ≤ l.text.length)
    (becomes : e.Becomes (l.moveTo i) (l.moveSent i) e') (edited : e'.Edited P (l.moveTo i) e'') :
    e.Edited P l e'' where
  edit := by
    obtain ⟨l', sent, edit, holds, out⟩ := edited.edit
    refine ⟨l', _, .trans (.moveTo l hi) edit, holds, ?_⟩
    rw [out, becomes.out, List.append_assoc]
  cut := by
    intro c hc
    have source := edited.cut c hc
    rwa [becomes.cutBuffer, l.text_moveTo] at source

/-- The cut buffer holds what is cut out of the line now. -/
theorem Becomes.cutEdited {mem : Memory} {a b : Nat} (hab : a ≤ b) (hb : b ≤ l.text.length)
    (ha : a ≤ l.before.length)
    (becomes : { e with cutBuffer := if mem.cut then some (l.cutString a b) else none }.Becomes
      (l.delete a b) (l.deleteSent a b) e') : e.Edited P l e' where
  edit := ⟨_, _, .delete l hab hb ha, becomes.holds, becomes.out⟩
  cut := by
    intro c hc
    right
    rw [becomes.cutBuffer] at hc
    dsimp only at hc
    split at hc
    · cases hc
      intro x hx
      have inCut := List.takeWhile_sublist _ |>.subset hx
      exact List.mem_of_mem_drop (List.mem_of_mem_take inCut)
    · cases hc

namespace Holds

variable (h : e.Holds l)

include h

theorem unedited : e.Edited P l e where
  edit := ⟨l, [], .nothing l, h, (List.append_nil _).symm⟩
  cut := fun _ hc => .inl hc

theorem forget : e.Edited P l { e with cutBuffer := none } where
  edit := ⟨l, [], .nothing l, { h with }, (List.append_nil _).symm⟩
  cut := by
    intro c hc
    cases hc

theorem forward (n : Nat) : e.Edited P l (shellForward n e) := by
  have bound := l.length_text
  by_cases inside : n ≤ l.after.length
  · apply (h.shellForward_spec inside).edited
    rw [← l.moveSent_ahead n]
    exact .moveTo l (by omega)
  · rw [h.shellForward_beyond (Nat.lt_of_not_le inside)]
    exact h.unedited

theorem backward (n : Nat) : e.Edited P l (shellBackward n e) := by
  have bound := l.length_text
  by_cases inside : n ≤ l.before.length
  · apply (h.shellBackward_spec inside).edited
    rw [← l.moveSent_back inside]
    exact .moveTo l (by omega)
  · rw [h.shellBackward_beyond (Nat.lt_of_not_le inside)]
    exact h.unedited

theorem insert (mem : Memory) {s : CString} (hs : ∀ b ∈ s.octets, P b) :
    Ensures (shellInsert mem s e) .assertion (e.Edited P l) :=
  (h.shellInsert_spec mem s).imp fun _ becomes => becomes.edited (.insert l hs)

theorem delete {a b : Nat} (hab : a ≤ b) (hb : b ≤ l.text.length) (ha : a ≤ l.before.length) :
    Ensures (shellDeleteString a b e) .assertion (e.Edited P l) := by
  obtain ⟨e', done, becomes⟩ := h.shellDeleteString_spec hab hb
  exact .of_ok ⟨e', done, becomes.edited (.delete l hab hb ha)⟩

/-- An octet is deleted at the cursor. -/
theorem deleteAtCursor (before : e.cursor < e.lineEnd) :
    Ensures (shellDeleteString e.cursor (e.cursor + 1) e) .assertion (e.Edited P l) := by
  have bound := l.length_text
  rw [h.cursor, h.lineEnd] at before
  rw [h.cursor, ← Nat.cast_succ]
  exact h.delete (by omega) (by omega) le_rfl

/-- From the cursor or a place before it on, a part is cut out, even if it is empty. -/
theorem cut (mem : Memory) {a b : Nat} (hab : a ≤ b) (hb : b ≤ l.text.length)
    (ha : a ≤ l.before.length) : Ensures (shellCut mem a b e) .assertion (e.Edited P l) := by
  rcases hab.eq_or_lt with rfl | nonempty
  · exact .of_ok ⟨_, h.shellCut_empty mem hb, h.forget⟩
  · obtain ⟨e', done, becomes⟩ := h.shellCut_spec mem nonempty hb
    exact .of_ok ⟨e', done, becomes.cutEdited hab hb ha⟩

/-- The octet before the cursor is deleted. -/
theorem backspace (inside : ¬ e.cursor ≤ 0) :
    Ensures (shellDeleteString (shellBackward 1 e).cursor ((shellBackward 1 e).cursor + 1)
      (shellBackward 1 e)) .assertion (e.Edited P l) := by
  have bound := l.length_text
  rw [h.cursor] at inside
  have moved := h.shellBackward_spec (n := 1) (by omega)
  rw [← l.moveSent_back (by omega)] at moved
  refine (moved.holds.deleteAtCursor ?_).imp fun e' edited => moved.moveEdited (by omega) edited
  rw [moved.holds.cursor, moved.holds.lineEnd, l.text_moveTo, Line.moveTo,
    Line.length_before_ofText (by omega)]
  omega

/-- The whole line is cut out. -/
theorem killAll (mem : Memory) :
    Ensures (shellCut mem 0 (shellBackward e.cursor e).lineEnd (shellBackward e.cursor e))
      .assertion (e.Edited P l) := by
  have moved := h.shellBackward_spec (n := l.before.length) le_rfl
  rw [← l.moveSent_back le_rfl, ← h.cursor, Nat.sub_self] at moved
  rw [moved.holds.lineEnd]
  exact (moved.holds.cut mem (Nat.zero_le _) le_rfl (Nat.zero_le _)).imp
    fun e' edited => moved.moveEdited (Nat.zero_le _) edited

/-- The last octet is deleted, from the end of the line. -/
theorem deleteLast (behind : ¬ e.cursor < e.lineEnd) (nonempty : 0 < e.lineEnd) :
    Ensures (shellDeleteString (e.lineEnd - 1) e.lineEnd e) .assertion (e.Edited P l) := by
  have bound := l.length_text
  rw [h.cursor, h.lineEnd] at behind
  rw [h.lineEnd] at nonempty
  have last : e.lineEnd - 1 = (l.text.length - 1 : Nat) := by
    rw [h.lineEnd]
    omega
  rw [last, h.lineEnd]
  exact h.delete (by omega) le_rfl (by omega)

theorem deleteWordBackward (mem : Memory) :
    Ensures (shellDeleteWordBackward mem e) .assertion (e.Edited P l) := by
  have inside : l.before.length ≤ l.text.length := l.length_before_le
  obtain ⟨i, hi, e', done, ⟨-, rfl⟩ | ⟨before, becomes⟩⟩ := h.shellDeleteWordBackward_spec mem
  · exact .of_ok ⟨_, done, h.forget⟩
  · exact .of_ok ⟨e', done, becomes.cutEdited hi inside hi⟩

theorem moveWordBackward : Ensures (shellMoveWordBackward e) .assertion (e.Edited P l) := by
  obtain ⟨i, hi, e', done, becomes⟩ := h.shellMoveWordBackward_spec
  exact .of_ok ⟨e', done, becomes.edited (.moveTo l hi)⟩

theorem moveWordForward : Ensures (shellMoveWordForward e) .assertion (e.Edited P l) := by
  obtain ⟨i, hi, e', done, becomes⟩ := h.shellMoveWordForward_spec
  exact .of_ok ⟨e', done, becomes.edited (.moveTo l hi)⟩

end Holds

end Editor

namespace Shell

variable {P : Byte → Prop} {s : Shell} {l : Line} {f : Editor → Except Stop Editor}

theorem editM_ok {e : Editor} (done : f s.toEditor = .ok e) :
    s.editM f = .ok { s with toEditor := e } := by
  rw [editM, done]
  rfl

theorem editM_ensures {Q : Editor → Prop} (h : Ensures (f s.toEditor) .assertion Q) :
    Ensures (s.editM f) .assertion fun s' => ∃ e, Q e ∧ s' = { s with toEditor := e } :=
  h.bind fun e he => .ok ⟨e, he, rfl⟩

theorem edit_edited {f : Editor → Editor} (h : s.toEditor.Edited P l (f s.toEditor)) :
    s.Edited P l (s.edit f) := ⟨h, ⟨rfl, rfl, rfl, rfl, rfl, .refl _, rfl, .inl rfl⟩⟩

theorem editM_edited (h : Ensures (f s.toEditor) .assertion (s.toEditor.Edited P l)) :
    Ensures (s.editM f) .assertion (s.Edited P l) := by
  refine (editM_ensures h).imp ?_
  rintro _ ⟨e, edited, rfl⟩
  exact ⟨edited, ⟨rfl, rfl, rfl, rfl, rfl, .refl _, rfl, .inl rfl⟩⟩

theorem edit_editM_edited {g : Editor → Editor}
    (h : Ensures (f (g s.toEditor)) .assertion (s.toEditor.Edited P l)) :
    Ensures ((s.edit g).editM f) .assertion (s.Edited P l) := by
  refine (editM_ensures (s := s.edit g) h).imp ?_
  rintro _ ⟨e, edited, rfl⟩
  exact ⟨edited, ⟨rfl, rfl, rfl, rfl, rfl, .refl _, rfl, .inl rfl⟩⟩

/-- A change of what an edit does not look at. -/
theorem Edited.congr {s' s'' : Shell} (edited : s.Edited P l s')
    (editor : s''.toEditor = s'.toEditor) (rest : s'.SameRest s'') : s.Edited P l s'' where
  editor := editor ▸ edited.editor
  rest := {
    nl := rest.nl.trans edited.rest.nl
    prompt := rest.prompt.trans edited.rest.prompt
    interactive := rest.interactive.trans edited.rest.interactive
    debug := rest.debug.trans edited.rest.debug
    debugShell := rest.debugShell.trans edited.rest.debugShell
    history := by
      intro h'' some''
      obtain ⟨h', some', second⟩ := rest.history h'' some''
      obtain ⟨h, some, first⟩ := edited.rest.history h' some'
      exact ⟨h, some, first.trans second⟩
    keymapNormal := rest.keymapNormal.trans edited.rest.keymapNormal
    keymap := rest.keymap.elim (fun same => same ▸ edited.rest.keymap) .inr }

/-- Back to the normal keymap after an edit. -/
theorem normal_edited {r : Except Stop Shell} (edited : Ensures r .assertion (s.Edited P l)) :
    Ensures (return vtyShellKeyfuncNormal (← r)) .assertion (s.Edited P l) :=
  edited.bind fun _ edited => .ok (edited.congr rfl
    ⟨rfl, rfl, rfl, rfl, rfl, .refl _, rfl, .inr rfl⟩)

section
variable (h : s.toEditor.Holds l) (stored : s.Stored P)

include h

/-- The line is replaced by one of the history. -/
theorem recall_edited (a : Answers) {history : CommandHistory} {line : CString}
    (browsed : s.history = some history) (hline : ∀ b ∈ line.octets, P b) {current : Nat}
    (stays : history.array history.last = none → history.current = historyNext history.last →
      current = history.current) :
    Ensures (do
      let s ← s.editM (shellDeleteString 0 s.lineEnd)
      let s ← s.editM (shellInsert a.memory line)
      .ok { s with history := some { history with current := current } })
      Stop.assertion (s.Edited P l) := by
  obtain ⟨e, done, emptied⟩ := h.shellDeleteString_spec (Nat.zero_le _) le_rfl
  rw [Nat.cast_zero, ← h.lineEnd] at done
  rw [editM_ok done]
  refine (editM_ensures (s := { s with toEditor := e })
    (emptied.holds.shellInsert_spec a.memory line)).bind ?_
  rintro _ ⟨e', filled, rfl⟩
  refine .ok ⟨(emptied.trans filled).edited
    (.trans (.delete l (Nat.zero_le _) le_rfl (Nat.zero_le _)) (.insert _ hline)), ?_⟩
  refine ⟨rfl, rfl, rfl, rfl, rfl, ?_, rfl, .inl rfl⟩
  rintro _ ⟨⟩
  exact ⟨history, browsed, rfl, rfl, stays⟩

include stored

theorem historyPrev_edited (a : Answers) :
    Ensures (commandHistoryPrev a s) .assertion (s.Edited P l) := by
  have unedited : s.Edited P l s := ⟨h.unedited, .refl s⟩
  unfold commandHistoryPrev
  cases browsed : s.history with
  | none => exact .ok unedited
  | some history =>
      dsimp only
      split
      · exact .ok unedited
      · cases recalled : history.array (historyPrev history.current) with
        | none => exact .ok unedited
        | some line =>
            refine recall_edited h a browsed (stored.history _ browsed _ _ recalled) ?_
            intro empty behind
            rw [behind, historyPrev_historyNext, empty] at recalled
            cases recalled

theorem historyNext_edited (a : Answers) :
    Ensures (commandHistoryNext a s) .assertion (s.Edited P l) := by
  have unedited : s.Edited P l s := ⟨h.unedited, .refl s⟩
  unfold commandHistoryNext
  cases browsed : s.history with
  | none => exact .ok unedited
  | some history =>
      dsimp only
      split
      · exact .ok unedited
      · next further =>
          cases recalled : history.array (historyNext history.current) with
          | none => exact .ok unedited
          | some line =>
              exact recall_edited h a browsed (stored.history _ browsed _ _ recalled)
                fun _ behind => absurd behind further

end

end Shell

/-- The functions that edit the line and do nothing else with the terminal. -/
def Keyfunc.edits : Keyfunc → Bool
  | .forwardChar | .backwardChar | .moveToBegin | .moveToEnd | .deleteChar | .backspace
  | .killLine | .killAll | .yank | .insertTab | .escape | .deleteWordBackward
  | .deleteCharAdvanced | .inputChar | .historyPrev | .historyNext | .vtyNormal
  | .vtyMoveWordBackward | .vtyMoveWordForward | .vtyDeleteWordBackward | .vtyEscape1
  | .vtyEscape2 => true
  | _ => false

/-- A function that edits makes edits of the line, and its assertions hold. -/
theorem Keyfunc.run_edited {P : Byte → Prop} {s : Shell} {l : Line} (f : Keyfunc)
    (edits : f.edits = true) (h : s.toEditor.Holds l) (stored : s.Stored P) (a : Answers)
    (input : f = .inputChar → P s.inputch) (tab : ∀ b ∈ tabString.octets, P b) :
    Ensures (f.run a s) .assertion (s.Edited P l) := by
  have bound := l.length_text
  have unedited : s.Edited P l s := ⟨h.unedited, .refl s⟩
  cases f with
  | forwardChar => exact .ok (Shell.edit_edited (h.forward 1))
  | backwardChar => exact .ok (Shell.edit_edited (h.backward 1))
  | moveToBegin =>
      refine .ok (Shell.edit_edited ?_)
      rw [h.cursor]
      exact h.backward _
  | moveToEnd =>
      refine .ok (Shell.edit_edited ?_)
      have behind : s.lineEnd - s.cursor = (l.after.length : Nat) := by
        rw [h.lineEnd, h.cursor]
        omega
      rw [behind]
      exact h.forward _
  | deleteChar =>
      rw [run, shellKeyfuncDeleteChar]
      split
      case isTrue before => exact Shell.editM_edited (h.deleteAtCursor before)
      case isFalse => exact .ok unedited
  | backspace =>
      rw [run, shellKeyfuncBackspace]
      split
      · exact .ok unedited
      · split
        · exact Shell.editM_edited (h.deleteWordBackward a.memory)
        · exact Shell.edit_editM_edited (h.backspace ‹_›)
  | killLine =>
      refine Shell.editM_edited ?_
      rw [h.cursor, h.lineEnd]
      exact h.cut a.memory (by omega) le_rfl le_rfl
  | killAll => exact Shell.edit_editM_edited (h.killAll a.memory)
  | yank =>
      rw [run, shellKeyfuncYank]
      cases cut : s.cutBuffer with
      | none => exact .ok unedited
      | some c => exact Shell.editM_edited (h.insert a.memory (stored.cut c cut))
  | insertTab => exact Shell.editM_edited (h.insert a.memory tab)
  | escape => exact .ok (unedited.congr rfl ⟨rfl, rfl, rfl, rfl, rfl, .refl _, rfl, .inl rfl⟩)
  | deleteWordBackward => exact Shell.editM_edited (h.deleteWordBackward a.memory)
  | deleteCharAdvanced =>
      rw [run, shellKeyfuncDeleteCharAdvanced]
      split
      case isTrue before => exact Shell.editM_edited (h.deleteAtCursor before)
      case isFalse =>
        split
        · exact Shell.editM_edited (h.deleteLast ‹_› ‹_›)
        · exact .ok unedited
  | inputChar =>
      refine Shell.editM_edited (h.insert a.memory ?_)
      intro b hb
      rw [CString.octets_ofOctets] at hb
      have typed := (List.takeWhile_sublist _).subset hb
      rw [List.mem_singleton.mp typed]
      exact input rfl
  | historyPrev => exact Shell.historyPrev_edited h stored a
  | historyNext => exact Shell.historyNext_edited h stored a
  | vtyNormal | vtyEscape1 | vtyEscape2 =>
      exact .ok (unedited.congr rfl ⟨rfl, rfl, rfl, rfl, rfl, .refl _, rfl, .inr rfl⟩)
  | vtyMoveWordBackward => exact Shell.normal_edited (Shell.editM_edited h.moveWordBackward)
  | vtyMoveWordForward => exact Shell.normal_edited (Shell.editM_edited h.moveWordForward)
  | vtyDeleteWordBackward =>
      exact Shell.normal_edited (Shell.editM_edited (h.deleteWordBackward a.memory))
  | clearScreen | refresh | emptyEnter | execute | completion | lsCandidate | clearTerminal
  | iacStart | telnetOpt | telnetCmd | subnego | sbStart | sbEnd => cases edits

end Sdplane
