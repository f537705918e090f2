import Sdplane.Misc.Agree
import Sdplane.Misc.Ring
import Sdplane.Zcmdsh.Refinement

/-!
# The history

The array of `struct command_history` is a ring whose hole is the slot in front of `last`. The
lines added last are behind it, `current` is a slot among these or the hole, and recalling a
line makes it the command line.
-/

namespace Sdplane

/-! ## Recalling a line -/

/-- The line ends in its buffer, whatever it is and whether there is a terminal. -/
structure Editor.Usable (e : Editor) : Prop where
  lineEnd_nonneg : 0 ≤ e.lineEnd
  room : e.lineEnd < e.size
  small : e.size < 2 ^ 31

/-- The whole line is deleted. -/
theorem Editor.Usable.deleteAll {e : Editor} (h : e.Usable) :
    ∃ e', shellDeleteString 0 e.lineEnd e = .ok e' ∧ { e' with writefd := 0 }.Holds ⟨[], []⟩ ∧
      e'.size = e.size := by
  have lineEnd_nonneg := h.lineEnd_nonneg
  have room := h.room
  have inside : ¬¬((0 : Int) ≤ 0 ∧ 0 ≤ e.lineEnd ∧ e.lineEnd ≤ e.lineEnd) := by omega
  rw [shellDeleteString, if_neg inside]
  dsimp only
  generalize emptied : redrawFrom 0 _ = e₁
  have lineEnd : e₁.lineEnd = e.lineEnd := by
    rw [← emptied]
    rfl
  have size : e₁.size = e.size := by
    rw [← emptied]
    rfl
  have cursor : e₁.cursor = 0 := by
    rw [← emptied]
    rfl
  have empty : e₁.lineEnd - (e.lineEnd - 0) = 0 := by omega
  rw [empty]
  refine ⟨_, rfl, ?_, size⟩
  have some_room : ((([] : List Byte).length : Nat) : Int) < e₁.size := by
    rw [size]
    exact lt_of_le_of_lt lineEnd_nonneg room
  exact Editor.holds_shellTerminate (e := { e₁ with writefd := 0, lineEnd := 0 }) (t := []) (i := 0)
    le_rfl cursor (Nat.zero_le _) rfl some_room (size ▸ h.small) rfl List.not_mem_nil

/-- The same editor on another terminal. -/
def Editor.Elsewhere (e e' : Editor) : Prop := ∃ writefd, e' = { e with writefd := writefd }

/-- They hold the same text, wherever their cursors are. -/
structure Editor.SameText (e e' : Editor) : Prop where
  commandLine : e'.commandLine = e.commandLine
  lineEnd : e'.lineEnd = e.lineEnd
  size : e'.size = e.size

namespace Editor.Elsewhere

variable {e e' : Editor} {m : Memory}

theorem expand (h : e.Elsewhere e') :
    Agree Elsewhere (shellExpand m e) (shellExpand m e') := by
  obtain ⟨writefd, rfl⟩ := h
  unfold shellExpand
  dsimp only
  split
  · split
    · exact .ok ⟨writefd, rfl⟩
    · exact .error _
  · exact .error _

theorem expandLoop (h : e.Elsewhere e') (need : Int) (fuel : Nat) :
    Agree Elsewhere (expandLoop m need fuel e) (expandLoop m need fuel e') := by
  induction fuel generalizing e e' with
  | zero => exact .error _
  | succ fuel ih =>
      have expanded := h.expand (m := m)
      obtain ⟨writefd, rfl⟩ := h
      unfold Sdplane.expandLoop
      dsimp only
      split
      · exact .ok ⟨writefd, rfl⟩
      · exact expanded.bind fun _ _ h => ih h

/-- Where inserted text goes does not depend on the terminal. -/
theorem insert (h : e.Elsewhere e') (s : CString) :
    Agree SameText (shellInsert m s e) (shellInsert m s e') := by
  have expanded := h.expandLoop (m := m) (e.lineEnd + s.length + 1) 32
  obtain ⟨writefd, rfl⟩ := h
  refine expanded.bind ?_
  rintro e _ ⟨writefd, rfl⟩
  dsimp only
  split <;> split <;> exact .ok ⟨rfl, rfl, rfl⟩

end Editor.Elsewhere

/-- A recalled line becomes the command line, unless there is no memory for it. -/
theorem Editor.Usable.recall {e : Editor} (h : e.Usable) (mem : Memory) (line : CString) :
    ∃ e₁, shellDeleteString 0 e.lineEnd e = .ok e₁ ∧
      ((∃ e₂, shellInsert mem line e₁ = .ok e₂ ∧ e₂.Usable ∧ (e₂.stringAt 0).octets = line.octets) ∨
        (shellInsert mem line e₁ = .error .noMemory ∧
          ¬mem.Grows e.size (line.octets.length + 1))) := by
  obtain ⟨e₁, deleted, holds, size⟩ := h.deleteAll
  refine ⟨e₁, deleted, ?_⟩
  have views : { e₁ with writefd := 0 }.Views ⟨⟨[], []⟩, e₁.cutBuffer.map CString.octets⟩ :=
    ⟨holds, rfl⟩
  obtain ⟨returns, stops⟩ := views.insert mem line
  have need : ((⟨[], []⟩ : Line).text.length + line.octets.length + 1 : Int) =
      line.octets.length + 1 := by
    simp [Line.text]
  rw [need] at returns stops
  have same : e₁.Elsewhere { e₁ with writefd := 0 } := ⟨0, rfl⟩
  have agree := same.insert (m := mem) line
  by_cases grows : mem.Grows e.size (line.octets.length + 1)
  · left
    obtain ⟨e', inserted, filled⟩ := returns (size ▸ grows)
    rw [inserted] at agree
    generalize shellInsert mem line e₁ = r at agree ⊢
    cases agree with
    | @ok e₂ _ text =>
        have holds := filled.holds
        have room := holds.room
        have shown := holds.stringAt (i := 0) (Nat.zero_le _)
        refine ⟨e₂, rfl, ⟨?_, ?_, ?_⟩, ?_⟩
        · rw [← text.lineEnd, holds.lineEnd]
          exact Int.natCast_nonneg _
        · rw [← text.lineEnd, ← text.size, holds.lineEnd]
          exact room
        · rw [← text.size]
          exact holds.small
        · rw [Editor.stringAt, text.commandLine, text.size] at shown
          rw [Editor.stringAt]
          simpa [LineView.insert] using shown
  · right
    refine ⟨?_, grows⟩
    rw [stops (size ▸ grows)] at agree
    generalize shellInsert mem line e₁ = r at agree ⊢
    cases agree
    rfl

/-! ## The ring -/

/-- The history holds the lines added last, as far as they were copied, and is browsed `d` lines
    behind the hole. -/
structure CommandHistory.Records (h : CommandHistory) (lines : List (Option CString)) (d : Nat) :
    Prop where
  nonempty : 0 < lines.length
  last_lt : h.last < historySize
  ring : Ring.Holds historySize h.array (historyNext h.last) lines
  current : h.current = Ring.back historySize (historyNext h.last) d
  inside : d ≤ min lines.length (historySize - 1)
  copied : ∀ k < d, lines.reverse[k]?.join.isSome = true

/-- What `show_history` prints: the lines with their slots. -/
def showHistory (h : CommandHistory) : Option (List (Nat × CString)) :=
  Ring.collect historySize h.array (historyNext h.last) historySize (historyNext (historyNext h.last))

theorem last_eq_back (last : Nat) :
    last = Ring.back historySize (historyNext last) 1 := by
  have back := Ring.back_next (i := last) (d := 0) (show 0 < historySize by decide)
  rw [Ring.back_zero] at back
  exact back.symm

/-- What is recorded of a line. -/
def Memory.recorded (m : Memory) (line : CString) : Option CString :=
  if m.record then some line else none

/-- The line goes into the hole. -/
theorem commandHistoryAdd_hole (m : Memory) {history : CommandHistory} {hole : Nat}
    {lines : List (Option CString)} (line : CString)
    (ring : Ring.Holds historySize history.array hole lines)
    (here : (if (history.array history.last).isSome then historyNext history.last
      else history.current) = hole) :
    ∃ h, commandHistoryAdd m line (some history) = .ok h ∧
      h.Records (lines ++ [m.recorded line]) 0 := by
  have pushed := ring.push (m.recorded line)
  have current : (if (history.array history.last).isSome = true then
      { history with current := historyNext history.last } else history).current = hole := by
    rw [← here]
    split <;> rfl
  have array : (if (history.array history.last).isSome = true then
      { history with current := historyNext history.last } else history).array = history.array := by
    split <;> rfl
  have empty : ¬(history.array hole).isSome = true := by
    rw [ring.empty]
    exact Bool.false_ne_true
  have given : ¬((some history).isNone = true ∧ ¬m.history = true) := by simp
  rw [commandHistoryAdd, if_neg given, Option.getD_some]
  dsimp only
  rw [current, array, if_neg empty]
  refine ⟨_, rfl, by simp, ring.hole_lt, pushed, ?_, Nat.zero_le _, by simp⟩
  exact (Ring.back_zero _ _).symm

/-- The first line, where there is memory for a history. -/
theorem commandHistoryAdd_first {m : Memory} (line : CString) (given : m.history = true) :
    ∃ h, commandHistoryAdd m line none = .ok h ∧ h.Records [m.recorded line] 0 := by
  have ring : Ring.Holds historySize (fun _ => (none : Option CString)) 0 [] :=
    .nil (by decide) fun _ => rfl
  have fresh : ∃ h, commandHistoryAdd m line (some ⟨fun _ => none, 0, 0⟩) = .ok h ∧
      h.Records ([] ++ [m.recorded line]) 0 := commandHistoryAdd_hole m line ring rfl
  obtain ⟨h, added, records⟩ := fresh
  refine ⟨h, ?_, records⟩
  rw [← added, commandHistoryAdd, commandHistoryAdd, given]
  rfl

namespace CommandHistory.Records

variable {h : CommandHistory} {lines : List (Option CString)} {d : Nat} (records : h.Records lines d)

include records

/-- Where the last line was not copied, nothing is recalled. -/
theorem behind_hole (empty : h.array h.last = none) : h.current = historyNext h.last := by
  have newest := records.ring.slot 0 (show 0 + 1 < historySize by decide)
  rw [Nat.zero_add, ← last_eq_back, empty] at newest
  have still : d = 0 := by
    by_contra browsed
    have copied := records.copied 0 (Nat.pos_of_ne_zero browsed)
    rw [← newest] at copied
    cases copied
  rw [records.current, still, Ring.back_zero]

theorem add (m : Memory) (line : CString) :
    ∃ h', commandHistoryAdd m line (some h) = .ok h' ∧
      h'.Records (lines ++ [m.recorded line]) 0 := by
  apply commandHistoryAdd_hole m line records.ring
  split
  · rfl
  · next empty => exact records.behind_hole (by simpa using empty)

/-- What `show_history` prints. -/
theorem show_spec : ∃ entries, showHistory h = some entries ∧
    entries.map Prod.snd = (lines.drop (lines.length - (historySize - 1))).reduceOption :=
  records.ring.collect_all historySize le_rfl

/-- Browsing does not change what is recorded. -/
theorem browse {k : Nat} (inside : k ≤ min lines.length (historySize - 1))
    (copied : ∀ i < k, lines.reverse[i]?.join.isSome = true) :
    CommandHistory.Records { h with current := Ring.back historySize (historyNext h.last) k }
      lines k :=
  { records with current := rfl, inside := inside, copied := copied }

end CommandHistory.Records

/-! ## Adding and recalling -/

/-- A line is added, with memory for the history and for a copy of the line, or the line before or
    behind the one being browsed is recalled. -/
inductive HistoryOp where
  | add (line : CString)
  | prev (a : Answers)
  | next (a : Answers)

namespace HistoryOp

def run (s : Shell) : HistoryOp → Except Stop Shell
  | .add line => do
      let history ← commandHistoryAdd .granted line s.history
      .ok { s with history := some history }
  | .prev a => commandHistoryPrev a s
  | .next a => commandHistoryNext a s

/-- The line that is added. -/
def added : HistoryOp → List CString
  | .add line => [line]
  | _ => []

/-- Memory is given for blocks whose size is an `int`, and a line fits into one. -/
def Given : HistoryOp → Prop
  | .add line => line.length < 2 ^ 30
  | .prev a | .next a => ∀ size : Int, size < 2 ^ 31 → (a.memory.expand size).isSome = true

end HistoryOp

def runHistory (ops : List HistoryOp) (s : Shell) : Except Stop Shell :=
  ops.foldlM HistoryOp.run s

/-- The lines added by a sequence of operations. -/
def addedLines (ops : List HistoryOp) : List CString := ops.flatMap HistoryOp.added

/-- The history of the shell holds these lines, and is browsed `d` lines behind the hole. -/
structure Shell.Records (s : Shell) (lines : List CString) (d : Nat) : Prop where
  usable : s.toEditor.Usable
  history : match s.history with
    | none => lines = [] ∧ d = 0
    | some h => h.Records (lines.map some) d

/-- The line `d` steps behind the hole is the command line. -/
def Shell.Recalled (s : Shell) (lines : List CString) (d : Nat) : Prop :=
  ∃ line, lines.reverse[d - 1]? = some line ∧ (s.stringAt 0).octets = line.octets

theorem copies_join (lines : List CString) (k : Nat) :
    ((lines.map some).reverse[k]?).join = lines.reverse[k]? := by
  rw [← List.map_reverse, List.getElem?_map]
  cases lines.reverse[k]? <;> rfl

namespace Shell.Records

variable {s : Shell} {lines : List CString} {d : Nat}

theorem of_some {h : CommandHistory} (usable : s.toEditor.Usable) (browsed : s.history = some h)
    (records : h.Records (lines.map some) d) : s.Records lines d := by
  refine ⟨usable, ?_⟩
  rw [browsed]
  exact records

variable (records : s.Records lines d)

include records

theorem of_history {h : CommandHistory} (browsed : s.history = some h) :
    h.Records (lines.map some) d := by
  have history := records.history
  rwa [browsed] at history

theorem of_none (none : s.history = none) : lines = [] ∧ d = 0 := by
  have history := records.history
  rwa [none] at history

theorem inside_of_some {h : CommandHistory} (browsed : s.history = some h) :
    d ≤ min lines.length (historySize - 1) := by
  have inside := (records.of_history browsed).inside
  rwa [List.length_map] at inside

/-- What the slot `k + 1` steps behind the hole holds. -/
theorem slot_eq {h : CommandHistory} (browsed : s.history = some h) {k : Nat}
    (inside : k + 1 < historySize) :
    h.array (Ring.back historySize (historyNext h.last) (k + 1)) = lines.reverse[k]? := by
  rw [(records.of_history browsed).ring.slot k inside, copies_join]

theorem add (line : CString) :
    ∃ s', (HistoryOp.add line).run s = .ok s' ∧ s'.Records (lines ++ [line]) 0 := by
  have recorded : ∃ h, commandHistoryAdd .granted line s.history = .ok h ∧
      h.Records ((lines ++ [line]).map some) 0 := by
    rw [List.map_append]
    cases browsed : s.history with
    | none =>
        obtain ⟨rfl, -⟩ := records.of_none browsed
        exact commandHistoryAdd_first line rfl
    | some h => exact (records.of_history browsed).add .granted line
  obtain ⟨h, added, recorded⟩ := recorded
  refine ⟨{ s with history := some h }, ?_, .of_some records.usable rfl recorded⟩
  rw [HistoryOp.run, added]
  rfl

/-- The line `k + 1` steps behind the hole is recalled. -/
theorem recalls {h : CommandHistory} (browsed : s.history = some h) (mem : Memory) {k : Nat}
    (inside : k < min lines.length (historySize - 1)) :
    ∃ line ∈ lines, h.array (Ring.back historySize (historyNext h.last) (k + 1)) = some line ∧
      let current := Ring.back historySize (historyNext h.last) (k + 1)
      let r := do
        let s ← s.editM (shellDeleteString 0 s.lineEnd)
        let s ← s.editM (shellInsert mem line)
        Except.ok { s with history := some { h with current := current } }
      (∃ s', r = .ok s' ∧ s'.Records lines (k + 1) ∧ s'.Recalled lines (k + 1)) ∨
        (r = .error .noMemory ∧ ¬mem.Grows s.size (line.octets.length + 1)) := by
  have recorded := records.of_history browsed
  have some_line : ∀ i, i < k + 1 → ∃ line, lines.reverse[i]? = some line := by
    intro i below
    have held : i < lines.reverse.length := by
      rw [List.length_reverse]
      omega
    exact ⟨_, List.getElem?_eq_getElem held⟩
  obtain ⟨line, here⟩ := some_line k (Nat.lt_succ_self k)
  have stored := (records.slot_eq browsed (k := k) (by omega)).trans here
  have mem_lines : line ∈ lines := List.mem_reverse.mp (List.mem_of_getElem? here)
  have browse := recorded.browse (k := k + 1) (by rw [List.length_map]; omega) fun i below => by
    obtain ⟨line, there⟩ := some_line i below
    rw [copies_join, there]
    rfl
  obtain ⟨e₁, deleted, outcome⟩ := records.usable.recall mem line
  refine ⟨line, mem_lines, stored, ?_⟩
  dsimp only
  rw [Shell.editM_ok deleted]
  rcases outcome with ⟨e₂, inserted, usable, shown⟩ | ⟨refused, short⟩
  · left
    refine ⟨{ s with
      toEditor := e₂
      history := some { h with current := Ring.back historySize (historyNext h.last) (k + 1) } },
      ?_, .of_some usable rfl browse, line, here, shown⟩
    change (Shell.editM _ { s with toEditor := e₁ } >>= _) = _
    rw [Shell.editM_ok (s := { s with toEditor := e₁ }) inserted]
    rfl
  · right
    refine ⟨?_, short⟩
    change (Shell.editM _ { s with toEditor := e₁ } >>= _) = _
    rw [Shell.editM]
    dsimp only
    rw [refused]
    rfl

/-- `command_history_prev` goes one line back, if there is one. -/
theorem prev (a : Answers) :
    let k := min (d + 1) (min lines.length (historySize - 1))
    (∃ s', commandHistoryPrev a s = .ok s' ∧ s'.Records lines k ∧
      ((0 < d → s.Recalled lines d) → 0 < k → s'.Recalled lines k)) ∨
    (commandHistoryPrev a s = .error .noMemory ∧
      ∃ line ∈ lines, ¬a.memory.Grows s.size (line.octets.length + 1)) := by
  dsimp only
  have stays : d = min (d + 1) (min lines.length (historySize - 1)) →
      ∃ s', Except.ok s = Except.ok (ε := Stop) s' ∧
        s'.Records lines (min (d + 1) (min lines.length (historySize - 1))) ∧
          ((0 < d → s.Recalled lines d) → 0 < min (d + 1) (min lines.length (historySize - 1)) →
            s'.Recalled lines (min (d + 1) (min lines.length (historySize - 1)))) := by
    intro same
    rw [← same]
    exact ⟨s, rfl, records, fun recalled => recalled⟩
  unfold commandHistoryPrev
  cases browsed : s.history with
  | none =>
      obtain ⟨rfl, rfl⟩ := records.of_none browsed
      exact .inl (stays rfl)
  | some h =>
      have recorded := records.of_history browsed
      have inside := records.inside_of_some browsed
      have hole_lt := recorded.ring.hole_lt
      have start : historyNext (historyNext h.last) =
          Ring.back historySize (historyNext h.last) (historySize - 1) := Ring.next_eq_back hole_lt
      have wrapping : h.current = historyNext (historyNext h.last) ↔ d = historySize - 1 := by
        rw [start, recorded.current]
        exact Ring.back_inj (by omega) (by decide)
      dsimp only
      by_cases wrapped : d = historySize - 1
      · rw [if_pos (wrapping.mpr wrapped)]
        exact .inl (stays (by omega))
      · have back : historyPrev h.current = Ring.back historySize (historyNext h.last) (d + 1) := by
          rw [recorded.current]
          exact Ring.prev_back hole_lt (by omega)
        rw [if_neg (mt wrapping.mp wrapped), back]
        by_cases more : d < min lines.length (historySize - 1)
        · have further : min (d + 1) (min lines.length (historySize - 1)) = d + 1 := by omega
          obtain ⟨line, mem, stored, outcome⟩ := records.recalls browsed a.memory more
          rw [stored, further]
          rcases outcome with ⟨s', returned, recorded', shown⟩ | ⟨refused, short⟩
          · exact .inl ⟨s', returned, recorded', fun _ _ => shown⟩
          · exact .inr ⟨refused, line, mem, short⟩
        · -- the slot behind the oldest line was never used
          have oldest : lines.reverse[d]? = none := by
            rw [List.getElem?_eq_none_iff, List.length_reverse]
            omega
          rw [records.slot_eq browsed (by omega), oldest]
          exact .inl (stays (by omega))

/-- `command_history_next` goes one line forward, if there is one that was recalled. -/
theorem next (a : Answers) :
    (∃ s' k, commandHistoryNext a s = .ok s' ∧ s'.Records lines k) ∨
    (commandHistoryNext a s = .error .noMemory ∧
      ∃ line ∈ lines, ¬a.memory.Grows s.size (line.octets.length + 1)) := by
  unfold commandHistoryNext
  cases browsed : s.history with
  | none => exact .inl ⟨s, d, rfl, records⟩
  | some h =>
      have recorded := records.of_history browsed
      have inside := records.inside_of_some browsed
      have hole_lt := recorded.ring.hole_lt
      dsimp only
      cases d with
      | zero =>
          have floor : h.current = historyNext h.last := by
            rw [recorded.current, Ring.back_zero]
          rw [if_pos floor]
          exact .inl ⟨s, 0, rfl, records⟩
      | succ d =>
          have floor : h.current ≠ historyNext h.last := by
            have apart : Ring.back historySize (historyNext h.last) (d + 1) =
                Ring.back historySize (historyNext h.last) 0 ↔ d + 1 = 0 :=
              Ring.back_inj (by omega) (by decide)
            rw [recorded.current]
            rw [Ring.back_zero] at apart
            simp [apart]
          have forward : historyNext h.current = Ring.back historySize (historyNext h.last) d := by
            rw [recorded.current]
            exact Ring.next_back hole_lt (by omega)
          rw [if_neg floor, forward]
          cases d with
          | zero =>
              rw [Ring.back_zero, recorded.ring.empty]
              exact .inl ⟨s, 0 + 1, rfl, records⟩
          | succ d =>
              obtain ⟨line, mem, stored, outcome⟩ :=
                records.recalls browsed a.memory (show d < _ by omega)
              rw [stored]
              rcases outcome with ⟨s', returned, recorded', -⟩ | ⟨refused, short⟩
              · exact .inl ⟨s', d + 1, returned, recorded'⟩
              · exact .inr ⟨refused, line, mem, short⟩

end Shell.Records

/-- The lines are short enough for a block whose size is an `int`. -/
def ShortLines (lines : List CString) : Prop := ∀ line ∈ lines, line.length < 2 ^ 30

/-- Where memory is given, a short line fits. -/
theorem Memory.grows_of_given {mem : Memory} {size : Int} {line : CString}
    (given : ∀ size : Int, size < 2 ^ 31 → (mem.expand size).isSome = true)
    (short : line.length < 2 ^ 30) : mem.Grows size (line.octets.length + 1) := by
  intro k small
  have bound : size * 2 ^ (k + 1) < 2 ^ 31 := by
    rw [pow_succ, ← mul_assoc]
    rw [CString.length] at short
    omega
  exact ⟨bound, given _ bound⟩

/-- One operation keeps what is recorded; it can only end the program for want of memory. -/
theorem Shell.Records.run {s : Shell} {lines : List CString} {d : Nat}
    (records : s.Records lines d) (op : HistoryOp) :
    (∃ s' d', op.run s = .ok s' ∧ s'.Records (lines ++ op.added) d') ∨
      (op.run s = .error .noMemory ∧ ¬(op.Given ∧ ShortLines lines)) := by
  cases op with
  | add line =>
      obtain ⟨s', added, records'⟩ := records.add line
      exact .inl ⟨s', 0, added, records'⟩
  | prev a =>
      rcases records.prev a with ⟨s', returned, records', -⟩ | ⟨refused, line, mem, short⟩
      · exact .inl ⟨s', _, returned, by simpa [HistoryOp.added] using records'⟩
      · exact .inr ⟨refused, fun given => short (Memory.grows_of_given given.1 (given.2 line mem))⟩
  | next a =>
      rcases records.next a with ⟨s', k, returned, records'⟩ | ⟨refused, line, mem, short⟩
      · exact .inl ⟨s', k, returned, by simpa [HistoryOp.added] using records'⟩
      · exact .inr ⟨refused, fun given => short (Memory.grows_of_given given.1 (given.2 line mem))⟩

/-- So does a sequence of operations. -/
theorem runHistory_records {s : Shell} {lines : List CString} {d : Nat}
    (records : s.Records lines d) (ops : List HistoryOp) :
    (∃ s' d', runHistory ops s = .ok s' ∧ s'.Records (lines ++ addedLines ops) d') ∨
      (runHistory ops s = .error .noMemory ∧ ¬((∀ op ∈ ops, op.Given) ∧ ShortLines lines)) := by
  induction ops generalizing s lines d with
  | nil => exact .inl ⟨s, d, rfl, by simpa [addedLines] using records⟩
  | cons op ops ih =>
      rw [runHistory, List.foldlM_cons]
      rcases records.run op with ⟨s', d', returned, records'⟩ | ⟨refused, missing⟩
      · rw [returned]
        have short_added : op.Given → ShortLines lines → ShortLines (lines ++ op.added) := by
          intro given short line mem
          rcases List.mem_append.mp mem with old | new
          · exact short line old
          · cases op with
            | add added =>
                rw [List.mem_singleton.mp new]
                exact given
            | prev | next => cases new
        rcases ih records' with ⟨s'', d'', rest, records''⟩ | ⟨refused, missing⟩
        · refine .inl ⟨s'', d'', rest, ?_⟩
          rw [addedLines, List.flatMap_cons, ← List.append_assoc]
          exact records''
        · refine .inr ⟨refused, ?_⟩
          intro ⟨given, short⟩
          rw [List.forall_mem_cons] at given
          exact missing ⟨given.2, short_added given.1 short⟩
      · rw [refused]
        refine .inr ⟨rfl, ?_⟩
        intro ⟨given, short⟩
        rw [List.forall_mem_cons] at given
        exact missing ⟨given.1, short⟩

/-- `command_history_prev` again and again. -/
theorem runHistory_prevs {s s' : Shell} {lines : List CString} {d : Nat}
    (records : s.Records lines d) (recalled : 0 < d → s.Recalled lines d) (as : List Answers)
    (run : runHistory (as.map .prev) s = .ok s') :
    let k := min (d + as.length) (min lines.length (historySize - 1))
    s'.Records lines k ∧ (0 < k → s'.Recalled lines k) := by
  induction as generalizing s d with
  | nil =>
      cases run
      have inside : d ≤ min lines.length (historySize - 1) := by
        cases browsed : s'.history with
        | none =>
            obtain ⟨-, rfl⟩ := records.of_none browsed
            exact Nat.zero_le _
        | some h => exact records.inside_of_some browsed
      rw [List.length_nil, Nat.add_zero, Nat.min_eq_left inside]
      exact ⟨records, recalled⟩
  | cons a as ih =>
      rw [List.map_cons, runHistory, List.foldlM_cons, HistoryOp.run] at run
      rcases records.prev a with ⟨s₁, returned, records₁, recalled₁⟩ | ⟨refused, -⟩
      · rw [returned] at run
        have rest := ih records₁ (recalled₁ recalled) run
        have same : min (min (d + 1) (min lines.length (historySize - 1)) + as.length)
            (min lines.length (historySize - 1)) =
              min (d + (a :: as).length) (min lines.length (historySize - 1)) := by
          rw [List.length_cons]
          omega
        rwa [same] at rest
      · rw [refused] at run
        cases run

theorem freshShell_records (binds : List (Byte × Keyfunc)) (writefd : Int) :
    (freshShell binds writefd).Records [] 0 := by
  have usable : shellCreate.toEditor.Usable := ⟨by decide, by decide, by decide⟩
  obtain ⟨keymap, fresh⟩ := freshShell_eq binds writefd
  rw [fresh]
  exact ⟨⟨usable.lineEnd_nonneg, usable.room, usable.small⟩, rfl, rfl⟩

/-- From a fresh shell, every sequence of additions and recalls returns, unless memory is short:
    no assertion fails. The slot in front of the last line is free, `show_history` prints the
    last 127 lines that were added, in order, and going back `k` times after an addition makes
    the `k`-th last line the command line, or the oldest one. -/
theorem history_ring (binds : List (Byte × Keyfunc)) (writefd : Int) (ops : List HistoryOp) :
    ((∃ s, runHistory ops (freshShell binds writefd) = .ok s) ∨
      (runHistory ops (freshShell binds writefd) = .error .noMemory ∧ ¬∀ op ∈ ops, op.Given)) ∧
    (∀ s, runHistory ops (freshShell binds writefd) = .ok s →
      (s.history = none ↔ addedLines ops = []) ∧
      ∀ h, s.history = some h → h.array (historyNext h.last) = none ∧
        ∃ entries, showHistory h = some entries ∧
          entries.map Prod.snd = (addedLines ops).drop ((addedLines ops).length - 127)) ∧
    ∀ (line : CString) (as : List Answers) (s : Shell), as ≠ [] →
      runHistory (ops ++ .add line :: as.map .prev) (freshShell binds writefd) = .ok s →
      ∃ recalled,
        (addedLines ops ++ [line]).reverse[min as.length (min ((addedLines ops).length + 1) 127) - 1]? =
          some recalled ∧ (s.stringAt 0).octets = recalled.octets := by
  have fresh := freshShell_records binds writefd
  have outcome := runHistory_records fresh ops
  rw [List.nil_append] at outcome
  refine ⟨?_, ?_, ?_⟩
  · rcases outcome with ⟨s, -, run, -⟩ | ⟨refused, missing⟩
    · exact .inl ⟨s, run⟩
    · refine .inr ⟨refused, fun given => missing ⟨given, ?_⟩⟩
      intro line mem
      cases mem
  · intro s run
    rcases outcome with ⟨s', d, run', records⟩ | ⟨refused, -⟩
    · rw [run] at run'
      cases run'
      constructor
      · constructor
        · intro none
          exact (records.of_none none).1
        · intro nothing
          cases browsed : s.history with
          | none => rfl
          | some h =>
              have nonempty := (records.of_history browsed).nonempty
              rw [nothing] at nonempty
              exact absurd nonempty (by decide)
      · intro h browsed
        have recorded := records.of_history browsed
        obtain ⟨entries, shown, values⟩ := recorded.show_spec
        rw [List.length_map, ← List.map_drop, List.reduceOption, List.filterMap_map,
          Function.id_comp, List.filterMap_some] at values
        exact ⟨recorded.ring.empty, entries, shown, values⟩
    · rw [run] at refused
      cases refused
  · intro line as s nonempty run
    rw [runHistory, List.foldlM_append] at run
    rcases outcome with ⟨s₁, d, run₁, records⟩ | ⟨refused, -⟩
    · obtain ⟨s₂, added, records₂⟩ := records.add line
      have split : runHistory (as.map .prev) s₂ = .ok s := by
        rw [runHistory] at run₁
        rw [run₁] at run
        change (HistoryOp.run s₁ _ >>= _) = _ at run
        rw [added] at run
        exact run
      obtain ⟨-, recalled⟩ := runHistory_prevs records₂ (fun none => absurd none (lt_irrefl 0)) as split
      have some_back : 0 < as.length := List.length_pos_of_ne_nil nonempty
      rw [Nat.zero_add, List.length_append, List.length_singleton] at recalled
      exact recalled (lt_min some_back (lt_min (Nat.succ_pos _) (by decide)))
    · rw [runHistory] at refused
      rw [refused] at run
      cases run

end Sdplane
