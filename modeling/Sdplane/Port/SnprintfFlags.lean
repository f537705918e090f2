import Sdplane.Misc.Snprintf

/-!
# Names of flags

`snprintf_flags` (`snprintf_flags.c`) puts the names of the flags that are set into a buffer.
What is left is counted down by the length of each text, below 0 once a text was truncated,
and then no other name is started. Where no flag is set nothing is written, not even a NUL.
-/

namespace Sdplane

/-- `struct flag_name`. -/
structure FlagName where
  name : CString
  val : BitVec 64

/-- What the loop of `snprintf_flags` carries along; `p` is relative to `buf`, whose octets are
    `mem`. -/
structure FlagPrint where
  p : Int
  bufsize : Int
  num : Nat
  mem : ByteMem

/-- A round for a flag that is set, or none where it leaves the buffer. -/
def printName (size : Nat) (delim name : CString) (s : FlagPrint) : Option FlagPrint :=
  if s.bufsize ≤ 0 then some s
  else do
    let text := if s.num = 0 then name.octets else delim.octets ++ name.octets
    let ret := Snprintf.ret text
    let mem ← Snprintf.exec size s.mem ⟨s.p, (BitVec.ofInt 32 s.bufsize).signExtend 64, text⟩
    some ⟨s.p + ret, s.bufsize - ret, s.num + 1, mem⟩

/-- A round of the loop of `snprintf_flags`. -/
def printFlag (size : Nat) (flags : BitVec 64) (delim : CString) (s : FlagPrint)
    (flag : FlagName) : Option FlagPrint :=
  if flags &&& flag.val = 0 then some s else printName size delim flag.name s

/-- `snprintf_flags`: how many names were started, and the buffer; no delimiter is a bar. -/
def snprintfFlags (buf : ByteMem) (size : Nat) (flags : BitVec 64) (flagNames : List FlagName)
    (delim : Option CString) : Option (Nat × ByteMem) := do
  let delim := delim.getD (.ofOctets (litString "|"))
  let s ← flagNames.reverse.foldlM (printFlag size flags delim) ⟨0, size, 0, buf⟩
  some (s.num, s.mem)

/-! ## What is printed -/

/-- The names of the flags that are set, from the last one in the table on. -/
def setNames (flags : BitVec 64) (flagNames : List FlagName) : List CString :=
  (flagNames.reverse.filter fun flag => flags &&& flag.val ≠ 0).map FlagName.name

/-- The text of a name behind `num` others. -/
def nameText (delim : CString) (num : Nat) (name : CString) : List Byte :=
  if num = 0 then name.octets else delim.octets ++ name.octets

def nameTexts (delim : CString) : Nat → List CString → List (List Byte)
  | _, [] => []
  | num, name :: names => nameText delim num name :: nameTexts delim (num + 1) names

/-- The names joined by the delimiter. -/
def joinNames (delim : CString) (names : List CString) : List Byte :=
  delim.octets.intercalate (names.map CString.octets)

variable {size : Nat} {flags : BitVec 64} {flagNames : List FlagName} {delim : CString}
  {names : List CString}

theorem nameTexts_succ (num : Nat) :
    nameTexts delim (num + 1) names = names.map fun name => delim.octets ++ name.octets := by
  induction names generalizing num with
  | nil => rfl
  | cons name names ih => rw [nameTexts, ih, nameText, if_neg (Nat.succ_ne_zero num), List.map_cons]

theorem flatten_nameTexts : (nameTexts delim 0 names).flatten = joinNames delim names := by
  cases names with
  | nil => rfl
  | cons name names =>
      rw [nameTexts, nameTexts_succ, nameText, if_pos rfl, joinNames, List.flatten_cons]
      induction names generalizing name with
      | nil => simp
      | cons next names ih =>
          rw [List.map_cons, List.flatten_cons, List.append_assoc, ih, List.map_cons,
            List.map_cons, List.map_cons, List.intercalate_cons_cons, List.append_assoc]

theorem foldlM_printFlag (flags : BitVec 64) (flagNames : List FlagName) (s : FlagPrint) :
    flagNames.foldlM (printFlag size flags delim) s =
      ((flagNames.filter fun flag => flags &&& flag.val ≠ 0).map FlagName.name).foldlM
        (fun s name => printName size delim name s) s := by
  induction flagNames generalizing s with
  | nil => rfl
  | cons flag flagNames ih =>
      by_cases unset : flags &&& flag.val = 0
      · rw [List.foldlM_cons, printFlag, if_pos unset,
          List.filter_cons_of_neg (by simpa using unset)]
        exact ih s
      · rw [List.foldlM_cons, printFlag, if_neg unset,
          List.filter_cons_of_pos (by simpa using unset), List.map_cons, List.foldlM_cons]
        congr 1
        funext s
        exact ih s

/-- A full buffer is left alone. -/
theorem foldlM_printName_full {s : FlagPrint} (full : s.bufsize ≤ 0) (names : List CString) :
    names.foldlM (fun s name => printName size delim name s) s = some s := by
  induction names with
  | nil => rfl
  | cons name names ih =>
      rw [List.foldlM_cons, printName, if_pos full]
      exact ih

/-- Where there is room, the text of a name is started. -/
theorem printName_started {name : CString} {num p : Nat} (m : ByteMem) (room : p < size)
    (short : (nameText delim num name).length < 2 ^ 31) :
    printName size delim name ⟨p, size - p, num, m⟩ =
      (Snprintf.exec size m
        ⟨p, Snprintf.roomLeft size p, nameText delim num name⟩).map
        fun mem => ⟨(p + (nameText delim num name).length : Nat),
          size - (p + (nameText delim num name).length : Nat), num + 1, mem⟩ := by
  have left : ¬((size : Int) - p ≤ 0) := by omega
  rw [printName, if_neg left]
  dsimp only
  rw [← nameText, Snprintf.ret, if_pos short, Nat.cast_add, ← Int.sub_sub, Option.map_eq_bind]
  rfl

/-- The rounds are the calls for the texts that are started. -/
theorem foldlM_printName (size : Nat) (names : List CString) (num p : Nat) (m : ByteMem)
    (short : ∀ text ∈ nameTexts delim num names, text.length < 2 ^ 31) :
    (names.foldlM (fun s name => printName size delim name s) ⟨p, size - p, num, m⟩).map
        (fun s => (s.num, s.mem)) =
      (Snprintf.run size (Snprintf.calls (Snprintf.roomLeft size) p
          (Snprintf.started size p (nameTexts delim num names))) m).map
        fun m' => (num + (Snprintf.started size p (nameTexts delim num names)).length, m') := by
  induction names generalizing num p m with
  | nil => rfl
  | cons name names ih =>
      rw [nameTexts, List.forall_mem_cons] at short
      obtain ⟨first, rest⟩ := short
      rw [nameTexts, List.foldlM_cons]
      rcases Nat.lt_or_ge p size with room | full
      · rw [printName_started m room first, Snprintf.started, if_pos room, Snprintf.calls,
          Snprintf.run, List.foldlM_cons, Snprintf.ret, if_pos first]
        cases Snprintf.exec size m
            ⟨p, Snprintf.roomLeft size p, nameText delim num name⟩ with
        | none => rfl
        | some mem =>
            have later := ih (num + 1) (p + (nameText delim num name).length) mem rest
            rw [List.length_cons, ← Nat.add_assoc, Nat.add_right_comm]
            exact later
      · have left : (size : Int) - p ≤ 0 := by omega
        rw [printName, if_pos left, Snprintf.started, if_neg (Nat.not_lt.mpr full)]
        exact congrArg _ (foldlM_printName_full left names)

/-- The delimiter that is used; none is a bar. -/
def delimiter (delim : Option CString) : CString := delim.getD (.ofOctets (litString "|"))

/-- What there is to print. -/
def flagTexts (flags : BitVec 64) (flagNames : List FlagName) (delim : Option CString) :
    List (List Byte) := nameTexts (delimiter delim) 0 (setNames flags flagNames)

/-- `snprintf_flags` puts the started texts, one after the other, into the buffer. -/
theorem snprintfFlags_eq (buf : ByteMem) {delim : Option CString}
    (short : ∀ text ∈ flagTexts flags flagNames delim, text.length < 2 ^ 31) :
    snprintfFlags buf size flags flagNames delim =
      (Snprintf.run size
        (Snprintf.calls (Snprintf.roomLeft size) 0
          (Snprintf.started size 0 (flagTexts flags flagNames delim))) buf).map
        fun m' => ((Snprintf.started size 0 (flagTexts flags flagNames delim)).length, m') := by
  have rounds := foldlM_printName size (setNames flags flagNames) 0 0 buf short
  rw [Nat.cast_zero, Int.sub_zero, Nat.zero_add] at rounds
  rw [flagTexts, ← rounds, snprintfFlags, foldlM_printFlag, Option.map_eq_bind]
  rfl

/-- The buffer holds the names of the flags that are set, joined and cut to what there is room
    for; nothing is written behind it, and what is returned is how many names were started. -/
def PrintsFlags (buf : ByteMem) (size : Nat) (flags : BitVec 64) (flagNames : List FlagName)
    (delim : Option CString) : Prop :=
  ∃ buf', snprintfFlags buf size flags flagNames delim =
      some ((Snprintf.started size 0 (flagTexts flags flagNames delim)).length, buf') ∧
    (∀ i, size ≤ i → buf' i = buf i) ∧
    (buf'.cString size 0).octets =
      (joinNames (delimiter delim) (setNames flags flagNames)).take (size - 1)

theorem nameTexts_noNul {num : Nat} : ∀ text ∈ nameTexts delim num names, 0 ∉ text := by
  induction names generalizing num with
  | nil => simp [nameTexts]
  | cons name names ih =>
      rw [nameTexts, List.forall_mem_cons, nameText]
      refine ⟨?_, ih⟩
      split
      · exact name.noNul
      · exact fun nul => (List.mem_append.mp nul).elim delim.noNul name.noNul

theorem setNames_eq_nil : setNames flags flagNames = [] ↔
    ¬∃ flag ∈ flagNames, flags &&& flag.val ≠ 0 := by
  simp [setNames]

/-- An empty buffer begins with a NUL. -/
theorem cString_eq_nil {m : ByteMem} (some_room : 0 < size) :
    (m.cString size 0).octets = [] ↔ m 0 = 0 := by
  obtain ⟨n, rfl⟩ := Nat.exists_eq_succ_of_ne_zero (Nat.ne_of_gt some_room)
  rw [ByteMem.cString, CString.octets_ofOctets, Nat.sub_zero, Nat.succ_eq_one_add,
    ByteMem.read_add]
  simp [ByteMem.read]

/-- Where a flag is set, its name and the others are printed. -/
theorem printsFlags_of_set (buf : ByteMem) (some_room : 0 < size) (small : size < 2 ^ 31)
    {delim : Option CString} (set : setNames flags flagNames ≠ [])
    (short : ∀ text ∈ flagTexts flags flagNames delim, text.length < 2 ^ 31) :
    PrintsFlags buf size flags flagNames delim := by
  have left : ∀ q < size, (Snprintf.roomLeft size q).toNat = size - q :=
    fun q inside => Snprintf.toNat_roomLeft small inside
  have inside := Snprintf.started_inside left short 0
  obtain ⟨buf', done⟩ := Option.isSome_iff_exists.mp
    ((Snprintf.run_isSome_iff _ buf).mpr inside)
  have noNul : 0 ∉ [] ++ (Snprintf.started size 0 (flagTexts flags flagNames delim)).flatten := by
    intro nul
    obtain ⟨text, mem, nul⟩ := List.mem_flatten.mp nul
    exact nameTexts_noNul text (Snprintf.mem_of_mem_started mem) nul
  have some_started : Snprintf.started size 0 (flagTexts flags flagNames delim) ≠ [] := by
    obtain ⟨name, names, set_eq⟩ := List.exists_cons_of_ne_nil set
    rw [flagTexts, set_eq, nameTexts, Snprintf.started, if_pos some_room]
    exact List.cons_ne_nil _ _
  have printed := Snprintf.run_text [] left
    (fun text mem => short text (Snprintf.mem_of_mem_started mem)) noNul some_room rfl
    (fun nothing => absurd nothing some_started) done
  have cut := congrArg (List.take (size - 1))
    (Snprintf.take_flatten_started size 0 (flagTexts flags flagNames delim))
  rw [Nat.sub_zero, List.take_take, List.take_take, Nat.min_eq_left (Nat.sub_le _ _)] at cut
  refine ⟨buf', ?_, fun i outside => Snprintf.run_outside done outside, ?_⟩
  · rw [Nat.cast_zero] at done
    rw [snprintfFlags_eq buf short, done]
    rfl
  · rw [printed, List.nil_append, cut, flagTexts, flatten_nameTexts]

/-- The flags are printed exactly where one of the table is set, or the buffer is empty before. -/
theorem printsFlags_iff (buf : ByteMem) (some_room : 0 < size) (small : size < 2 ^ 31)
    {delim : Option CString}
    (short : ∀ text ∈ flagTexts flags flagNames delim, text.length < 2 ^ 31) :
    PrintsFlags buf size flags flagNames delim ↔
      (∃ flag ∈ flagNames, flags &&& flag.val ≠ 0) ∨ buf 0 = 0 := by
  by_cases set : setNames flags flagNames = []
  · have none_set := setNames_eq_nil.mp set
    have nothing : snprintfFlags buf size flags flagNames delim = some (0, buf) := by
      rw [snprintfFlags_eq buf short, flagTexts, set]
      rfl
    have joined : (joinNames (delimiter delim) []).take (size - 1) = [] := List.take_nil
    rw [PrintsFlags, nothing, flagTexts, set, joined, or_iff_right none_set,
      ← cString_eq_nil some_room]
    constructor
    · rintro ⟨buf', same, -, printed⟩
      cases same
      exact printed
    · intro empty
      exact ⟨buf, rfl, fun _ _ => rfl, empty⟩
  · have some_set := not_not.mp (mt setNames_eq_nil.mpr set)
    exact ⟨fun _ => .inl some_set, fun _ => printsFlags_of_set buf some_room small set short⟩

/-- Three flags. -/
def threeFlags : List FlagName :=
  [⟨.ofOctets (litString "Fix"), 1⟩, ⟨.ofOctets (litString "1G"), 2⟩,
    ⟨.ofOctets (litString "10G"), 4⟩]

/-- Six octets hold the last name, the bar and the first octet of the other one. -/
theorem printsFlags_iff_two : PrintsFlags (fun _ => charByte 'x') 6 5 threeFlags none ↔
    (∃ flag ∈ threeFlags, (5 : BitVec 64) &&& flag.val ≠ 0) ∨ charByte 'x' = 0 :=
  printsFlags_iff _ (by decide) (by decide) (by decide)

/-- Without a flag, what was in the buffer stays. -/
theorem printsFlags_not : ¬PrintsFlags (fun _ => charByte 'x') 6 0 threeFlags none := by
  rintro ⟨buf', same, -, printed⟩
  have nothing : snprintfFlags (fun _ => charByte 'x') 6 0 threeFlags none =
      some (0, fun _ => charByte 'x') := rfl
  rw [nothing] at same
  cases same
  exact absurd printed (by decide)

end Sdplane
