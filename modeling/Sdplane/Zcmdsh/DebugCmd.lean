import Sdplane.Misc.Snprintf
import Sdplane.Zcmdsh.CommandSpec
import Sdplane.Zcmdsh.Script

/-!
# The debug commands

`debug_cmdstr_init` (`debug_cmd.c:17-73`) writes the specification of the command that switches
the types of a category, for each table of types. `debug_zcmdsh_func` (`debug_zcmdsh.c:32-80`) and
`debug_sdplane_func` (`debug_sdplane.c:57-117`) look for the type that is named, each in the table
of its category, and set or clear its flag; in the category `sdplane` the name `all` stands for
every flag there is.
-/

namespace Sdplane

/-- `struct debug_type`. -/
structure DebugType where
  flag : BitVec 64
  name : CString

section
variable (cate : List Byte) (types : List DebugType)

/-- The texts `debug_cmdstr_init` puts into `cmdstr`, one after the other. -/
def debugCmdstrTexts : List (List Byte) :=
  [litString "(|no) ", litString "debug ", cate ++ [space]] ++
    (if 1 < types.length then [[charByte '(']] else []) ++
    ((types.map fun type => type.name.octets).mapIdx fun i name =>
      if i + 1 < types.length then name ++ [charByte '|'] else name) ++
    (if 1 < types.length then [[charByte ')']] else [])

/-- `debug_cmdstr_init`: `cmdstr` afterwards, if every `snprintf` stays inside. -/
def debugCmdstrInit (size : Nat) (cmdstr : ByteMem) : Option ByteMem :=
  Snprintf.run size (Snprintf.calls (Snprintf.roomLeft size) 0 (debugCmdstrTexts cate types)) cmdstr

end

/-- `FLAG_CHECK`, as a condition. -/
def flagCheck (config flag : BitVec 64) : Bool := config &&& flag ≠ 0

/-! ## Tables of types -/

/-- A category with the types it has. The names are different words that stand for themselves. -/
structure DebugTable where
  cate : CString
  types : List DebugType
  some_type : types ≠ []
  cate_plain : Plain cate.octets
  plain : ∀ type ∈ types, Plain type.name.octets
  named : ∀ type ∈ types, type.name.octets ≠ []
  distinct : (types.map fun type => type.name.octets).Nodup
  keyword : ∀ (libc : Libc) word, word = cate.octets ∨ (∃ type ∈ types, word = type.name.octets) →
    word ≠ [] ∧ isVariableSpec libc word = false

namespace DebugTable

variable (table : DebugTable)

def names : List (List Byte) := table.types.map fun type => type.name.octets

/-- `(a|b|…)`, or the only name. -/
def nameLevel : Level :=
  if 1 < table.types.length then .group table.names else .word (table.names.headD [])

theorem names_ne_nil : table.names ≠ [] := by
  simpa [names] using table.some_type

theorem nameLevel_alternatives : table.nameLevel.alternatives = table.names := by
  rw [nameLevel]
  split
  · rfl
  · next single =>
      have some_ := table.names_ne_nil
      have length : table.names.length = table.types.length := List.length_map _
      cases listed : table.names with
      | nil => exact absurd listed some_
      | cons name names =>
          rw [listed, List.length_cons] at length
          have none_ : names = [] := List.eq_nil_of_length_eq_zero (by omega)
          rw [none_]
          rfl

theorem plain_names : ∀ name ∈ table.names, Plain name := by
  intro name mem
  obtain ⟨type, there, rfl⟩ := List.mem_map.mp mem
  exact table.plain type there

/-- `(|no) debug cate (a|b|…)`. -/
def spec : CommandSpec where
  levels := [.group [[], litString "no"], .word (litString "debug"), .word table.cate.octets,
    table.nameLevel]
  some_level := List.cons_ne_nil _ _
  some_alternative := by
    intro level mem
    simp only [List.mem_cons, List.not_mem_nil, or_false] at mem
    rcases mem with rfl | rfl | rfl | rfl
    · exact List.cons_ne_nil _ _
    · exact List.cons_ne_nil _ _
    · exact List.cons_ne_nil _ _
    · rw [table.nameLevel_alternatives]
      exact table.names_ne_nil
  plain := by
    intro level mem word inside
    simp only [List.mem_cons, List.not_mem_nil, or_false] at mem
    rcases mem with rfl | rfl | rfl | rfl
    · simp only [Level.alternatives, List.mem_cons, List.not_mem_nil, or_false] at inside
      rcases inside with rfl | rfl <;> exact ⟨by decide, by decide, by decide, by decide⟩
    · rw [List.mem_singleton.mp inside]
      exact ⟨by decide, by decide, by decide, by decide⟩
    · rw [List.mem_singleton.mp inside]
      exact table.cate_plain
    · rw [table.nameLevel_alternatives] at inside
      exact table.plain_names word inside

/-! ## The specification that is written -/

theorem mapIdx_intercalate (d : Byte) (ws : List (List Byte)) :
    (ws.mapIdx fun i w => if i + 1 < ws.length then w ++ [d] else w).flatten = [d].intercalate ws := by
  induction ws with
  | nil => rfl
  | cons w ws ih =>
      rw [List.mapIdx_cons, List.flatten_cons]
      cases ws with
      | nil => simp
      | cons next ws =>
          rw [List.intercalate_cons_cons, ← ih]
          simp

/-- What is written is the specification. -/
theorem texts_flatten :
    (debugCmdstrTexts table.cate.octets table.types).flatten = table.spec.commandLine := by
  have written : ((table.types.map fun type => type.name.octets).mapIdx fun i name =>
      if i + 1 < table.types.length then name ++ [charByte '|'] else name).flatten =
        [charByte '|'].intercalate table.names := by
    rw [← mapIdx_intercalate, names, List.length_map]
  have alternatives : ([if 1 < table.types.length then [[charByte '(']] else [],
      [[charByte '|'].intercalate table.names],
      if 1 < table.types.length then [[charByte ')']] else []]).flatten.flatten =
        table.nameLevel.render := by
    rw [nameLevel]
    split
    · simp [Level.render]
    · next single =>
        have only := table.nameLevel_alternatives
        rw [nameLevel, if_neg single] at only
        rw [← only]
        simp [Level.render, Level.alternatives]
  rw [CommandSpec.commandLine, spec]
  simp only [List.map_cons, List.map_nil, List.intercalate_cons_cons, List.intercalate_singleton,
    ← alternatives, debugCmdstrTexts, List.flatten_append, written]
  simp [Level.render, litString, space, charByte]

/-! ## The lines it stands for -/

/-- The words of `[no] debug cate name`. -/
def words (negate : Bool) (name : List Byte) : List (List Byte) :=
  (if negate then [litString "no"] else []) ++ [litString "debug", table.cate.octets, name]

theorem expansions_eq :
    table.spec.expansions = table.names.flatMap fun name =>
      [table.words false name, table.words true name] := by
  have cate := (table.keyword quietLibc table.cate.octets (.inl rfl)).1
  have levels : table.spec.levels.map Level.alternatives =
      [[[], litString "no"], [litString "debug"], [table.cate.octets], table.names] := by
    simp only [spec, List.map_cons, List.map_nil, nameLevel_alternatives]
    rfl
  rw [CommandSpec.expansions, levels]
  have named : ∀ name ∈ table.names, name ≠ [] := by
    intro name mem
    obtain ⟨type, there, rfl⟩ := List.mem_map.mp mem
    exact table.named type there
  simp only [List.sections, List.flatMap_cons, List.flatMap_nil, List.append_nil, List.map_cons,
    List.map_nil, List.flatMap_map, List.map_flatMap, List.flatMap_assoc]
  refine List.flatMap_congr fun name mem => ?_
  simp [words, named name mem, cate, litString]

theorem words_inj {negate negate' : Bool} {name name' : List Byte}
    (same : table.words negate name = table.words negate' name') :
    negate = negate' ∧ name = name' := by
  cases negate <;> cases negate' <;> simp_all [words]

theorem expansions_nodup : table.spec.expansions.Nodup := by
  rw [expansions_eq, List.nodup_flatMap]
  constructor
  · intro name _
    simp only [List.nodup_cons, List.mem_singleton, List.not_mem_nil, not_false_eq_true,
      List.nodup_nil, and_true]
    intro same
    cases (table.words_inj same).1
  · refine table.distinct.imp fun {name name'} other ws mem mem' => other ?_
    simp only [List.mem_cons, List.not_mem_nil, or_false] at mem mem'
    rcases mem with rfl | rfl <;> rcases mem' with same | same <;> exact (table.words_inj same).2

theorem commandLine_noNul : 0 ∉ table.spec.commandLine := by
  intro nul
  rcases mem_intercalate nul with sep | ⟨text, mem, nul⟩
  · exact absurd sep (by decide)
  · obtain ⟨level, there, rfl⟩ := List.mem_map.mp mem
    -- the octets of a word that stands here
    have inside : ∀ word ∈ level.alternatives, 0 ∉ word := by
      simp only [spec, List.mem_cons, List.not_mem_nil, or_false] at there
      rcases there with rfl | rfl | rfl | rfl
      · simp only [Level.alternatives]
        decide
      · simp only [Level.alternatives]
        decide
      · simpa [Level.alternatives] using table.cate.noNul
      · rw [table.nameLevel_alternatives]
        intro word mem
        obtain ⟨type, -, rfl⟩ := List.mem_map.mp mem
        exact type.name.noNul
    cases level with
    | word w => exact inside w List.mem_cons_self nul
    | group subwords =>
        rw [Level.render, List.mem_cons, List.mem_append, List.mem_singleton] at nul
        rcases nul with opens | nul | closes
        · exact absurd opens (by decide)
        · rcases mem_intercalate nul with bar | ⟨w, mem, nul⟩
          · exact absurd bar (by decide)
          · exact inside w mem nul
        · exact absurd closes (by decide)

/-- `cmdstr` holds the specification, if there is room for it. -/
theorem debugCmdstrInit_spec {size : Nat} (small : size < 2 ^ 31)
    (fits : table.spec.commandLine.length < size) (cmdstr : ByteMem) :
    ∃ cmdstr', debugCmdstrInit table.cate.octets table.types size cmdstr = some cmdstr' ∧
      (cmdstr'.cString size 0).octets = table.spec.commandLine := by
  have flat := table.texts_flatten
  have short : ∀ text ∈ debugCmdstrTexts table.cate.octets table.types, text.length < 2 ^ 31 := by
    intro text mem
    have part := (List.sublist_flatten_of_mem mem).length_le
    rw [flat] at part
    omega
  have honest : ∀ q : Int, 0 ≤ q → q < size → q + (Snprintf.roomLeft size q).toNat ≤ size := by
    intro q low high
    obtain ⟨k, rfl⟩ := Int.eq_ofNat_of_zero_le low
    rw [Snprintf.toNat_roomLeft small (Int.ofNat_lt.mp high)]
    omega
  have started : ∀ k < (debugCmdstrTexts table.cate.octets table.types).length,
      0 ≤ 0 + Snprintf.advance ((debugCmdstrTexts table.cate.octets table.types).take k) ∧
        0 + Snprintf.advance ((debugCmdstrTexts table.cate.octets table.types).take k) < size := by
    intro k _
    have part := (List.take_sublist k (debugCmdstrTexts table.cate.octets table.types)).flatten
    have bound := part.length_le
    rw [flat] at bound
    rw [Snprintf.advance_of_short fun text mem => short text (List.mem_of_mem_take mem)]
    omega
  have runs := (Snprintf.run_isSome_iff (n := size)
    (Snprintf.calls (Snprintf.roomLeft size) 0 (debugCmdstrTexts table.cate.octets table.types))
    cmdstr).mpr ((Snprintf.calls_inside_iff honest _ 0).mpr started)
  obtain ⟨cmdstr', done⟩ := Option.isSome_iff_exists.mp runs
  refine ⟨cmdstr', done, ?_⟩
  have text := Snprintf.run_text [] (fun q inside => Snprintf.toNat_roomLeft small inside) short
    (by rw [List.nil_append, flat]; exact table.commandLine_noNul) (Nat.zero_lt_of_lt fits) rfl
    (fun none_ => absurd none_ (by simp [debugCmdstrTexts])) done
  rw [text, List.nil_append, flat, List.take_of_length_le (by omega)]

end DebugTable

/-! ## The tables -/

theorem isVariableSpec_of_head {libc : Libc} {spec : List Byte}
    (bracket : spec.head? ≠ some (charByte '<')) (letter : spec.head? ≠ some (charByte 'A')) :
    isVariableSpec libc spec = false := by
  have range : rangeSpec libc spec = false := by rw [rangeSpec, if_pos bracket]
  have other : ∀ text : List Byte,
      text.head? = some (charByte '<') ∨ text.head? = some (charByte 'A') → spec ≠ text := by
    rintro text (opens | opens) rfl
    · exact bracket opens
    · exact letter opens
  simp only [isVariableSpec, range, ipv4Spec, ipv4PrefixSpec, doubleSpec, fileSpec, lineSpec,
    wordSpec, varSpec, Bool.or_eq_false_iff, decide_eq_false_iff_not, not_or]
  and_intros <;> first | trivial | exact other _ (by decide)

/-- `DEBUG_ZCMDSH_SHELL`. -/
def debugZcmdshShell : BitVec 64 := 1 <<< 0

/-- `debug_zcmdsh_types`. -/
def debugZcmdshTypes : List DebugType :=
  [⟨debugZcmdshShell, ⟨litString "shell", by decide⟩⟩, ⟨1 <<< 1, ⟨litString "command", by decide⟩⟩,
    ⟨1 <<< 2, ⟨litString "pager", by decide⟩⟩, ⟨1 <<< 3, ⟨litString "timer", by decide⟩⟩,
    ⟨1 <<< 4, ⟨litString "unicode", by decide⟩⟩, ⟨1 <<< 5, ⟨litString "termio", by decide⟩⟩,
    ⟨1 <<< 6, ⟨litString "telnet", by decide⟩⟩]

/-- `debug_sdplane_types`. -/
def debugSdplaneTypes : List DebugType :=
  [⟨1 <<< 0, ⟨litString "lthread", by decide⟩⟩, ⟨1 <<< 1, ⟨litString "console", by decide⟩⟩,
    ⟨1 <<< 2, ⟨litString "tap-handler", by decide⟩⟩, ⟨1 <<< 3, ⟨litString "l2fwd", by decide⟩⟩,
    ⟨1 <<< 4, ⟨litString "l3fwd", by decide⟩⟩, ⟨1 <<< 5, ⟨litString "vty-server", by decide⟩⟩,
    ⟨1 <<< 6, ⟨litString "vty-shell", by decide⟩⟩, ⟨1 <<< 7, ⟨litString "telnet-opt", by decide⟩⟩,
    ⟨1 <<< 8, ⟨litString "stat-collector", by decide⟩⟩, ⟨1 <<< 9, ⟨litString "sched", by decide⟩⟩,
    ⟨1 <<< 10, ⟨litString "vty", by decide⟩⟩, ⟨1 <<< 11, ⟨litString "packet", by decide⟩⟩,
    ⟨1 <<< 12, ⟨litString "fdb", by decide⟩⟩, ⟨1 <<< 13, ⟨litString "fdb-change", by decide⟩⟩,
    ⟨1 <<< 14, ⟨litString "rcu-read", by decide⟩⟩, ⟨1 <<< 15, ⟨litString "rcu-write", by decide⟩⟩,
    ⟨1 <<< 16, ⟨litString "l2-repeater", by decide⟩⟩, ⟨1 <<< 17, ⟨litString "thread", by decide⟩⟩,
    ⟨1 <<< 18, ⟨litString "rib", by decide⟩⟩, ⟨1 <<< 19, ⟨litString "vswitch", by decide⟩⟩,
    ⟨1 <<< 20, ⟨litString "all", by decide⟩⟩, ⟨1 <<< 21, ⟨litString "rib-message", by decide⟩⟩,
    ⟨1 <<< 22, ⟨litString "rib-check", by decide⟩⟩,
    ⟨1 <<< 23, ⟨litString "internal-message", by decide⟩⟩,
    ⟨1 <<< 24, ⟨litString "nettlp", by decide⟩⟩]

/-- The categories of `debug_config_g` that have commands. -/
inductive DebugCategory where
  | zcmdsh
  | sdplane
deriving DecidableEq

namespace DebugCategory

def cate : DebugCategory → CString
  | zcmdsh => ⟨litString "zcmdsh", by decide⟩
  | sdplane => ⟨litString "sdplane", by decide⟩

def types : DebugCategory → List DebugType
  | zcmdsh => debugZcmdshTypes
  | sdplane => debugSdplaneTypes

/-- No octet has a meaning in a specification. -/
theorem types_plain (category : DebugCategory) : ∀ type ∈ category.types, Plain type.name.octets := by
  have octets : ∀ type ∈ category.types, space ∉ type.name.octets ∧ charByte '(' ∉ type.name.octets ∧
      charByte ')' ∉ type.name.octets ∧ charByte '|' ∉ type.name.octets := by
    cases category <;> decide
  intro type mem
  obtain ⟨space, begins, ends, bar⟩ := octets type mem
  exact ⟨space, begins, ends, bar⟩

theorem types_keyword (category : DebugCategory) (libc : Libc) {type : DebugType}
    (mem : type ∈ category.types) :
    type.name.octets ≠ [] ∧ isVariableSpec libc type.name.octets = false := by
  have heads : ∀ type ∈ category.types, type.name.octets ≠ [] ∧
      type.name.octets.head? ≠ some (charByte '<') ∧ type.name.octets.head? ≠ some (charByte 'A') := by
    cases category <;> decide
  obtain ⟨some_, bracket, letter⟩ := heads type mem
  exact ⟨some_, isVariableSpec_of_head bracket letter⟩

def table (category : DebugCategory) : DebugTable where
  cate := category.cate
  types := category.types
  some_type := by cases category <;> exact List.cons_ne_nil _ _
  cate_plain := by cases category <;> exact ⟨by decide, by decide, by decide, by decide⟩
  plain := category.types_plain
  named := fun _ mem => (category.types_keyword quietLibc mem).1
  distinct := by cases category <;> decide
  keyword := by
    rintro libc word (rfl | ⟨type, mem, rfl⟩)
    · cases category <;> exact ⟨by decide, isVariableSpec_of_head (by decide) (by decide)⟩
    · exact category.types_keyword libc mem

/-- The size of `debug_zcmdsh_cmdstr`, and of `debug_sdplane_cmdstr`. -/
def cmdstrSize : Nat := 128 * 16

theorem table_fits (category : DebugCategory) :
    category.table.spec.commandLine.length < cmdstrSize := by
  rw [← category.table.texts_flatten]
  cases category <;> decide +kernel

end DebugCategory

/-! ## The functions -/

/-- What is compared in `argv`: whether it begins with `no`, and the name behind the category. -/
def debugArguments (argv : List (Option (List Byte))) : Option (Bool × List Byte) := do
  let first ← argv[0]?.join
  let negate : Bool := first = litString "no"
  let argv := if negate then argv.drop 1 else argv
  let named ← argv[2]?.join
  return (negate, named)

/-- A round of the loop over the types: the flags, and what is printed. -/
def debugRound (label : DebugType → List Byte) (nl : List Byte) (negate : Bool) (named : List Byte)
    (r : BitVec 64 × List Byte) (type : DebugType) : BitVec 64 × List Byte :=
  if named ≠ type.name.octets then r
  else if negate then
    (r.1 &&& ~~~type.flag, r.2 ++ litString "debug: " ++ label type ++ litString ": disabled." ++ nl)
  else
    (r.1 ||| type.flag, r.2 ++ litString "debug: " ++ label type ++ litString ": enabled." ++ nl)

/-- `debug_zcmdsh_func`, if there are the words it compares. -/
def debugZcmdshFunc (nl : List Byte) (argv : List (Option (List Byte))) (config : BitVec 64) :
    Option (BitVec 64 × List Byte) := do
  let (negate, named) ← debugArguments argv
  return debugZcmdshTypes.foldl (debugRound (fun type => type.name.octets) nl negate named) (config, [])

/-- `"sdplane %s (%#x)"`, where an `int` is taken of the flag. -/
def sdplaneLabel (type : DebugType) : List Byte :=
  litString "sdplane " ++ type.name.octets ++ litString " (0x" ++
    (Nat.toDigits 16 (type.flag.setWidth 32).toNat).map charByte ++ litString ")"

/-- `debug_sdplane_func`, if there are the words it compares. -/
def debugSdplaneFunc (nl : List Byte) (argv : List (Option (List Byte))) (config : BitVec 64) :
    Option (BitVec 64 × List Byte) := do
  let (negate, named) ← debugArguments argv
  if named = litString "all" then
    return if negate then (0, litString "debug: sdplane: disable all." ++ nl)
      else (config ||| 0xffffffffffffffff, litString "debug: sdplane: enable all." ++ nl)
  else return debugSdplaneTypes.foldl (debugRound sdplaneLabel nl negate named) (config, [])

theorem foldl_unchanged {α β : Type} {f : β → α → β} {xs : List α}
    (others : ∀ y ∈ xs, ∀ r, f r y = r) (r : β) : xs.foldl f r = r := by
  induction xs with
  | nil => rfl
  | cons y xs ih =>
      rw [List.forall_mem_cons] at others
      rw [List.foldl_cons, others.1]
      exact ih others.2

/-- A loop that does something for one key does it once. -/
theorem foldl_of_key {α β κ : Type} {key : α → κ} {f : β → α → β} {x : α} {xs : List α}
    (distinct : (xs.map key).Nodup) (mem : x ∈ xs) (others : ∀ r y, key y ≠ key x → f r y = r)
    (r : β) : xs.foldl f r = f r x := by
  induction xs generalizing r with
  | nil => exact absurd mem List.not_mem_nil
  | cons y xs ih =>
      rw [List.map_cons, List.nodup_cons] at distinct
      rw [List.foldl_cons]
      rcases List.mem_cons.mp mem with rfl | mem
      · refine foldl_unchanged (fun y there r => others r y fun same => ?_) _
        exact distinct.1 (same ▸ List.mem_map_of_mem there)
      · have other : key y ≠ key x := fun same => distinct.1 (same ▸ List.mem_map_of_mem mem)
        rw [others r y other]
        exact ih distinct.2 mem r

/-- Flags are switched off or on. -/
def switchFlags (negate : Bool) (flags config : BitVec 64) : BitVec 64 :=
  if negate then config &&& ~~~flags else config ||| flags

theorem getLsbD_switchFlags (negate : Bool) (flags config : BitVec 64) {i : Nat} (inside : i < 64) :
    (switchFlags negate flags config).getLsbD i =
      if flags.getLsbD i then !negate else config.getLsbD i := by
  cases negate with
  | false =>
      rw [switchFlags, if_neg Bool.false_ne_true, BitVec.getLsbD_or]
      cases flags.getLsbD i <;> simp
  | true =>
      rw [switchFlags, if_pos rfl, BitVec.getLsbD_and, BitVec.getLsbD_not, decide_eq_true inside]
      cases flags.getLsbD i <;> simp

theorem DebugTable.debugArguments_words (table : DebugTable) (negate : Bool) (name : List Byte) :
    debugArguments ((table.words negate name).map some) = some (negate, name) := by
  cases negate <;> rfl

/-- The type that is named is switched, and no other. -/
theorem foldl_debugRound {types : List DebugType} {type : DebugType}
    (distinct : (types.map fun type => type.name.octets).Nodup) (mem : type ∈ types)
    (label : DebugType → List Byte) (nl : List Byte) (negate : Bool) (config : BitVec 64) :
    (types.foldl (debugRound label nl negate type.name.octets) (config, [])).1 =
      switchFlags negate type.flag config := by
  rw [foldl_of_key (f := debugRound label nl negate type.name.octets) distinct mem
    fun r other differs => if_pos differs.symm]
  cases negate <;> simp [debugRound, switchFlags]

namespace DebugCategory

/-- The function of the command of a category. -/
def func : DebugCategory → List Byte → List (Option (List Byte)) → BitVec 64 →
    Option (BitVec 64 × List Byte)
  | zcmdsh => debugZcmdshFunc
  | sdplane => debugSdplaneFunc

/-- The flags that a line about this type sets or clears. -/
def flags : DebugCategory → DebugType → BitVec 64
  | zcmdsh, type => type.flag
  | sdplane, type => if type.name.octets = litString "all" then .allOnes 64 else type.flag

/-- The words of a line switch the flags of the type that is named, and no others. -/
theorem func_words (category : DebugCategory) (nl : List Byte) (negate : Bool) {type : DebugType}
    (mem : type ∈ category.types) (config : BitVec 64) :
    ∃ r, category.func nl ((category.table.words negate type.name.octets).map some) config = some r ∧
      r.1 = switchFlags negate (category.flags type) config := by
  have words := category.table.debugArguments_words negate type.name.octets
  have one := foldl_debugRound category.table.distinct mem
  cases category with
  | zcmdsh =>
      refine ⟨_, ?_, one (fun type => type.name.octets) nl negate config⟩
      rw [func, debugZcmdshFunc, words]
      rfl
  | sdplane =>
      rw [func, debugSdplaneFunc, words, flags, Option.bind_eq_bind, Option.bind_some]
      dsimp only
      by_cases all : type.name.octets = litString "all"
      · rw [if_pos all, if_pos all]
        refine ⟨_, rfl, ?_⟩
        cases negate <;> simp [switchFlags]
      · rw [if_neg all, if_neg all]
        exact ⟨_, rfl, one sdplaneLabel nl negate config⟩

end DebugCategory

/-! ## The lines are executed -/

/-- `debug_config_g`. -/
abbrev DebugConfig := DebugCategory → BitVec 64

/-- Commands, with those of the categories among them; the flags are what they change. -/
def debugSystem {ψ : Type} (libc : Libc) (cmdset : CommandSet (DebugCategory ⊕ ψ)) (nl : List Byte)
    (other : ψ → List (Option (List Byte)) → DebugConfig → DebugConfig × Effect) :
    CommandSystem (DebugCategory ⊕ ψ) DebugConfig where
  libc := libc
  cmdset := cmdset
  call := fun func argv config =>
    match func with
    | .inr func => other func argv config
    | .inl category =>
        match category.func nl argv (config category) with
        | some (flags, printed) =>
            let config := Function.update config category flags
            (config, ⟨printed, false, flagCheck (config .zcmdsh) debugZcmdshShell, none⟩)
        | none => (config, ⟨[], false, flagCheck (config .zcmdsh) debugZcmdshShell, none⟩)

namespace DebugTable

variable (table : DebugTable)

/-- `[no] debug cate name`. -/
def line (negate : Bool) (type : DebugType) : List Byte :=
  [space].intercalate (table.words negate type.name.octets)

theorem words_mem (negate : Bool) {type : DebugType} (mem : type ∈ table.types) :
    table.words negate type.name.octets ∈ table.spec.expansions := by
  rw [expansions_eq, List.mem_flatMap]
  refine ⟨type.name.octets, List.mem_map_of_mem mem, ?_⟩
  cases negate <;> simp

theorem words_keyword (libc : Libc) (negate : Bool) {type : DebugType} (mem : type ∈ table.types) :
    ∀ word ∈ table.words negate type.name.octets, isVariableSpec libc word = false := by
  intro word inside
  have cases_ : word = litString "no" ∨ word = litString "debug" ∨ word = table.cate.octets ∨
      word = type.name.octets := by
    cases negate <;> simp_all [words]
  rcases cases_ with rfl | rfl | same | same
  · rfl
  · rfl
  · exact (table.keyword libc word (.inl same)).2
  · exact (table.keyword libc word (.inr ⟨type, mem, same⟩)).2

end DebugTable

/-- A line `[no] debug cate name`. -/
structure DebugLine where
  category : DebugCategory
  negate : Bool
  type : DebugType
  listed : type ∈ category.types

namespace DebugLine

variable (line : DebugLine)

def text : List Byte := line.category.table.line line.negate line.type

/-- What a line does to the flags of its category. -/
def switch (config : DebugConfig) : DebugConfig :=
  Function.update config line.category
    (switchFlags line.negate (line.category.flags line.type) (config line.category))

/-- A line that finds the command of its category switches its flags. -/
theorem execute {ψ : Type} {libc : Libc} {cmdset : CommandSet (DebugCategory ⊕ ψ)}
    {path : Nat → List (List Byte)}
    {installed_ : List (List Byte) → Option (DebugCategory ⊕ ψ)}
    (h : Denotes cmdset path installed_)
    (entry : installed_ (line.category.table.words line.negate line.type.name.octets) =
      some (.inl line.category)) (nl : List Byte)
    (other : ψ → List (Option (List Byte)) → DebugConfig → DebugConfig × Effect)
    (config : DebugConfig) :
    ((debugSystem libc cmdset nl other).execute line.text config).1 = line.switch config := by
  have there := line.category.table.words_mem line.negate line.listed
  have called := commandExecute_expansion h entry
    (by cases line.negate <;> simp [DebugTable.words])
    (fun word inside => line.category.table.spec.expansions_words there inside)
    (line.category.table.words_keyword libc line.negate line.listed)
  obtain ⟨⟨flags, printed⟩, done, rfl⟩ :=
    line.category.func_words nl line.negate line.listed (config line.category)
  rw [CommandSystem.execute]
  simp only [debugSystem, text, DebugTable.line, called, done]
  rfl

/-- Each flag is what the last line that sets or clears it made it. -/
theorem getLsbD_foldl (lines : List DebugLine) (config : DebugConfig) (category : DebugCategory)
    {i : Nat} (inside : i < 64) :
    (lines.foldl (fun config line => line.switch config) config category).getLsbD i =
      match lines.reverse.find? fun line =>
        line.category = category ∧ (line.category.flags line.type).getLsbD i with
      | some line => !line.negate
      | none => (config category).getLsbD i := by
  induction lines using List.reverseRecOn with
  | nil => rfl
  | append_singleton lines line ih =>
      rw [List.foldl_append, List.foldl_cons, List.foldl_nil, List.reverse_append,
        List.reverse_singleton, List.singleton_append, List.find?_cons, switch]
      by_cases same : category = line.category
      · rw [same, Function.update_self, getLsbD_switchFlags _ _ _ inside, ← same]
        cases bit : (category.flags line.type).getLsbD i with
        | true => simp
        | false => simpa [← same, bit] using ih
      · rw [Function.update_of_ne same]
        simpa [Ne.symm same] using ih

end DebugLine

/-- The specification `debug_cmdstr_init` writes for each of the two categories is that of the lines
    that switch its types, one by one. Where no other command was put at the words of these lines
    later, after any number of them, about either category, each flag of each category is what the
    last line about its type made it, or about `all` in the category `sdplane`, and no other flag
    has changed. -/
theorem debugCommands_switch {ψ : Type} (libc : Libc) (place : Placement (DebugCategory ⊕ ψ))
    (cmdstr : ByteMem) (installs : List (Install (DebugCategory ⊕ ψ)))
    (nodup : ∀ call ∈ installs, call.spec.expansions.Nodup)
    (last : ∀ category : DebugCategory, ∀ words ∈ category.table.spec.expansions,
      lastInstalled installs words = some (.inl category)) (nl : List Byte)
    (other : ψ → List (Option (List Byte)) → DebugConfig → DebugConfig × Effect) :
    (∀ category : DebugCategory, ∃ cmdstr',
      debugCmdstrInit category.cate.octets category.types DebugCategory.cmdstrSize cmdstr =
        some cmdstr' ∧
      (cmdstr'.cString DebugCategory.cmdstrSize 0).octets = category.table.spec.commandLine) ∧
    ∃ cmdset, installAll place installs = .ok cmdset ∧
      ∀ (config : DebugConfig) (lines : List DebugLine) (category : DebugCategory),
        ∀ i < 64,
          (lines.foldl (fun config line =>
            ((debugSystem libc cmdset nl other).execute line.text config).1) config
              category).getLsbD i =
            match lines.reverse.find? fun line =>
              line.category = category ∧ (line.category.flags line.type).getLsbD i with
            | some line => !line.negate
            | none => (config category).getLsbD i := by
  constructor
  · exact fun category => category.table.debugCmdstrInit_spec (by decide) category.table_fits cmdstr
  · obtain ⟨cmdset, path, ran, h⟩ := installAll_denotes place installs nodup
    refine ⟨cmdset, ran, ?_⟩
    intro config lines category i inside
    have switched : lines.foldl (fun config line =>
        ((debugSystem libc cmdset nl other).execute line.text config).1) config =
          lines.foldl (fun config line => line.switch config) config := by
      refine List.foldl_ext _ _ _ fun config line _ => line.execute h (last _ _ ?_) nl other config
      exact line.category.table.words_mem line.negate line.listed
    rw [switched]
    exact DebugLine.getLsbD_foldl lines config category inside

/-- `show debugging zcmdsh`. -/
def showDebugZcmdsh : CommandSpec where
  levels := [.word (litString "show"), .word (litString "debugging"), .word (litString "zcmdsh")]
  some_level := List.cons_ne_nil _ _
  some_alternative := by
    intro level mem
    simp only [List.mem_cons, List.not_mem_nil, or_false] at mem
    rcases mem with rfl | rfl | rfl <;> exact List.cons_ne_nil _ _
  plain := by
    intro level mem word inside
    simp only [List.mem_cons, List.not_mem_nil, or_false] at mem
    rcases mem with rfl | rfl | rfl <;> rw [List.mem_singleton.mp inside] <;>
      exact ⟨by decide, by decide, by decide, by decide⟩

/-- What the console installs of the debug commands, up to `debug sdplane`. -/
def consoleDebugInstalls : List (Install (DebugCategory ⊕ Unit)) :=
  [⟨DebugCategory.zcmdsh.table.spec, [], .inl .zcmdsh⟩, ⟨showDebugZcmdsh, [], .inr ()⟩,
    ⟨DebugCategory.sdplane.table.spec, [], .inl .sdplane⟩]

theorem debugCommands_switch_console :
    (∀ category : DebugCategory, ∃ cmdstr',
      debugCmdstrInit category.cate.octets category.types DebugCategory.cmdstrSize (fun _ => 0) =
        some cmdstr' ∧
      (cmdstr'.cString DebugCategory.cmdstrSize 0).octets = category.table.spec.commandLine) ∧
    ∃ cmdset, installAll quietPlacement consoleDebugInstalls = .ok cmdset ∧
      ∀ (config : DebugConfig) (lines : List DebugLine) (category : DebugCategory),
        ∀ i < 64,
          (lines.foldl (fun config line =>
            ((debugSystem quietLibc cmdset [] fun _ _ config =>
              (config, ⟨[], false, false, none⟩)).execute line.text config).1) config
                category).getLsbD i =
            match lines.reverse.find? fun line =>
              line.category = category ∧ (line.category.flags line.type).getLsbD i with
            | some line => !line.negate
            | none => (config category).getLsbD i :=
  debugCommands_switch quietLibc quietPlacement (fun _ => 0) consoleDebugInstalls
    (by
      intro call mem
      simp only [consoleDebugInstalls, List.mem_cons, List.not_mem_nil, or_false] at mem
      rcases mem with rfl | rfl | rfl
      · exact DebugCategory.zcmdsh.table.expansions_nodup
      · decide
      · exact DebugCategory.sdplane.table.expansions_nodup)
    (by intro category; cases category <;> decide +kernel)
    [] _

end Sdplane
