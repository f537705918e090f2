import Sdplane.Misc.CString
import Sdplane.Misc.Strtoul
import Sdplane.Zcmdsh.Editor

/-!
# The command tree

`lib/zcmdsh/command.c`: the words a command is made of, how a word of a command line finds its
node, how commands are installed and executed. A string is the list of its octets. Nodes live
in a heap, where a pointer is an index. What `inet_pton`, `strtod`, `stat` and `strftime`
answer is a parameter, and so is the order in which `vector_sort` leaves the nodes.
-/

namespace Sdplane

/-! ## Words -/

/-- What `stat` finds. -/
inductive StatResult where
  | regular | directory | special | enoent | failed

/-- The functions of the C library that are not modelled: whether `inet_pton` takes an IPv4
    address, whether `strtod` takes a whole string, how it compares two, what `stat` finds and
    what `strftime` makes of a word now, if anything. -/
structure Libc where
  inetPton : List Byte → Bool
  strtodEnds : List Byte → Bool
  strtodLt : List Byte → List Byte → Bool
  stat : List Byte → StatResult
  strftime : List Byte → Option (List Byte)

/-- `ipv4_spec`. -/
def ipv4Spec (spec : List Byte) : Bool := spec = litString "A.B.C.D"

/-- `ipv4_prefix_spec`. -/
def ipv4PrefixSpec (spec : List Byte) : Bool := spec = litString "A.B.C.D/M"

/-- `double_spec`. -/
def doubleSpec (spec : List Byte) : Bool :=
  spec = litString "<[-]ddd.ddd>" ∨ spec = litString "<[-]d.ddde[+-]dd>"

/-- `file_spec`. -/
def fileSpec (spec : List Byte) : Bool := spec = litString "<FILENAME>" ∨ spec = litString "<FILE>"

/-- `line_spec`. -/
def lineSpec (spec : List Byte) : Bool := spec = litString "<LINE>"

/-- `word_spec`. -/
def wordSpec (spec : List Byte) : Bool := spec = litString "<WORD>"

/-- `var_spec`. -/
def varSpec (spec : List Byte) : Bool := spec = litString "<VAR>"

/-- `minstr`. -/
def rangeMin (spec : List Byte) : List Byte := (spec.drop 1).takeWhile (· ≠ charByte '-')

/-- `maxstr`. -/
def rangeMax (spec : List Byte) : List Byte :=
  (((spec.drop 1).dropWhile (· ≠ charByte '-')).drop 1).dropLast

/-- `MAX_RANGE_SPEC_STR`. -/
def maxRangeSpecStr : Nat := 10

/-- Whether the range is one of `double`. -/
def rangeDouble (spec : List Byte) : Bool :=
  charByte '.' ∈ rangeMin spec ∨ charByte '.' ∈ rangeMax spec

section
variable (libc : Libc)

/-- `range_spec`. -/
def rangeSpec (spec : List Byte) : Bool :=
  if spec.head? ≠ some (charByte '<') then false
  else if charByte '-' ∉ spec then false
  else if maxRangeSpecStr < (rangeMin spec).length then false
  else if spec.getLast? ≠ some (charByte '>') then false
  else if maxRangeSpecStr < (rangeMax spec).length then false
  else if rangeDouble spec then
    libc.strtodEnds (rangeMin spec) && libc.strtodEnds (rangeMax spec) &&
      !libc.strtodLt (rangeMax spec) (rangeMin spec)
  else
    (strtoul 0 (rangeMin spec)).2 = [] ∧ (strtoul 0 (rangeMax spec)).2 = [] ∧
      ¬ (strtoul 0 (rangeMax spec)).1 < (strtoul 0 (rangeMin spec)).1

/-- `range_match`. -/
def rangeMatch (spec word : List Byte) : Bool :=
  if rangeDouble spec then
    libc.strtodEnds word && !libc.strtodLt word (rangeMin spec) &&
      !libc.strtodLt (rangeMax spec) word
  else
    (strtoul 0 word).2 = [] ∧ ¬ ((strtoul 0 word).1 < (strtoul 0 (rangeMin spec)).1 ∨
      (strtoul 0 (rangeMax spec)).1 < (strtoul 0 word).1)

/-- `ipv4_match`. -/
def ipv4Match (word : List Byte) : Bool := libc.inetPton word

/-- `ipv4_prefix_match`; the length of the prefix becomes an `int`. -/
def ipv4PrefixMatch (word : List Byte) : Bool :=
  if charByte '/' ∉ word then false
  else
    let p := (word.dropWhile (· ≠ charByte '/')).drop 1
    let len := ((strtol 10 p).1.setWidth 32).toInt
    if (strtol 10 p).2 ≠ [] then false
    else if len < 0 ∨ 32 < len then false
    else libc.inetPton (word.takeWhile (· ≠ charByte '/'))

/-- `double_match`. -/
def doubleMatch (word : List Byte) : Bool := libc.strtodEnds word

/-- `path_disassemble`: the directory and the file. -/
def pathDisassemble (pathname : List Byte) : List Byte × List Byte :=
  if charByte '/' ∉ pathname then (litString ".", pathname)
  else
    let filename := (pathname.reverse.takeWhile (· ≠ charByte '/')).reverse
    let dirname := pathname.take (pathname.length - filename.length - 1)
    (if dirname = [] then litString "/" else dirname, filename)

/-- `file_match`. -/
def fileMatch (word : List Byte) : Bool :=
  let (dirname, filename) := pathDisassemble word
  match libc.stat dirname with
  | .directory | .enoent =>
      match libc.stat filename with
      | .special => false
      -- an existing regular file or directory, or a new file
      | _ => true
  | _ => false

/-- `is_command_match_variable`. -/
def isCommandMatchVariable (spec word : List Byte) : Bool :=
  ipv4Spec spec && ipv4Match libc word ||
    ipv4PrefixSpec spec && ipv4PrefixMatch libc word ||
    rangeSpec libc spec && rangeMatch libc spec word ||
    doubleSpec spec && doubleMatch libc word ||
    fileSpec spec && fileMatch libc word ||
    lineSpec spec || wordSpec spec || varSpec spec

/-- `is_command_match_regular`. -/
def isCommandMatchRegular (spec word : List Byte) : Bool := word.isPrefixOf spec

/-- `is_command_match`. -/
def isCommandMatch (spec word : List Byte) : Bool :=
  isCommandMatchVariable libc spec word || isCommandMatchRegular spec word

/-- `varmatch_pri`. -/
def varmatchPri (spec : List Byte) : Int :=
  if ipv4PrefixSpec spec then 6
  else if ipv4Spec spec then 5
  else if rangeSpec libc spec then 4
  else if doubleSpec spec then 3
  else if fileSpec spec then 2
  else if varSpec spec then 1
  else if lineSpec spec then 0
  else -1

end

/-! ## Nodes -/

/-- `struct command_node`; a function is an element of `φ`. The `cmdstr` of the root is `NULL`
    and nothing looks at it. -/
structure CommandNode (φ : Type) where
  cmdstr : List Byte
  helpstr : Option (List Byte)
  func : Option φ
  cmdvec : List Nat

/-- `struct command_set`, as the heap its nodes are in; the root is the first. -/
structure CommandSet (φ : Type) where
  node : Nat → CommandNode φ
  size : Nat

namespace CommandSet

variable {φ : Type}

/-- `cmdset->root`. -/
def root : Nat := 0

def update (cmdset : CommandSet φ) (i : Nat) (node : CommandNode φ) : CommandSet φ :=
  { cmdset with node := Function.update cmdset.node i node }

/-- `node->func = func`. -/
def setFunc (cmdset : CommandSet φ) (i : Nat) (func : φ) : CommandSet φ :=
  cmdset.update i { cmdset.node i with func := some func }

end CommandSet

/-- The order `vector_sort` leaves the nodes in. Its comparison is given the places of the
    nodes in the array and takes them for the nodes, so that it compares addresses. -/
structure Placement (φ : Type) where
  sort : CommandSet φ → List Nat → List Nat
  perm : ∀ cmdset v, (sort cmdset v).Perm v

section
variable {φ : Type} (libc : Libc) (cmdset : CommandSet φ)

/-- `command_set_create`. -/
def commandSetCreate : CommandSet φ where
  node := fun _ => ⟨[], none, none, []⟩
  size := 1

/-- A new node below `parent`, and its place. -/
def commandNodeAdd (place : Placement φ) (parent : Nat) (cmdstr : List Byte)
    (helpstr : Option (List Byte)) : CommandSet φ × Nat :=
  -- command_node_create
  let node := cmdset.size
  let cmdset : CommandSet φ :=
    { cmdset.update node ⟨cmdstr, helpstr, none, []⟩ with size := cmdset.size + 1 }
  -- vector_add, vector_sort
  let v := place.sort cmdset ((cmdset.node parent).cmdvec ++ [node])
  (cmdset.update parent { cmdset.node parent with cmdvec := v }, node)

/-! ## Finding a node -/

/-- `command_match_exact`. -/
def commandMatchExact (parent : Nat) (word : List Byte) : Option Nat :=
  (cmdset.node parent).cmdvec.foldl
    (fun found node => if (cmdset.node node).cmdstr = word then some node else found) none

/-- The automatic variables of `command_match_unique`. -/
structure MatchCount where
  found : Option Nat
  varmatch : Option Nat
  matchCount : Nat
  varmatchCount : Nat

/-- A round of `command_match_unique`. -/
def matchRound (word : List Byte) (m : MatchCount) (node : Nat) : MatchCount :=
  let cmdstr := (cmdset.node node).cmdstr
  let m :=
    if isCommandMatchVariable libc cmdstr word then
      { found := some node
        varmatch :=
          match m.varmatch with
          | none => some node
          | some best =>
              if varmatchPri libc (cmdset.node best).cmdstr < varmatchPri libc cmdstr then some node
              else some best
        varmatchCount := m.varmatchCount + 1
        matchCount := m.matchCount + 1 }
    else m
  if isCommandMatchRegular cmdstr word then
    { m with found := some node, matchCount := m.matchCount + 1 }
  else m

/-- `command_match_unique`. -/
def commandMatchUnique (parent : Nat) (word : List Byte) : Option Nat :=
  let m := (cmdset.node parent).cmdvec.foldl (matchRound libc cmdset word) ⟨none, none, 0, 0⟩
  match m.found with
  | none => none
  | some node =>
      -- if all matches are variable matches, the best one
      if m.varmatchCount = m.matchCount then m.varmatch
      else if m.matchCount = 1 then some node
      else none

/-- `command_match_unique_exact`. -/
def commandMatchUniqueExact (parent : Nat) (word : List Byte) : Option Nat :=
  match commandMatchUnique libc cmdset parent word with
  | some node => some node
  -- multiple matches exist: unique if an exact match exists
  | none => commandMatchExact cmdset parent word

/-! ## Installing commands -/

/-- The node of a word below `parent`, which is added if there is none. -/
def installWord (place : Placement φ) (parent : Nat) (word : List Byte)
    (helpstr : Option (List Byte)) : CommandSet φ × Nat :=
  match commandMatchExact cmdset parent word with
  | some node => (cmdset, node)
  | none => commandNodeAdd cmdset place parent word helpstr

/-- `COMMAND_WORD_DELIMITERS`. -/
def commandWordDelimiters : List Byte := [space]

/-- `COMMAND_HELP_DELIMITERS`. -/
def commandHelpDelimiters : List Byte := [charByte '\n']

/-- The loop of `command_install` over the words; `helps` is what is left of the help string. -/
def installLoop (place : Placement φ) : CommandSet φ → Nat → List (List Byte) → List (List Byte) →
    CommandSet φ × Nat
  | cmdset, parent, _, [] => (cmdset, parent)
  | cmdset, parent, helps, word :: words =>
      let (cmdset, node) := installWord cmdset place parent word helps.head?
      installLoop place cmdset node helps.tail words

/-- `command_install`. -/
def commandInstall (place : Placement φ) (commandLine helpString : List Byte) (func : φ) :
    CommandSet φ :=
  let (cmdset, node) := installLoop place cmdset CommandSet.root
    (strsepTokens commandHelpDelimiters helpString) (strsepTokens commandWordDelimiters commandLine)
  cmdset.setFunc node func

/-- `vector_add`. -/
def vectorAdd (data : Nat) (v : List Nat) : Except Stop (List Nat) :=
  if data ∈ v then .error .assertion else .ok (v ++ [data])

/-- The loop of `command_install2` over the parents of a subword. -/
def installBelow (place : Placement φ) (subword : List Byte) (helpstr : Option (List Byte)) :
    CommandSet φ → List Nat → List Nat → Except Stop (CommandSet φ × List Nat)
  | cmdset, nextParents, [] => .ok (cmdset, nextParents)
  | cmdset, nextParents, parent :: parents =>
      -- if no subword, just add the parent, allowing to omit this level
      if subword = [] then do
        let nextParents ← vectorAdd parent nextParents
        installBelow place subword helpstr cmdset nextParents parents
      else do
        let (cmdset, node) := installWord cmdset place parent subword helpstr
        let nextParents ← vectorAdd node nextParents
        installBelow place subword helpstr cmdset nextParents parents

/-- The loop of `command_install2` over the subwords of a word. -/
def installSubwords (place : Placement φ) (parents : List Nat) : CommandSet φ → List Nat →
    List (List Byte) → List (List Byte) →
    Except Stop (CommandSet φ × List Nat × List (List Byte))
  | cmdset, nextParents, helps, [] => .ok (cmdset, nextParents, helps)
  | cmdset, nextParents, helps, subword :: subwords => do
      let (cmdset, nextParents) ←
        installBelow place subword helps.head? cmdset nextParents parents
      installSubwords place parents cmdset nextParents
        (if subword = [] then helps else helps.tail) subwords

/-- The subwords of a word: what is before `(` and behind `)` is ignored. -/
def subwordsOf (word : List Byte) : List (List Byte) :=
  let word := if charByte '(' ∈ word then (word.dropWhile (· ≠ charByte '(')).drop 1 else word
  strsepTokens [charByte '|'] (word.takeWhile (· ≠ charByte ')'))

/-- The loop of `command_install2` over the words. -/
def installWords (place : Placement φ) : CommandSet φ → List Nat → List (List Byte) →
    List (List Byte) → Except Stop (CommandSet φ × List Nat)
  | cmdset, parents, _, [] => .ok (cmdset, parents)
  | cmdset, parents, helps, word :: words => do
      let (cmdset, parents, helps) ←
        installSubwords place parents cmdset [] helps (subwordsOf word)
      installWords place cmdset parents helps words

/-- `command_install2`. -/
def commandInstall2 (place : Placement φ) (commandLine helpString : List Byte) (func : φ) :
    Except Stop (CommandSet φ) := do
  let (cmdset, parents) ← installWords place cmdset [CommandSet.root]
    (strsepTokens commandHelpDelimiters helpString) (strsepTokens commandWordDelimiters commandLine)
  .ok (parents.foldl (fun cmdset node => cmdset.setFunc node func) cmdset)

/-! ## Executing a command -/

/-- `file_replace`. -/
def fileReplace (word : List Byte) : List Byte :=
  if charByte '%' ∈ word then (libc.strftime word).getD word else word

/-- `command_replace`. -/
def commandReplace (cmdstr word : List Byte) : List Byte :=
  if fileSpec cmdstr then fileReplace libc word else word

/-- The loop of `command_execute`: the `argv` it leaves, and `match`. -/
def executeLoop (line : List Byte) : Nat → List (Option (List Byte)) → Option Nat →
    List (List Byte) → List (Option (List Byte)) × Option Nat
  | _, argv, found, [] => (argv, found)
  | parent, argv, found, word :: words =>
      -- prevent execution completing NULL word
      if word = [] then (argv, found) else
        match commandMatchUniqueExact libc cmdset parent word with
        | none => (argv, none)
        | some node =>
            let cmdstr := (cmdset.node node).cmdstr
            if lineSpec cmdstr ∨ fileSpec cmdstr then (argv ++ [strstr word line], some node)
            else executeLoop line node (argv ++ [some (commandReplace libc cmdstr word)]) (some node)
              words

/-- `command_execute`: the function that is called and its `argv`, or nothing. -/
def commandExecute (line : List Byte) : Option (φ × List (Option (List Byte))) :=
  let (argv, found) := executeLoop libc cmdset line CommandSet.root [] none
    (strsepTokens commandWordDelimiters line)
  match found with
  | some node => (cmdset.node node).func.map fun func => (func, argv)
  | none => none

end

end Sdplane
