import Sdplane.Misc.Ensures
import Sdplane.Misc.NodeTree
import Sdplane.Zcmdsh.CommandMatch
import Mathlib.Data.List.Nodup

/-!
# The tree of a command set

The nodes of a command set are a tree, whose paths are the sequences of words that lead to them.
To install a command adds nodes to the tree and leaves the others where they are.
-/

namespace Sdplane

variable {φ : Type}

namespace CommandSet

/-- The tree the nodes are. -/
def tree (cmdset : CommandSet φ) : NodeTree (List Byte) where
  size := cmdset.size
  label := fun i => (cmdset.node i).cmdstr
  children := fun i => (cmdset.node i).cmdvec

@[simp] theorem node_update_self (cmdset : CommandSet φ) (i : Nat) (node : CommandNode φ) :
    (cmdset.update i node).node i = node := by
  simp [update]

theorem node_update_of_ne (cmdset : CommandSet φ) {i j : Nat} (other : j ≠ i)
    (node : CommandNode φ) : (cmdset.update i node).node j = cmdset.node j := by
  simp [update, other]

@[simp] theorem size_setFunc (cmdset : CommandSet φ) (i : Nat) (func : φ) :
    (cmdset.setFunc i func).size = cmdset.size := rfl

@[simp] theorem cmdstr_setFunc (cmdset : CommandSet φ) (i : Nat) (func : φ) (j : Nat) :
    ((cmdset.setFunc i func).node j).cmdstr = (cmdset.node j).cmdstr := by
  by_cases here : j = i
  · rw [here, setFunc, node_update_self]
  · rw [setFunc, node_update_of_ne cmdset here]

@[simp] theorem cmdvec_setFunc (cmdset : CommandSet φ) (i : Nat) (func : φ) (j : Nat) :
    ((cmdset.setFunc i func).node j).cmdvec = (cmdset.node j).cmdvec := by
  by_cases here : j = i
  · rw [here, setFunc, node_update_self]
  · rw [setFunc, node_update_of_ne cmdset here]

/-- A function of a node leaves the tree alone. -/
@[simp] theorem tree_setFunc (cmdset : CommandSet φ) (i : Nat) (func : φ) :
    (cmdset.setFunc i func).tree = cmdset.tree := by
  rw [tree, tree, size_setFunc, funext (cmdstr_setFunc cmdset i func),
    funext (cmdvec_setFunc cmdset i func)]

/-- A command set with more nodes. -/
structure Extends (cmdset : CommandSet φ) (path : Nat → List (List Byte)) (cmdset' : CommandSet φ)
    (path' : Nat → List (List Byte)) : Prop where
  addressed : cmdset'.tree.Addressed path'
  size : cmdset.size ≤ cmdset'.size
  path : ∀ i < cmdset.size, path' i = path i
  cmdstr : ∀ i < cmdset.size, (cmdset'.node i).cmdstr = (cmdset.node i).cmdstr
  func : ∀ i < cmdset.size, (cmdset'.node i).func = (cmdset.node i).func
  new : ∀ i, cmdset.size ≤ i → i < cmdset'.size →
    (cmdset'.node i).func = none ∧ space ∉ (cmdset'.node i).cmdstr

namespace Extends

variable {a b c : CommandSet φ} {pathA pathB pathC : Nat → List (List Byte)}

theorem refl (h : a.tree.Addressed pathA) : Extends a pathA a pathA where
  addressed := h
  size := Nat.le_refl _
  path := fun _ _ => rfl
  cmdstr := fun _ _ => rfl
  func := fun _ _ => rfl
  new := fun _ old new => absurd new (Nat.not_lt.mpr old)

theorem trans (h : Extends a pathA b pathB) (h' : Extends b pathB c pathC) :
    Extends a pathA c pathC where
  addressed := h'.addressed
  size := h.size.trans h'.size
  path := fun i hi => (h'.path i (hi.trans_le h.size)).trans (h.path i hi)
  cmdstr := fun i hi => (h'.cmdstr i (hi.trans_le h.size)).trans (h.cmdstr i hi)
  func := fun i hi => (h'.func i (hi.trans_le h.size)).trans (h.func i hi)
  new := by
    intro i old hi
    by_cases before : i < b.size
    · rw [h'.func i before, h'.cmdstr i before]
      exact h.new i old before
    · exact h'.new i (Nat.not_lt.mp before) hi

end Extends

end CommandSet

section
variable {cmdset : CommandSet φ} (place : Placement φ) {path : Nat → List (List Byte)}

open CommandSet

/-! ## What installing does -/

section
variable {parent : Nat} (inside : parent < cmdset.size) (word : List Byte)
  (helpstr : Option (List Byte))

theorem commandNodeAdd_old {i : Nat} (hi : i < cmdset.size) (other : i ≠ parent) :
    (commandNodeAdd cmdset place parent word helpstr).1.node i = cmdset.node i := by
  simp [commandNodeAdd, update, other, Nat.ne_of_lt hi]

include inside

theorem commandNodeAdd_new :
    (commandNodeAdd cmdset place parent word helpstr).1.node cmdset.size =
      ⟨word, helpstr, none, []⟩ := by
  simp [commandNodeAdd, update, Nat.ne_of_gt inside]

/-- The parent has one more child, wherever that is placed. -/
theorem commandNodeAdd_parent (j : Nat) :
    j ∈ ((commandNodeAdd cmdset place parent word helpstr).1.node parent).cmdvec ↔
      j ∈ (cmdset.node parent).cmdvec ∨ j = cmdset.size := by
  simp [commandNodeAdd, update, Nat.ne_of_lt inside, (place.perm _ _).mem_iff]

/-- But for their children, the old nodes are as they were. -/
theorem commandNodeAdd_same {i : Nat} (hi : i < cmdset.size) :
    ((commandNodeAdd cmdset place parent word helpstr).1.node i).cmdstr = (cmdset.node i).cmdstr ∧
    ((commandNodeAdd cmdset place parent word helpstr).1.node i).func = (cmdset.node i).func := by
  by_cases here : i = parent
  · subst here
    simp [commandNodeAdd, update, Nat.ne_of_lt inside]
  · rw [commandNodeAdd_old place word helpstr hi here]
    exact ⟨rfl, rfl⟩

theorem commandNodeAdd_grows :
    cmdset.tree.Grows parent word (commandNodeAdd cmdset place parent word helpstr).1.tree where
  size := rfl
  new_label := congrArg CommandNode.cmdstr (commandNodeAdd_new place inside word helpstr)
  label := fun _ hi => (commandNodeAdd_same place inside word helpstr hi).1
  new_children := congrArg CommandNode.cmdvec (commandNodeAdd_new place inside word helpstr)
  parent_children := commandNodeAdd_parent place inside word helpstr
  children := fun _ hi other =>
    congrArg CommandNode.cmdvec (commandNodeAdd_old place word helpstr hi other)

end

/-- The node of the word is there afterwards, and the nodes there were stay. -/
theorem installWord_extends (h : cmdset.tree.Addressed path) {parent : Nat}
    (inside : parent < cmdset.size) {word : List Byte} (whole : space ∉ word)
    (helpstr : Option (List Byte)) :
    ∃ path', Extends cmdset path (installWord cmdset place parent word helpstr).1 path' ∧
      (installWord cmdset place parent word helpstr).2 <
        (installWord cmdset place parent word helpstr).1.size ∧
      path' (installWord cmdset place parent word helpstr).2 = path parent ++ [word] := by
  rw [installWord]
  cases exact : commandMatchExact cmdset parent word with
  | some node =>
      obtain ⟨child, rfl⟩ := mem_of_commandMatchExact exact
      exact ⟨path, .refl h, h.child parent inside node child⟩
  | none =>
      have grows := commandNodeAdd_grows place inside word helpstr
      have addressed := h.grow inside (commandMatchExact_eq_none.mp exact) grows
      refine ⟨_, ⟨addressed, Nat.le_succ _, ?_, ?_, ?_, ?_⟩, Nat.lt_succ_self _, ?_⟩
      · intro i hi
        exact Function.update_of_ne (Nat.ne_of_lt hi) _ _
      · exact fun i hi => (commandNodeAdd_same place inside word helpstr hi).1
      · exact fun i hi => (commandNodeAdd_same place inside word helpstr hi).2
      · intro i old new
        have here : i = cmdset.size := Nat.le_antisymm (Nat.lt_succ_iff.mp new) old
        rw [here, commandNodeAdd_new place inside word helpstr]
        exact ⟨rfl, whole⟩
      · exact Function.update_self _ _ _

theorem installLoop_extends {words : List (List Byte)} (whole : ∀ word ∈ words, space ∉ word)
    (helps : List (List Byte)) (h : cmdset.tree.Addressed path) {parent : Nat}
    (inside : parent < cmdset.size) :
    ∃ path', Extends cmdset path (installLoop place cmdset parent helps words).1 path' ∧
      (installLoop place cmdset parent helps words).2 <
        (installLoop place cmdset parent helps words).1.size ∧
      path' (installLoop place cmdset parent helps words).2 = path parent ++ words := by
  induction words generalizing cmdset path parent helps with
  | nil => exact ⟨path, .refl h, inside, (List.append_nil _).symm⟩
  | cons word words ih =>
      obtain ⟨path₁, more, inside₁, here⟩ := installWord_extends place h inside
        (whole word List.mem_cons_self) helps.head?
      obtain ⟨path₂, more', inside₂, there⟩ :=
        ih (fun w hw => whole w (List.mem_cons_of_mem _ hw)) helps.tail more.addressed inside₁
      refine ⟨path₂, more.trans more', inside₂, ?_⟩
      rw [installLoop, there, here, List.append_assoc, List.singleton_append]

/-! ## The nodes `command_install2` is at -/

/-- The nodes are at these paths. -/
structure At (cmdset : CommandSet φ) (path : Nat → List (List Byte)) (nodes : List Nat)
    (paths : List (List (List Byte))) : Prop where
  inside : ∀ i ∈ nodes, i < cmdset.size
  paths : nodes.map path = paths

/-- What installing comes to: new nodes and the nodes it is at, unless two of these would be at
    one path. -/
def Installs {α : Type} (get : α → CommandSet φ × List Nat) (cmdset : CommandSet φ)
    (path : Nat → List (List Byte)) (paths : List (List (List Byte))) : Except Stop α → Prop
  | .ok a => ∃ path', Extends cmdset path (get a).1 path' ∧ At (get a).1 path' (get a).2 paths
  | .error _ => ¬ paths.Nodup

theorem At.extends {cmdset' : CommandSet φ} {path' : Nat → List (List Byte)} {nodes : List Nat}
    {paths : List (List (List Byte))} (h : At cmdset path nodes paths)
    (more : Extends cmdset path cmdset' path') : At cmdset' path' nodes paths where
  inside := fun i hi => (h.inside i hi).trans_le more.size
  paths := (List.map_congr_left fun i hi => more.path i (h.inside i hi)).trans h.paths

theorem Installs.of_extends {α : Type} {get : α → CommandSet φ × List Nat} {cmdset' : CommandSet φ}
    {path' : Nat → List (List Byte)} {paths : List (List (List Byte))} {r : Except Stop α}
    (more : Extends cmdset path cmdset' path') (h : Installs get cmdset' path' paths r) :
    Installs get cmdset path paths r := by
  cases r with
  | error stop => exact h
  | ok a =>
      obtain ⟨path'', more', nodes⟩ := h
      exact ⟨path'', more.trans more', nodes⟩

theorem Installs.bind {α β : Type} {get : α → CommandSet φ × List Nat}
    {get' : β → CommandSet φ × List Nat} {paths paths' : List (List (List Byte))}
    {r : Except Stop α} {f : α → Except Stop β} (h : Installs get cmdset path paths r)
    (next : ∀ a path', Extends cmdset path (get a).1 path' → At (get a).1 path' (get a).2 paths →
      Installs get' (get a).1 path' paths' (f a))
    (fewer : paths'.Nodup → paths.Nodup) : Installs get' cmdset path paths' (r >>= f) := by
  cases r with
  | error stop => exact fun nodup => h (fewer nodup)
  | ok a =>
      obtain ⟨path', more, nodes⟩ := h
      exact (next a path' more nodes).of_extends more

/-- The next path: an empty subword stands for none. -/
def extendPath (subword : List Byte) (ws : List (List Byte)) : List (List Byte) :=
  if subword = [] then ws else ws ++ [subword]

/-- `vector_add` of a node. -/
theorem vectorAdd_installs {node : Nat} {nodes : List Nat} {paths : List (List (List Byte))}
    (h : cmdset.tree.Addressed path) (nextParents : At cmdset path nodes paths)
    (inside : node < cmdset.size) :
    Installs (fun v => (cmdset, v)) cmdset path (paths ++ [path node]) (vectorAdd node nodes) := by
  rw [vectorAdd]
  split
  · rename_i twice
    have there : path node ∈ paths := nextParents.paths ▸ List.mem_map_of_mem twice
    exact fun nodup => (List.nodup_append.mp nodup).2.2 _ there _ List.mem_cons_self rfl
  · refine ⟨path, .refl h, ?_, ?_⟩
    · intro i hi
      rcases List.mem_append.mp hi with hi | hi
      · exact nextParents.inside i hi
      · exact (List.mem_singleton.mp hi) ▸ inside
    · rw [List.map_append, nextParents.paths, List.map_singleton]

theorem installBelow_installs {subword : List Byte} (whole : space ∉ subword)
    (helpstr : Option (List Byte)) {parents nodes : List Nat} {before paths : List (List (List Byte))}
    (h : cmdset.tree.Addressed path) (nextParents : At cmdset path nodes paths)
    (here : At cmdset path parents before) :
    Installs id cmdset path (paths ++ before.map (extendPath subword))
      (installBelow place subword helpstr cmdset nodes parents) := by
  induction parents generalizing cmdset path nodes before paths with
  | nil =>
      obtain rfl : [] = before := here.paths
      rw [List.map_nil, List.append_nil]
      exact ⟨path, .refl h, nextParents⟩
  | cons parent parents ih =>
      obtain ⟨inside, rfl⟩ := here
      have atParent := inside parent List.mem_cons_self
      have others : At cmdset path parents (parents.map path) :=
        ⟨fun i hi => inside i (List.mem_cons_of_mem _ hi), rfl⟩
      rw [installBelow, List.map_cons, List.map_cons, ← List.singleton_append, ← List.append_assoc]
      split
      · rename_i omitted
        have next : extendPath subword (path parent) = path parent := if_pos omitted
        rw [next]
        refine (vectorAdd_installs h nextParents atParent).bind ?_
          fun nodup => nodup.sublist (List.sublist_append_left _ _)
        intro v path' more at_v
        exact ih more.addressed at_v (others.extends more)
      · rename_i named
        have next : extendPath subword (path parent) = path parent ++ [subword] := if_neg named
        obtain ⟨path₁, more, inside₁, there⟩ :=
          installWord_extends place h atParent whole helpstr
        rw [next, ← there]
        refine Installs.of_extends more ?_
        refine (vectorAdd_installs more.addressed (nextParents.extends more) inside₁).bind ?_
          fun nodup => nodup.sublist (List.sublist_append_left _ _)
        intro v path' more' at_v
        exact ih more'.addressed at_v ((others.extends more).extends more')

theorem installSubwords_installs {subwords : List (List Byte)}
    (whole : ∀ subword ∈ subwords, space ∉ subword) (helps : List (List Byte))
    {parents nodes : List Nat} {before paths : List (List (List Byte))}
    (h : cmdset.tree.Addressed path) (nextParents : At cmdset path nodes paths)
    (here : At cmdset path parents before) :
    Installs (fun r => (r.1, r.2.1)) cmdset path
      (paths ++ subwords.flatMap fun subword => before.map (extendPath subword))
      (installSubwords place parents cmdset nodes helps subwords) := by
  induction subwords generalizing cmdset path nodes paths helps with
  | nil =>
      rw [List.flatMap_nil, List.append_nil]
      exact ⟨path, .refl h, nextParents⟩
  | cons subword subwords ih =>
      rw [installSubwords, List.flatMap_cons, ← List.append_assoc]
      refine (installBelow_installs place (whole subword List.mem_cons_self) helps.head? h nextParents
        here).bind ?_ fun nodup => nodup.sublist (List.sublist_append_left _ _)
      intro r path' more at_r
      exact ih (fun w hw => whole w (List.mem_cons_of_mem _ hw)) _ more.addressed at_r
        (here.extends more)

/-- The next paths, with each of the alternatives. -/
def extendPaths (before : List (List (List Byte))) (subwords : List (List Byte)) :
    List (List (List Byte)) :=
  subwords.flatMap fun subword => before.map (extendPath subword)

/-- The paths of a specification. -/
def specPaths (commandLine : List Byte) : List (List (List Byte)) :=
  ((strsepTokens commandWordDelimiters commandLine).map subwordsOf).foldl extendPaths [[]]

/-- Paths that meet do not part. -/
theorem nodup_of_extendPaths {before : List (List (List Byte))} {levels : List (List (List Byte))}
    (some_level : ∀ subwords ∈ levels, subwords ≠ [])
    (nodup : (levels.foldl extendPaths before).Nodup) : before.Nodup := by
  induction levels generalizing before with
  | nil => exact nodup
  | cons subwords levels ih =>
      have after := ih (fun l hl => some_level l (List.mem_cons_of_mem _ hl)) nodup
      cases subwords with
      | nil => exact absurd rfl (some_level [] List.mem_cons_self)
      | cons subword subwords =>
          rw [extendPaths, List.flatMap_cons] at after
          exact (after.sublist (List.sublist_append_left _ _)).of_map _

/-- A part of a word without a space has none either. -/
theorem subwordsOf_whole {word : List Byte} (whole : space ∉ word) :
    ∀ subword ∈ subwordsOf word, space ∉ subword := by
  intro subword mem inside
  have inWord := (mem_of_mem_strsepTokens mem inside).1
  have before := (List.takeWhile_sublist _).mem inWord
  split at before
  · exact whole ((List.dropWhile_sublist _).mem (List.mem_of_mem_drop before))
  · exact whole before

theorem subwordsOf_ne_nil (word : List Byte) : subwordsOf word ≠ [] := strsepTokens_ne_nil _ _

theorem installWords_installs {words : List (List Byte)} (whole : ∀ word ∈ words, space ∉ word)
    (helps : List (List Byte)) {parents : List Nat} {before : List (List (List Byte))}
    (h : cmdset.tree.Addressed path) (here : At cmdset path parents before) :
    Installs id cmdset path ((words.map subwordsOf).foldl extendPaths before)
      (installWords place cmdset parents helps words) := by
  induction words generalizing cmdset path parents before helps with
  | nil => exact ⟨path, .refl h, here⟩
  | cons word words ih =>
      rw [installWords, List.map_cons, List.foldl_cons]
      have level : Installs (fun r => (r.1, r.2.1)) cmdset path (extendPaths before (subwordsOf word))
          (installSubwords place parents cmdset [] helps (subwordsOf word)) :=
        installSubwords_installs place (subwordsOf_whole (whole word List.mem_cons_self)) helps h
          ⟨fun _ hi => absurd hi List.not_mem_nil, rfl⟩ here
      refine level.bind ?_ ?_
      · intro r path' more at_r
        exact ih (fun w hw => whole w (List.mem_cons_of_mem _ hw)) _ more.addressed at_r
      · refine nodup_of_extendPaths ?_
        intro subwords mem
        obtain ⟨w, _, rfl⟩ := List.mem_map.mp mem
        exact subwordsOf_ne_nil w

/-! ## What a command set denotes -/

/-- The functions of a command set, by the words that lead to them. -/
structure Denotes (cmdset : CommandSet φ) (path : Nat → List (List Byte))
    (table : List (List Byte) → Option φ) : Prop where
  addressed : cmdset.tree.Addressed path
  whole : ∀ i < cmdset.size, space ∉ (cmdset.node i).cmdstr
  func : ∀ i < cmdset.size, (cmdset.node i).func = table (path i)
  present : ∀ ws, table ws ≠ none → ∃ i < cmdset.size, path i = ws

/-- The table with a function at these paths. -/
def installed (table : List (List Byte) → Option φ) (paths : List (List (List Byte))) (func : φ) :
    List (List Byte) → Option φ :=
  fun ws => if ws ∈ paths then some func else table ws

namespace Denotes

variable {table : List (List Byte) → Option φ}

/-- New nodes have no function yet. -/
theorem mono {cmdset' : CommandSet φ} {path' : Nat → List (List Byte)}
    (h : Denotes cmdset path table) (more : Extends cmdset path cmdset' path') :
    Denotes cmdset' path' table where
  addressed := more.addressed
  whole := by
    intro i hi
    by_cases old : i < cmdset.size
    · rw [more.cmdstr i old]
      exact h.whole i old
    · exact (more.new i (Nat.not_lt.mp old) hi).2
  func := by
    intro i hi
    by_cases old : i < cmdset.size
    · rw [more.func i old, more.path i old]
      exact h.func i old
    · rw [(more.new i (Nat.not_lt.mp old) hi).1]
      by_contra other
      obtain ⟨k, hk, same⟩ := h.present (path' i) (Ne.symm other)
      have twice := more.addressed.inj k (hk.trans_le more.size) i hi ((more.path k hk).trans same)
      exact old (twice ▸ hk)
  present := by
    intro ws entry
    obtain ⟨i, hi, rfl⟩ := h.present ws entry
    exact ⟨i, hi.trans_le more.size, more.path i hi⟩

theorem setFunc (h : Denotes cmdset path table) {node : Nat} (inside : node < cmdset.size)
    (func : φ) : Denotes (cmdset.setFunc node func) path (installed table [path node] func) where
  addressed := by
    rw [tree_setFunc]
    exact h.addressed
  whole := by
    intro i hi
    rw [cmdstr_setFunc]
    exact h.whole i hi
  func := by
    intro i hi
    rw [CommandSet.setFunc, installed]
    by_cases here : i = node
    · rw [here, node_update_self, if_pos List.mem_cons_self]
    · have there : path i ∉ [path node] := fun mem =>
        here (h.addressed.inj i hi node inside (List.mem_singleton.mp mem))
      rw [node_update_of_ne cmdset here, if_neg there]
      exact h.func i hi
  present := by
    intro ws entry
    rw [installed] at entry
    split at entry
    · rename_i here
      exact ⟨node, inside, (List.mem_singleton.mp here).symm⟩
    · exact h.present ws entry

/-- The last loop of `command_install2`. -/
theorem setFuncs (h : Denotes cmdset path table) {nodes : List Nat}
    {paths : List (List (List Byte))} (here : At cmdset path nodes paths) (func : φ) :
    Denotes (nodes.foldl (fun cmdset node => cmdset.setFunc node func) cmdset) path
      (installed table paths func) := by
  obtain ⟨inside, rfl⟩ := here
  induction nodes generalizing cmdset table with
  | nil =>
      have same : installed table [] func = table := by
        funext ws
        exact if_neg List.not_mem_nil
      rw [List.map_nil, same]
      exact h
  | cons node nodes ih =>
      have next := ih (h.setFunc (inside node List.mem_cons_self) func) fun i hi =>
        inside i (List.mem_cons_of_mem _ hi)
      have same : installed (installed table [path node] func) (nodes.map path) func =
          installed table ((node :: nodes).map path) func := by
        funext ws
        simp only [installed, List.map_cons, List.mem_cons, List.not_mem_nil, or_false]
        split <;> split <;> simp_all
      rw [← same]
      exact next

/-- `command_set_create`. -/
theorem create : Denotes (commandSetCreate : CommandSet φ) (fun _ => []) fun _ => none where
  addressed := by
    refine ⟨Nat.one_pos, rfl, ?_, ?_, ?_⟩
    · intro i hi j hj _
      rw [Nat.lt_one_iff.mp hi, Nat.lt_one_iff.mp hj]
    · intro i _ j hj
      exact absurd hj List.not_mem_nil
    · intro j hj other
      exact absurd (Nat.lt_one_iff.mp hj) other
  whole := fun _ _ => List.not_mem_nil
  func := fun _ _ => rfl
  present := fun _ entry => absurd rfl entry

theorem words_whole (line : List Byte) :
    ∀ word ∈ strsepTokens commandWordDelimiters line, space ∉ word := by
  intro word mem inside
  exact (mem_of_mem_strsepTokens mem inside).2 List.mem_cons_self

/-- `command_install` puts the function where the words lead. -/
theorem install (h : Denotes cmdset path table) (commandLine helpString : List Byte) (func : φ) :
    ∃ path', Denotes (commandInstall cmdset place commandLine helpString func) path'
      (installed table [strsepTokens commandWordDelimiters commandLine] func) := by
  obtain ⟨path', more, inside, here⟩ := installLoop_extends place
    (words_whole commandLine) (strsepTokens commandHelpDelimiters helpString) h.addressed
    h.addressed.nonempty
  refine ⟨path', ?_⟩
  have there := (h.mono more).setFunc inside func
  rw [here, h.addressed.root, List.nil_append] at there
  exact there

theorem install2_installs (h : Denotes cmdset path table) (commandLine helpString : List Byte) :
    Installs id cmdset path (specPaths commandLine) (installWords place cmdset [CommandSet.root]
      (strsepTokens commandHelpDelimiters helpString)
      (strsepTokens commandWordDelimiters commandLine)) := by
  refine installWords_installs place (words_whole commandLine) _ h.addressed ⟨?_, ?_⟩
  · intro i hi
    rw [List.mem_singleton.mp hi]
    exact h.addressed.nonempty
  · exact congrArg (fun ws => [ws]) h.addressed.root

/-- `command_install2` puts the function at each path of the specification. -/
theorem install2 (h : Denotes cmdset path table) {commandLine helpString : List Byte} {func : φ}
    {cmdset' : CommandSet φ}
    (ran : commandInstall2 cmdset place commandLine helpString func = .ok cmdset') :
    ∃ path', Denotes cmdset' path' (installed table (specPaths commandLine) func) := by
  have loop := h.install2_installs place commandLine helpString
  obtain ⟨r, words, done⟩ := bind_ok ran
  rw [words] at loop
  obtain ⟨path', more, here⟩ := loop
  rcases done with ⟨⟩
  exact ⟨path', (h.mono more).setFuncs here func⟩

/-- It does not end early if these paths differ. -/
theorem install2_ok (h : Denotes cmdset path table) {commandLine : List Byte}
    (nodup : (specPaths commandLine).Nodup) (helpString : List Byte) (func : φ) :
    ∃ cmdset', commandInstall2 cmdset place commandLine helpString func = .ok cmdset' := by
  have loop := h.install2_installs place commandLine helpString
  rw [commandInstall2]
  cases words : installWords place cmdset [CommandSet.root]
      (strsepTokens commandHelpDelimiters helpString)
      (strsepTokens commandWordDelimiters commandLine) with
  | error stop =>
      rw [words] at loop
      exact absurd nodup loop
  | ok r => exact ⟨_, rfl⟩

end Denotes

end

/-- The command sets that can be: those made, and filled by `command_install` and
    `command_install2`. -/
inductive Built (place : Placement φ) : CommandSet φ → Prop
  | create : Built place commandSetCreate
  | install {cmdset : CommandSet φ} (built : Built place cmdset)
      (commandLine helpString : List Byte) (func : φ) :
      Built place (commandInstall cmdset place commandLine helpString func)
  | install2 {cmdset cmdset' : CommandSet φ} {commandLine helpString : List Byte} {func : φ}
      (built : Built place cmdset)
      (ran : commandInstall2 cmdset place commandLine helpString func = .ok cmdset') :
      Built place cmdset'

theorem Built.denotes {place : Placement φ} {cmdset : CommandSet φ} (built : Built place cmdset) :
    ∃ path table, Denotes cmdset path table := by
  induction built with
  | create => exact ⟨_, _, Denotes.create⟩
  | install _ commandLine helpString func ih =>
      obtain ⟨path, table, h⟩ := ih
      obtain ⟨path', h'⟩ := h.install place commandLine helpString func
      exact ⟨path', _, h'⟩
  | install2 _ ran ih =>
      obtain ⟨path, table, h⟩ := ih
      obtain ⟨path', h'⟩ := h.install2 _ ran
      exact ⟨path', _, h'⟩

end Sdplane
