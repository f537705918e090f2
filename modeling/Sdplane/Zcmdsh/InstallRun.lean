import Sdplane.Misc.PathList
import Sdplane.Zcmdsh.CommandTree

/-!
# Installing one command after another

The nodes there are, and the order they come in, depend on the commands alone: `createdPaths`
lists the paths of the nodes. Where `vector_sort` puts a node among its siblings is all that the
placement decides.
-/

namespace Sdplane

variable {φ : Type}

/-- `struct command_header`. -/
structure CommandHeader (φ : Type) where
  cmdstr : List Byte
  helpstr : List Byte
  cmdfunc : φ

/-- A call of `command_install` or `command_install2`. -/
inductive InstallCall (φ : Type) where
  | install (header : CommandHeader φ)
  | install2 (header : CommandHeader φ)

def InstallCall.run (place : Placement φ) (cmdset : CommandSet φ) :
    InstallCall φ → Except Stop (CommandSet φ)
  | .install header => .ok (commandInstall cmdset place header.cmdstr header.helpstr header.cmdfunc)
  | .install2 header => commandInstall2 cmdset place header.cmdstr header.helpstr header.cmdfunc

/-- The calls one after another, from an empty command set. -/
def installRun (place : Placement φ) (calls : List (InstallCall φ)) : Except Stop (CommandSet φ) :=
  calls.foldlM (InstallCall.run place) commandSetCreate

/-! ## The paths of the nodes -/

/-- The paths `command_install2` comes by, level after level. -/
def levelPaths (before : List (List (List Byte))) :
    List (List (List Byte)) → List (List (List Byte))
  | [] => []
  | subwords :: levels =>
      extendPaths before subwords ++ levelPaths (extendPaths before subwords) levels

/-- The paths a call comes by. -/
def InstallCall.paths : InstallCall φ → List (List (List Byte))
  | .install header => pathsOn [] (strsepTokens commandWordDelimiters header.cmdstr)
  | .install2 header =>
      levelPaths [[]] ((strsepTokens commandWordDelimiters header.cmdstr).map subwordsOf)

/-- No two nodes that `command_install2` puts the function at are the same. -/
def InstallCall.Distinct : InstallCall φ → Prop
  | .install _ => True
  | .install2 header => (specPaths header.cmdstr).Nodup

/-- The functions there are after a call. -/
def InstallCall.table (table : List (List Byte) → Option φ) :
    InstallCall φ → List (List Byte) → Option φ
  | .install header =>
      installed table [strsepTokens commandWordDelimiters header.cmdstr] header.cmdfunc
  | .install2 header => installed table (specPaths header.cmdstr) header.cmdfunc

/-- The paths of the nodes that the calls make, in the order of the nodes. -/
def createdPaths (calls : List (InstallCall φ)) : List (List (List Byte)) :=
  (calls.flatMap InstallCall.paths).foldl addPath [[]]

/-! ## What a run keeps -/

/-- What installing does with a word and with a function keeps `Q`. -/
structure Keeps (place : Placement φ) (Q : CommandSet φ → Prop) : Prop where
  word : ∀ {cmdset}, Q cmdset → ∀ parent word helpstr,
    Q (installWord cmdset place parent word helpstr).1
  func : ∀ {cmdset}, Q cmdset → ∀ node func, Q (cmdset.setFunc node func)

/-- The nodes are at these paths, none is a child twice, and the command set satisfies `Q`. -/
structure Listed (Q : CommandSet φ → Prop) (cmdset : CommandSet φ)
    (paths : List (List (List Byte))) : Prop where
  lists : cmdset.tree.Lists paths
  nodup : ∀ i < cmdset.size, (cmdset.node i).cmdvec.Nodup
  kept : Q cmdset

section
variable {place : Placement φ} {Q : CommandSet φ → Prop} {cmdset : CommandSet φ}
  {paths : List (List (List Byte))}

open CommandSet

/-- The children there are after a node was added: those of the parent are sorted. -/
theorem commandNodeAdd_cmdvec (cmdset : CommandSet φ) (place : Placement φ) (parent : Nat)
    (word : List Byte) (helpstr : Option (List Byte)) (i : Nat) :
    ((commandNodeAdd cmdset place parent word helpstr).1.node i).cmdvec = (cmdset.node i).cmdvec ∨
    ((commandNodeAdd cmdset place parent word helpstr).1.node i).cmdvec = [] ∨
    ∃ (sorting : CommandSet φ) (v : List Nat),
      ((commandNodeAdd cmdset place parent word helpstr).1.node i).cmdvec =
        place.sort sorting v := by
  by_cases here : i = parent
  · subst here
    exact .inr (.inr ⟨_, _, by simp [commandNodeAdd, update]; rfl⟩)
  · by_cases new : i = cmdset.size
    · subst new
      refine .inr (.inl ?_)
      simp [commandNodeAdd, update, here]
    · refine .inl ?_
      simp [commandNodeAdd, update, here, new]

theorem commandNodeAdd_parent_perm (place : Placement φ) {parent : Nat}
    (inside : parent < cmdset.size) (word : List Byte) (helpstr : Option (List Byte)) :
    ((commandNodeAdd cmdset place parent word helpstr).1.node parent).cmdvec.Perm
      ((cmdset.node parent).cmdvec ++ [cmdset.size]) := by
  have other : parent ≠ cmdset.size := Nat.ne_of_lt inside
  simp only [commandNodeAdd, update, Function.update_self, Function.update_of_ne other]
  exact place.perm _ _

namespace Listed

/-- The node of the word is at the path of its parent and the word. -/
theorem installWord (keeps : Keeps place Q) (h : Listed Q cmdset paths) {parent : Nat}
    {ws : List (List Byte)} (here : PathAt paths parent ws) (word : List Byte)
    (helpstr : Option (List Byte)) :
    Listed Q (Sdplane.installWord cmdset place parent word helpstr).1
        (addPath paths (ws ++ [word])) ∧
      PathAt (addPath paths (ws ++ [word]))
        (Sdplane.installWord cmdset place parent word helpstr).2 (ws ++ [word]) := by
  have inside := h.lists.lt_size here
  have kept := keeps.word h.kept parent word helpstr
  rw [Sdplane.installWord] at kept ⊢
  cases exact_ : commandMatchExact cmdset parent word with
  | some node =>
      obtain ⟨child, rfl⟩ := mem_of_commandMatchExact exact_
      have there : PathAt paths node (ws ++ [(cmdset.node node).cmdstr]) := h.lists.child here child
      rw [addPath_of_mem there.mem]
      exact ⟨h, there⟩
  | none =>
      rw [exact_] at kept
      have other := commandMatchExact_eq_none.mp exact_
      have grows := commandNodeAdd_grows place inside word helpstr
      have new : ws ++ [word] ∉ paths := by
        intro there
        obtain ⟨j, at_j⟩ := PathAt.of_mem there
        obtain ⟨child, same⟩ := h.lists.mem_children here at_j
        exact other j child same
      rw [addPath_of_not_mem new]
      refine ⟨⟨h.lists.grow here other grows, ?_, kept⟩, ?_⟩
      · intro i hi
        by_cases at_parent : i = parent
        · rw [at_parent, (commandNodeAdd_parent_perm place inside word helpstr).nodup_iff]
          refine List.nodup_append.mpr ⟨h.nodup parent inside, List.nodup_singleton _, ?_⟩
          rintro j child _ fresh rfl
          rw [List.mem_singleton.mp fresh] at child
          exact Nat.lt_irrefl _ (h.lists.addressed.child parent inside _ child).1
        · rcases Nat.lt_succ_iff_lt_or_eq.mp hi with old | rfl
          · rw [commandNodeAdd_old place word helpstr old at_parent]
            exact h.nodup i old
          · rw [commandNodeAdd_new place inside word helpstr]
            exact List.nodup_nil
      · change PathAt _ cmdset.size _
        rw [show cmdset.size = paths.length from h.lists.size]
        exact PathAt.last paths _

theorem setFunc (keeps : Keeps place Q) (h : Listed Q cmdset paths) (node : Nat) (func : φ) :
    Listed Q (cmdset.setFunc node func) paths where
  lists := by
    rw [tree_setFunc]
    exact h.lists
  nodup := by
    intro i hi
    rw [cmdvec_setFunc]
    exact h.nodup i hi
  kept := keeps.func h.kept node func

theorem installLoop (keeps : Keeps place Q) (h : Listed Q cmdset paths) {parent : Nat}
    {ws : List (List Byte)} (here : PathAt paths parent ws) (helps words : List (List Byte)) :
    Listed Q (Sdplane.installLoop place cmdset parent helps words).1
      ((pathsOn ws words).foldl addPath paths) := by
  induction words generalizing cmdset paths parent ws helps with
  | nil => exact h
  | cons word words ih =>
      obtain ⟨next, there⟩ := h.installWord keeps here word helps.head?
      exact ih next there _

end Listed

/-! ## The levels of `command_install2` -/

/-- The nodes of a level. -/
def NodesAt (paths : List (List (List Byte))) (nodes : List Nat)
    (level : List (List (List Byte))) : Prop := List.Forall₂ (PathAt paths) nodes level

theorem NodesAt.mono {more level : List (List (List Byte))} {nodes : List Nat}
    (h : NodesAt paths nodes level) (longer : paths <+: more) : NodesAt more nodes level :=
  List.Forall₂.imp (fun _ _ here => here.mono longer) h

theorem NodesAt.of_mem {level : List (List (List Byte))} {nodes : List Nat} {ws : List (List Byte)}
    (h : NodesAt paths nodes level) (mem : ws ∈ level) : ∃ i ∈ nodes, PathAt paths i ws := by
  induction h with
  | nil => exact absurd mem List.not_mem_nil
  | cons here _ ih =>
      rcases List.mem_cons.mp mem with rfl | mem
      · exact ⟨_, List.mem_cons_self, here⟩
      · obtain ⟨i, inside, there⟩ := ih mem
        exact ⟨i, List.mem_cons_of_mem _ inside, there⟩

theorem NodesAt.snoc {level : List (List (List Byte))} {nodes : List Nat} {node : Nat}
    {ws : List (List Byte)} (h : NodesAt paths nodes level) (here : PathAt paths node ws) :
    NodesAt paths (nodes ++ [node]) (level ++ [ws]) :=
  List.rel_append h (.cons here .nil)

theorem vectorAdd_returns (node : Nat) (nodes : List Nat) :
    Returns (vectorAdd node nodes) fun v => v = nodes ++ [node] ∧ node ∉ nodes := by
  rw [vectorAdd]
  split
  · exact .error _
  · rename_i new
    exact .ok ⟨rfl, new⟩

/-- The nodes there are, and those of the level that is next. -/
structure LevelListed (Q : CommandSet φ → Prop) (paths : List (List (List Byte)))
    (cmdset : CommandSet φ) (nodes : List Nat) (level : List (List (List Byte))) : Prop where
  listed : Listed Q cmdset paths
  here : NodesAt paths nodes level
  nodup : nodes.Nodup

namespace LevelListed

variable {nodes parents : List Nat} {level before : List (List (List Byte))}

/-- As no node is twice in a level, no path is. -/
theorem level_nodup (h : LevelListed Q paths cmdset nodes level) : level.Nodup := by
  obtain ⟨listed, here, nodup⟩ := h
  induction here with
  | nil => exact List.nodup_nil
  | cons here others ih =>
      obtain ⟨new, nodup⟩ := List.nodup_cons.mp nodup
      refine List.nodup_cons.mpr ⟨fun twice => ?_, ih nodup⟩
      obtain ⟨i, inside, there⟩ := NodesAt.of_mem others twice
      exact new (listed.lists.inj here there ▸ inside)

theorem installBelow (keeps : Keeps place Q) (h : LevelListed Q paths cmdset nodes level)
    (here : NodesAt paths parents before) (subword : List Byte) (helpstr : Option (List Byte)) :
    Returns (Sdplane.installBelow place subword helpstr cmdset nodes parents) fun r =>
      LevelListed Q ((before.map (extendPath subword)).foldl addPath paths) r.1 r.2
        (level ++ before.map (extendPath subword)) := by
  induction parents generalizing cmdset paths nodes level before with
  | nil =>
      cases here
      rw [List.map_nil, List.append_nil]
      exact .ok h
  | cons parent parents ih =>
      cases here with
      | @cons _ ws _ before atParent others =>
          rw [Sdplane.installBelow, List.map_cons, List.append_cons, List.foldl_cons]
          have longer := prefix_addPath paths (extendPath subword ws)
          -- the rest, once the node for this parent is there
          have rest : ∀ {cmdset : CommandSet φ} {node : Nat},
              Listed Q cmdset (addPath paths (extendPath subword ws)) →
              PathAt (addPath paths (extendPath subword ws)) node (extendPath subword ws) →
              Returns (do
                let nextParents ← vectorAdd node nodes
                Sdplane.installBelow place subword helpstr cmdset nextParents parents) fun r =>
                LevelListed Q ((before.map (extendPath subword)).foldl addPath
                    (addPath paths (extendPath subword ws))) r.1 r.2
                  (level ++ [extendPath subword ws] ++ before.map (extendPath subword)) := by
            intro cmdset node listed there
            refine (vectorAdd_returns node nodes).bind ?_
            rintro _ ⟨rfl, new⟩
            have nodup := (List.perm_append_singleton node nodes).symm.nodup
              (List.nodup_cons.mpr ⟨new, h.nodup⟩)
            exact ih ⟨listed, (h.here.mono longer).snoc there, nodup⟩ (NodesAt.mono others longer)
          split
          · rename_i omitted
            have same : extendPath subword ws = ws := if_pos omitted
            have known : addPath paths ws = paths := addPath_of_mem atParent.mem
            rw [same, known] at rest ⊢
            exact rest h.listed atParent
          · rename_i named
            have longer : extendPath subword ws = ws ++ [subword] := if_neg named
            obtain ⟨listed, there⟩ := h.listed.installWord keeps atParent subword helpstr
            rw [longer] at rest ⊢
            exact rest listed there

theorem installSubwords (keeps : Keeps place Q) (h : LevelListed Q paths cmdset nodes level)
    (here : NodesAt paths parents before) (helps subwords : List (List Byte)) :
    Returns (Sdplane.installSubwords place parents cmdset nodes helps subwords) fun r =>
      LevelListed Q ((extendPaths before subwords).foldl addPath paths) r.1 r.2.1
        (level ++ extendPaths before subwords) := by
  induction subwords generalizing cmdset paths nodes level helps with
  | nil =>
      rw [extendPaths, List.flatMap_nil, List.append_nil]
      exact .ok h
  | cons subword subwords ih =>
      rw [Sdplane.installSubwords, extendPaths, List.flatMap_cons, List.foldl_append,
        ← List.append_assoc]
      refine (h.installBelow keeps here subword helps.head?).bind ?_
      rintro ⟨cmdset, nodes⟩ below
      exact ih below (here.mono (prefix_addPaths paths _)) _

theorem installWords (keeps : Keeps place Q) (h : LevelListed Q paths cmdset parents before)
    (helps words : List (List Byte)) :
    Returns (Sdplane.installWords place cmdset parents helps words) fun r =>
      LevelListed Q ((levelPaths before (words.map subwordsOf)).foldl addPath paths) r.1 r.2
        ((words.map subwordsOf).foldl extendPaths before) := by
  induction words generalizing cmdset paths parents before helps with
  | nil => exact .ok h
  | cons word words ih =>
      rw [Sdplane.installWords, List.map_cons, levelPaths, List.foldl_append]
      have start : LevelListed Q paths cmdset [] [] := ⟨h.listed, .nil, List.nodup_nil⟩
      refine (start.installSubwords keeps h.here helps (subwordsOf word)).bind ?_
      rintro ⟨cmdset, parents, helps⟩ next
      exact ih next helps

end LevelListed

namespace Listed

/-- A call adds the paths it comes by. -/
theorem run (keeps : Keeps place Q) (h : Listed Q cmdset paths) (call : InstallCall φ) :
    Returns (call.run place cmdset) fun cmdset' =>
      Listed Q cmdset' (call.paths.foldl addPath paths) ∧ call.Distinct := by
  cases call with
  | install header => exact .ok ⟨(h.installLoop keeps h.lists.root _ _).setFunc keeps _ _, trivial⟩
  | install2 header =>
      have start : LevelListed Q paths cmdset [root] [[]] :=
        ⟨h, .cons h.lists.root .nil, List.nodup_singleton _⟩
      refine (start.installWords keeps _ _).bind ?_
      rintro ⟨cmdset, parents⟩ level
      refine .ok ⟨?_, level.level_nodup⟩
      have listed := level.listed
      clear level
      induction parents generalizing cmdset with
      | nil => exact listed
      | cons node nodes ih => exact ih _ (listed.setFunc keeps node header.cmdfunc)

/-- So do any number of calls. -/
theorem runs (keeps : Keeps place Q) (h : Listed Q cmdset paths) (calls : List (InstallCall φ)) :
    Returns (calls.foldlM (InstallCall.run place) cmdset) fun cmdset' =>
      Listed Q cmdset' ((calls.flatMap InstallCall.paths).foldl addPath paths) ∧
        ∀ call ∈ calls, call.Distinct := by
  induction calls generalizing cmdset paths with
  | nil => exact .ok ⟨h, fun _ none_ => absurd none_ List.not_mem_nil⟩
  | cons call calls ih =>
      rw [List.foldlM_cons, List.flatMap_cons, List.foldl_append]
      refine (h.run keeps call).bind fun cmdset' next => ?_
      refine (ih next.1).imp fun cmdset'' rest => ⟨rest.1, ?_⟩
      exact List.forall_mem_cons.mpr ⟨next.2, rest.2⟩

end Listed

/-- After a run the nodes are at the paths of the calls, wherever they are placed. -/
theorem installRun_listed (keeps : Keeps place Q) (create : Q commandSetCreate)
    (calls : List (InstallCall φ)) :
    Returns (installRun place calls) fun cmdset =>
      Listed Q cmdset (createdPaths calls) ∧ ∀ call ∈ calls, call.Distinct := by
  have start : Listed Q (commandSetCreate : CommandSet φ) [[]] := by
    refine ⟨⟨rfl, ?_⟩, fun _ _ => List.nodup_nil, create⟩
    refine ⟨Nat.one_pos, rfl, ?_, fun _ _ _ child => absurd child List.not_mem_nil, ?_⟩
    · intro i hi j hj _
      rw [Nat.lt_one_iff.mp hi, Nat.lt_one_iff.mp hj]
    · exact fun j hj other => absurd (Nat.lt_one_iff.mp hj) other
  exact start.runs keeps calls

/-- Calls that name no path twice do not end early, and leave the functions at their paths. -/
theorem Denotes.runs {path : Nat → List (List Byte)} {table : List (List Byte) → Option φ}
    (place : Placement φ) (h : Denotes cmdset path table) {calls : List (InstallCall φ)}
    (distinct : ∀ call ∈ calls, call.Distinct) :
    ∃ cmdset' path', calls.foldlM (InstallCall.run place) cmdset = .ok cmdset' ∧
      Denotes cmdset' path' (calls.foldl InstallCall.table table) := by
  induction calls generalizing cmdset path table with
  | nil => exact ⟨cmdset, path, rfl, h⟩
  | cons call calls ih =>
      obtain ⟨first, others⟩ := List.forall_mem_cons.mp distinct
      have step : ∃ cmdset' path', call.run place cmdset = .ok cmdset' ∧
          Denotes cmdset' path' (call.table table) := by
        cases call with
        | install header =>
            obtain ⟨path', next⟩ := h.install place header.cmdstr header.helpstr header.cmdfunc
            exact ⟨_, path', rfl, next⟩
        | install2 header =>
            obtain ⟨cmdset', ran⟩ := h.install2_ok place first header.helpstr header.cmdfunc
            obtain ⟨path', next⟩ := h.install2 place ran
            exact ⟨cmdset', path', ran, next⟩
      obtain ⟨cmdset', path', ran, next⟩ := step
      rw [List.foldlM_cons, ran]
      exact ih next others

theorem installRun_ok (place : Placement φ) {calls : List (InstallCall φ)}
    (distinct : ∀ call ∈ calls, call.Distinct) : ∃ cmdset path,
      installRun place calls = .ok cmdset ∧
        Denotes cmdset path (calls.foldl InstallCall.table fun _ => none) :=
  Denotes.create.runs place distinct

theorem keeps_true (place : Placement φ) : Keeps place fun _ => True where
  word := fun _ _ _ _ => trivial
  func := fun _ _ _ => trivial

/-- Where every order `vector_sort` leaves has a property, so have the children of every node. -/
theorem keeps_pairwise {R : Nat → Nat → Prop}
    (sorted : ∀ cmdset v, (place.sort cmdset v).Pairwise R) :
    Keeps place fun cmdset => ∀ i, (cmdset.node i).cmdvec.Pairwise R where
  word := by
    intro cmdset h parent word helpstr i
    rw [installWord]
    cases commandMatchExact cmdset parent word with
    | some node => exact h i
    | none =>
        rcases commandNodeAdd_cmdvec cmdset place parent word helpstr i with
          same | none_ | ⟨_, _, new⟩
        · exact same ▸ h i
        · exact none_ ▸ List.Pairwise.nil
        · exact new ▸ sorted _ _
  func := by
    intro cmdset h node func i
    rw [cmdvec_setFunc]
    exact h i

end

end Sdplane
