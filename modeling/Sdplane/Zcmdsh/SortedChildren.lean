import Mathlib.Data.List.Lex
import Mathlib.Data.List.Pairwise
import Mathlib.Data.List.Sort
import Mathlib.Data.Prod.Lex
import Sdplane.Misc.ByteMem
import Sdplane.Zcmdsh.Abbreviation
import Sdplane.Zcmdsh.InstallRun

/-!
# The order of the children

`vector_sort` gives `command_node_cmp` the places of two nodes in the array (`vector.c:31-47`,
`command.c:33-39`). What it takes for a node is the place, and what it takes for the string of
the node is the node itself, whose first octets are the address of its string. The children are
in the order of these addresses, as strings.
-/

namespace Sdplane

variable {φ : Type}

/-! ## The comparison -/

/-- What `strcmp` compares: octets are unsigned. -/
def strcmpKey (s : List Byte) : List Nat := s.map BitVec.toNat

/-- The octets of an address in memory, the least significant first, as a string. -/
def pointerString (addr : Nat) : List Byte := (toLe 8 addr).takeWhile (· ≠ 0)

/-- What `command_node_cmp` compares, given the place of a node; `cmdstrAt` is where the strings
    of the nodes are. -/
def slotKey (cmdstrAt : Nat → Nat) (node : Nat) : List Nat :=
  strcmpKey (pointerString (cmdstrAt node))

/-- Where the strings of the nodes are: below what is left to the kernel, so that the highest octet
    of an address is 0. A subword that comes behind several others is one string, with several
    nodes. -/
structure StringPlaces where
  cmdstrAt : Nat → Nat
  userland : ∀ node, cmdstrAt node < 2 ^ 56

/-- What `vector_sort` makes of these places. -/
structure SlotPlacement (φ : Type) (places : StringPlaces) extends Placement φ where
  sorted : ∀ cmdset v,
    (sort cmdset v).Pairwise fun a b => slotKey places.cmdstrAt a ≤ slotKey places.cmdstrAt b

/-- The order `vector_sort` leaves by a key. -/
def keyPlacement {κ : Type} [LinearOrder κ] (key : Nat → κ) : Placement φ where
  sort := fun _ v => v.insertionSort fun a b => key a ≤ key b
  perm := fun _ v => List.perm_insertionSort _ v

theorem keyPlacement_sorted {κ : Type} [LinearOrder κ] (key : Nat → κ) (cmdset : CommandSet φ)
    (v : List Nat) : ((keyPlacement key).sort cmdset v).Pairwise fun a b => key a ≤ key b := by
  have total : Std.Total fun a b => key a ≤ key b := ⟨fun a b => le_total _ _⟩
  have trans : IsTrans Nat fun a b => key a ≤ key b := ⟨fun _ _ _ => le_trans⟩
  exact List.pairwise_insertionSort _ v

/-! ## Sorted children -/

/-- The children of each node are in strictly increasing order of their strings. -/
def ChildrenSorted (cmdset : CommandSet φ) : Prop :=
  ∀ i < cmdset.size, (cmdset.node i).cmdvec.Pairwise fun a b =>
    strcmpKey (cmdset.node a).cmdstr < strcmpKey (cmdset.node b).cmdstr

/-- Of two siblings, the address of the smaller string is the smaller one as a string. -/
def SiblingsAgree (places : StringPlaces) (paths : List (List (List Byte))) : Prop :=
  ∀ ws x y a b, PathAt paths a (ws ++ [x]) → PathAt paths b (ws ++ [y]) →
    strcmpKey x < strcmpKey y → slotKey places.cmdstrAt a < slotKey places.cmdstrAt b

theorem strcmpKey_inj {s t : List Byte} (same : strcmpKey s = strcmpKey t) : s = t :=
  List.map_injective_iff.mpr (fun _ _ => BitVec.eq_of_toNat_eq) same

section
variable {places : StringPlaces} {calls : List (InstallCall φ)} {cmdset : CommandSet φ}

/-- The children are in the order of the addresses; where that is the order of the strings, they
    are sorted. -/
theorem childrenSorted_of_agree (place : SlotPlacement φ places)
    (agree : SiblingsAgree places (createdPaths calls))
    (ran : installRun place.toPlacement calls = .ok cmdset) : ChildrenSorted cmdset := by
  obtain ⟨listed, -⟩ :=
    installRun_listed (keeps_pairwise place.sorted) (fun _ => .nil) calls cmdset ran
  intro i inside
  have here := PathAt.of_lt (inside.trans_eq listed.lists.size)
  refine (List.Pairwise.and (listed.nodup i inside) (listed.kept i)).imp_of_mem ?_
  rintro a b childA childB ⟨other, before⟩
  have atA := listed.lists.child here childA
  have atB := listed.lists.child here childB
  rcases lt_trichotomy (strcmpKey (cmdset.node a).cmdstr) (strcmpKey (cmdset.node b).cmdstr) with
    less | same | more
  · exact less
  · exact absurd (listed.lists.addressed.siblings inside childA childB (strcmpKey_inj same)) other
  · exact absurd before (not_le_of_gt (agree _ _ _ _ _ atB atA more))

/-- The last word of a node's path. -/
def lastWord (paths : List (List (List Byte))) (node : Nat) : List Byte :=
  (paths.getD node []).getLast?.getD []

/-- By the address, and among nodes whose addresses compare alike by the string backwards. -/
def contraryKey (places : StringPlaces) (paths : List (List (List Byte))) (node : Nat) :
    List Nat ×ₗ (List Nat)ᵒᵈ :=
  toLex (slotKey places.cmdstrAt node, OrderDual.toDual (strcmpKey (lastWord paths node)))

theorem contraryKey_le {paths : List (List (List Byte))} {a b : Nat}
    (before : contraryKey places paths a ≤ contraryKey places paths b) :
    slotKey places.cmdstrAt a < slotKey places.cmdstrAt b ∨
      slotKey places.cmdstrAt a = slotKey places.cmdstrAt b ∧
        strcmpKey (lastWord paths b) ≤ strcmpKey (lastWord paths a) :=
  (Prod.Lex.toLex_le_toLex ..).mp before

/-- Among nodes whose addresses compare alike, the greatest string comes first. -/
def contraryPlacement (φ : Type) (places : StringPlaces) (paths : List (List (List Byte))) :
    SlotPlacement φ places where
  toPlacement := keyPlacement (contraryKey places paths)
  sorted := by
    intro cmdset v
    refine (keyPlacement_sorted (contraryKey places paths) cmdset v).imp fun {a b} before => ?_
    rcases contraryKey_le before with less | ⟨same, -⟩
    · exact le_of_lt less
    · exact le_of_eq same

theorem lastWord_eq {paths : List (List (List Byte))} {node : Nat} {ws : List (List Byte)}
    {word : List Byte} (here : PathAt paths node (ws ++ [word])) : lastWord paths node = word := by
  rw [lastWord, here.getD, List.getLast?_append]
  rfl

/-- Where a greater string is at an address no greater, it can come first. -/
theorem agree_of_childrenSorted
    (ran : installRun (contraryPlacement φ places (createdPaths calls)).toPlacement calls =
      .ok cmdset)
    (sorted : ChildrenSorted cmdset) : SiblingsAgree places (createdPaths calls) := by
  have keeps : Keeps (contraryPlacement φ places (createdPaths calls)).toPlacement fun cmdset =>
      ∀ i, (cmdset.node i).cmdvec.Pairwise fun c d =>
        contraryKey places (createdPaths calls) c ≤ contraryKey places (createdPaths calls) d :=
    keeps_pairwise (keyPlacement_sorted _)
  obtain ⟨listed, -⟩ := installRun_listed keeps (fun _ => .nil) calls cmdset ran
  intro ws x y a b atA atB less
  obtain ⟨i, here, childA, rfl⟩ := listed.lists.parent atA
  obtain ⟨childB, rfl⟩ := listed.lists.mem_children here atB
  have other : a ≠ b := by
    rintro rfl
    exact lt_irrefl _ less
  -- one of the two comes first, and the strings say that it is `a`
  let Before (c d : Nat) : Prop := contraryKey places (createdPaths calls) c ≤
    contraryKey places (createdPaths calls) d ∧
      strcmpKey (cmdset.node c).cmdstr < strcmpKey (cmdset.node d).cmdstr
  have ordered : (cmdset.node i).cmdvec.Pairwise Before :=
    List.Pairwise.and (listed.kept i) (sorted i (listed.lists.lt_size here))
  have symm : Std.Symm fun c d => Before c d ∨ Before d c := ⟨fun _ _ => Or.symm⟩
  have linked : (cmdset.node i).cmdvec.Pairwise fun c d => Before c d ∨ Before d c :=
    ordered.imp Or.inl
  have either : Before a b ∨ Before b a := linked.forall childA childB other
  rcases either with ⟨before, -⟩ | ⟨-, more⟩
  · rcases contraryKey_le before with less' | ⟨-, backwards⟩
    · exact less'
    · rw [lastWord_eq atA, lastWord_eq atB] at backwards
      exact absurd less (not_lt_of_ge backwards)
  · exact absurd less (lt_asymm more)

/-- The children are sorted however `vector_sort` goes about it, exactly when the addresses of
    siblings compare as their strings do; calls that name a path twice end early. -/
theorem children_sorted_iff (places : StringPlaces) (calls : List (InstallCall φ)) :
    (∀ (place : SlotPlacement φ places) (cmdset : CommandSet φ),
        installRun place.toPlacement calls = .ok cmdset → ChildrenSorted cmdset) ↔
      ((∀ call ∈ calls, call.Distinct) → SiblingsAgree places (createdPaths calls)) := by
  constructor
  · intro sorted distinct
    obtain ⟨cmdset, -, ran, -⟩ :=
      installRun_ok (contraryPlacement φ places (createdPaths calls)).toPlacement distinct
    exact agree_of_childrenSorted ran (sorted _ cmdset ran)
  · intro agree place cmdset ran
    obtain ⟨-, distinct⟩ :=
      installRun_listed (keeps_pairwise place.sorted) (fun _ => .nil) calls cmdset ran
    exact childrenSorted_of_agree place (agree distinct) ran

end

/-- Every string a block behind the last. -/
def blockPlaces : StringPlaces where
  cmdstrAt := fun node => (0x1030 + 0x70 * node) % 2 ^ 56
  userland := by
    intro node
    exact Nat.mod_lt _ (by norm_num)

/-- The order `vector_sort` leaves with these places. -/
def slotPlacement (φ : Type) (places : StringPlaces) : SlotPlacement φ places where
  toPlacement := keyPlacement (slotKey places.cmdstrAt)
  sorted := keyPlacement_sorted _

def letterCalls : List (InstallCall Unit) :=
  [.install ⟨litString "a", [], ()⟩, .install2 ⟨litString "b", [], ()⟩]

/-- `b`, whose string is at 0x1110, comes before `a`, at 0x10a0. -/
theorem children_sorted_not : ∃ cmdset : CommandSet Unit,
    installRun (slotPlacement Unit blockPlaces).toPlacement letterCalls = .ok cmdset ∧
      ¬ChildrenSorted cmdset := by
  have root : (installRun (slotPlacement Unit blockPlaces).toPlacement letterCalls).toOption.map
      (fun cmdset =>
        (cmdset.size, (cmdset.node 0).cmdvec.map fun i => strcmpKey (cmdset.node i).cmdstr)) =
      some (3, [strcmpKey (litString "b"), strcmpKey (litString "a")]) := by
    decide +kernel
  obtain ⟨cmdset, ran, found⟩ := ok_of_toOption root
  obtain ⟨size, children⟩ := Prod.mk.inj found
  refine ⟨cmdset, ran, fun sorted => ?_⟩
  have strings := List.pairwise_map.mpr (sorted 0 (by omega))
  rw [children] at strings
  revert strings
  decide +kernel

end Sdplane
