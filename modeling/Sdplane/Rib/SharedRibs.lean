import Sdplane.Misc.QsbrOwned
import Sdplane.Rib.Manager

/-!
# The ribs the workers share with the RIB manager

`rib_manager_process_message` (`rib_manager.c:369-527`) with the addresses of what it allocates and
frees and with the rings and tx buffers it creates, among workers that follow the pointer they
read. `malloc` gives out any address that is not allocated. The new `rib_info` is filled in before
anybody sees it, so that its allocation and what is stored into it are one action; the rib that is
published while a queue change is made has none.
-/

namespace Sdplane

open Qsbr

/-! ## What the threads share -/

/-- The allocated `struct rib`s with their `rib_info`, which may be NULL; the allocated
    `struct rib_info`s; the entries of `ring_up`, `ring_dn` and `tx_buffer_per_q` that are not
    NULL. -/
structure RibMemory where
  ribs : Nat → Option (Option Nat)
  infos : Nat → Option RibInfo
  ringUp : Nat → Nat → Bool
  ringDn : Nat → Nat → Bool
  txBuffer : Nat → Nat → Bool

/-- An entry of a table of pointers is there now. -/
def created (table : Nat → Nat → Bool) (i j : Nat) : Nat → Nat → Bool :=
  fun i' j' => i' == i && j' == j || table i' j'

/-- What the manager does to what it shares. -/
inductive RibMemAct where
  | allocRib (a : Nat)
  | allocRibInfo (a q : Nat) (info : RibInfo)
  | dev (op : DevOp) (given : Bool)
  | freeMsg
  | freeRibInfo (a : Nat)
  | freeRib (a : Nat)

namespace RibMemory

def empty : RibMemory :=
  ⟨fun _ => none, fun _ => none, fun _ _ => false, fun _ _ => false, fun _ _ => false⟩

/-- What a thread finds behind a pointer to a rib, if there is a rib. -/
def deref (o : RibMemory) (r : Option Nat) : Option Rib :=
  r.bind fun a => (o.ribs a).map fun q => ⟨q.bind o.infos⟩

/-- An operation of `rib_check`, when what it asks for is given. -/
def devOp (o : RibMemory) : DevOp → RibMemory
  | .ringUpCreate port queue => { o with ringUp := created o.ringUp port queue }
  | .ringDnCreate port queue => { o with ringDn := created o.ringDn port queue }
  | .txBufferCreate port queue => { o with txBuffer := created o.txBuffer port queue }
  | _ => o

/-- One action. A `rib_info` is stored into only before its rib is published; the pointer to one
    that is freed is cleared (`rib_delete`). -/
def exec : RibMemAct → RibMemory → RibMemory
  | .allocRib a, o => { o with ribs := Function.update o.ribs a (some none) }
  | .allocRibInfo a q info, o =>
      { o with
        ribs := Function.update o.ribs a (some (some q))
        infos := Function.update o.infos q (some info) }
  -- an entry that is NULL stays NULL when `rte_ring_create` or `rte_zmalloc_socket` gives nothing
  | .dev op given, o => if given then o.devOp op else o
  | .freeMsg, o => o
  | .freeRibInfo a, o =>
      match o.ribs a with
      | some (some q) =>
          { o with
            ribs := Function.update o.ribs a (some none)
            infos := Function.update o.infos q none }
      | _ => o
  | .freeRib a, o => { o with ribs := Function.update o.ribs a none }

end RibMemory

/-- An action of the manager, on pointers. -/
abbrev SharedAct := Act (Option Nat) RibMemAct

/-- `rib_delete`. -/
def sharedDelete (a : Nat) (hasInfo : Bool) : List RibMemAct :=
  (if hasInfo then [.freeRibInfo a] else []) ++ [.freeRib a]

/-- `rib_replace`. -/
def sharedReplace (old : Option Nat) (hasInfo : Bool) (new : Nat) : List SharedAct :=
  .assign (some new) ::
    match old with
    | none => []
    | some a => .synchronize :: (sharedDelete a hasInfo).map .other

/-- A message, with the addresses `malloc` gives for the new rib, its `rib_info` and the
    intermediate rib, and whether the rings and tx buffers that are asked for are given. -/
structure RibOrder where
  msg : RibMsg
  rib : Nat
  info : Nat
  zero : Nat
  gives : DevOp → Bool

/-- The addresses are not those of something that is allocated. -/
def RibOrder.Fresh (c : RibOrder) (o : RibMemory) : Prop :=
  o.ribs c.rib = none ∧ o.ribs c.zero = none ∧ c.rib ≠ c.zero ∧ o.infos c.info = none

/-- Every ring and every tx buffer that is asked for is given. -/
def RibOrder.Granted (c : RibOrder) : Prop := ∀ op, c.gives op = true

/-- `rib_manager_process_message`. -/
def sharedProcessMessage (d : Dpdk) (c : RibOrder) (old : Option Nat) (o : RibMemory) :
    List SharedAct :=
  let new := ribInfoFor d c.msg (o.deref old)
  let hasInfo := ((o.deref old).bind Rib.ribInfo).isSome
  let create : List SharedAct := [.other (.allocRib c.rib), .other (.allocRibInfo c.rib c.info new)]
  if c.msg.isQconf then
    match ribCheck new with
    | none => create
    | some nrxq =>
        create ++ ((ribCheckOps d new nrxq).map fun op => .other (.dev op (c.gives op))) ++
          (.other (.allocRib c.zero) :: sharedReplace old hasInfo c.zero) ++
          (.other .freeMsg :: sharedReplace (some c.zero) false c.rib)
  else create ++ (.other .freeMsg :: sharedReplace old hasInfo c.rib)

/-- The manager as an updater of what it shares, while it is given what it asks for. -/
def ribUpdater (d : Dpdk) : Updater (Option Nat) RibMemAct RibOrder RibMemory where
  exec := RibMemory.exec
  prog := sharedProcessMessage d
  allowed := fun c _ o => c.Fresh o ∧ c.Granted

/-! ## The same actions without the addresses -/

/-- The action without its addresses; `content` says what a rib holds when it is published. -/
def eraseAct (content : Nat → Rib) : SharedAct → ManagerAct
  | .assign r => .assign (r.map content)
  | .synchronize => .synchronize
  | .other (.allocRib _) => .other .allocRib
  | .other (.allocRibInfo _ _ _) => .other .allocRibInfo
  | .other (.dev op _) => .other (.dev op)
  | .other .freeMsg => .other .freeMsg
  | .other (.freeRibInfo _) => .other .freeRibInfo
  | .other (.freeRib _) => .other .freeRib

theorem map_eraseAct_sharedReplace (content : Nat → Rib) {old : Option Nat} {o : RibMemory}
    (whole : ∀ a, old = some a → (o.ribs a).isSome = true) (new : Nat) :
    (sharedReplace old ((o.deref old).bind Rib.ribInfo).isSome new).map (eraseAct content) =
      ribReplace (o.deref old) (content new) := by
  cases old with
  | none => rfl
  | some a =>
      obtain ⟨q, alloc⟩ := Option.isSome_iff_exists.mp (whole a rfl)
      have rib : o.deref (some a) = some ⟨q.bind o.infos⟩ := by
        rw [RibMemory.deref, Option.bind_some, alloc, Option.map_some]
      rw [rib, sharedReplace, ribReplace, sharedDelete, ribDelete]
      cases q.bind o.infos <;> rfl

theorem map_eraseAct_dev (content : Nat → Rib) (ops : List DevOp) (gives : DevOp → Bool) :
    (ops.map fun op => (.other (.dev op (gives op)) : SharedAct)).map (eraseAct content) =
      ops.map fun op => .other (.dev op) := by
  rw [List.map_map]
  rfl

/-- Without their addresses the actions are those of the manager among the workers that hold
    copies of the ribs. -/
theorem map_eraseAct_sharedProcessMessage (d : Dpdk) (c : RibOrder) {old : Option Nat}
    {o : RibMemory} (whole : ∀ a, old = some a → (o.ribs a).isSome = true) (apart : c.rib ≠ c.zero) :
    (sharedProcessMessage d c old o).map (eraseAct fun a =>
        if a = c.rib then ⟨some (ribInfoFor d c.msg (o.deref old))⟩ else zeroRib) =
      ribManagerProcessMessage d c.msg (o.deref old) := by
  have content := map_eraseAct_sharedReplace
    (fun a => if a = c.rib then ⟨some (ribInfoFor d c.msg (o.deref old))⟩ else zeroRib) whole
  have replaced := content c.rib
  have cleared := content c.zero
  rw [if_pos rfl] at replaced
  rw [if_neg apart.symm] at cleared
  rw [sharedProcessMessage, ribManagerProcessMessage]
  cases kind : c.msg.isQconf with
  | false =>
      simp only [Bool.false_eq_true, if_false, List.map_append, List.map_cons, List.map_nil,
        replaced]
      rfl
  | true =>
      cases checked : ribCheck (ribInfoFor d c.msg (o.deref old)) with
      | none => rfl
      | some nrxq =>
          simp only [if_true, List.map_append, List.map_cons, List.map_nil, map_eraseAct_dev,
            cleared]
          simp only [sharedReplace, sharedDelete, ribReplace, ribDelete, eraseAct, List.map_cons,
            List.map_nil, Option.map_some, if_pos, zeroRib, Option.isSome_none, Bool.false_eq_true,
            if_false, List.nil_append]

end Sdplane
