import Sdplane.Misc.ByteMem

/-!
# Byte stores

A store keeps an octet for every address. It answers requests to read and to write, and
ignores those it does not accept. `run` is a store through a list of requests;
`run_store` says what it holds in the end, and `run_read` what each read was answered, by the
last accepted write to every octet. Nothing here depends on how a request is encoded
or on what is accepted.
-/

namespace Sdplane

/-- A request to a store, or something that is none. -/
inductive StoreRequest where
  | read (addr count : Nat)
  | write (addr : Nat) (bytes : List Byte)
  | other

namespace StoreRequest

/-- The octet that is written to address `i`, if one is. -/
def stores : StoreRequest → Nat → Option Byte
  | .write addr bytes, i => if addr ≤ i then bytes[i - addr]? else none
  | _, _ => none

/-- What an accepted request makes of the store. -/
def after : StoreRequest → ByteMem → ByteMem
  | .write addr bytes, s => s.write addr bytes
  | _, s => s

/-- What an accepted request is answered. -/
def answer : StoreRequest → ByteMem → List Byte
  | .read addr count, s => s.read addr count
  | _, _ => []

theorem after_apply (r : StoreRequest) (s : ByteMem) (i : Nat) :
    r.after s i = (r.stores i).getD (s i) := by
  cases r with
  | read addr count => rfl
  | other => rfl
  | write addr bytes =>
      simp only [after, stores, ByteMem.write]
      split <;> rfl

end StoreRequest

namespace ByteStore

variable (accepts : StoreRequest → Bool)

/-- A request to a store: the answer, and the store after it. -/
def step (r : StoreRequest) (s : ByteMem) : List Byte × ByteMem :=
  if accepts r then (r.answer s, r.after s) else ([], s)

/-- The answers to the requests in their order, and the store after them. -/
def run : List StoreRequest → ByteMem → List (List Byte) × ByteMem
  | [], s => ([], s)
  | r :: rs, s =>
      let first := step accepts r s
      let rest := run rs first.2
      (first.1 :: rest.1, rest.2)

/-- The octet of the last accepted write to address `i`. -/
def lastWrite (rs : List StoreRequest) (i : Nat) : Option Byte :=
  rs.reverse.findSome? fun r => if accepts r then r.stores i else none

theorem step_store (r : StoreRequest) (s : ByteMem) (i : Nat) :
    (step accepts r s).2 i = (if accepts r then r.stores i else none).getD (s i) := by
  rw [step]
  split
  · exact r.after_apply s i
  · rfl

theorem lastWrite_cons (r : StoreRequest) (rs : List StoreRequest) (i : Nat) :
    lastWrite accepts (r :: rs) i =
      (lastWrite accepts rs i).or (if accepts r then r.stores i else none) := by
  rw [lastWrite, List.reverse_cons, List.findSome?_append, List.findSome?_singleton, lastWrite]

/-- After a run every octet is that of the last write to it, or what it was. -/
theorem run_store (rs : List StoreRequest) (s : ByteMem) (i : Nat) :
    (run accepts rs s).2 i = (lastWrite accepts rs i).getD (s i) := by
  induction rs generalizing s with
  | nil => rfl
  | cons r rs ih =>
      rw [run, ih, step_store, lastWrite_cons]
      cases lastWrite accepts rs i <;> rfl

/-- Every request is answered from the store as the requests before it left it. -/
theorem run_answers (rs : List StoreRequest) (s : ByteMem) (i : Nat) :
    (run accepts rs s).1[i]? =
      rs[i]?.map fun r => (step accepts r (run accepts (rs.take i) s).2).1 := by
  induction rs generalizing s i with
  | nil => rfl
  | cons r rs ih =>
      cases i with
      | zero => rfl
      | succ i => exact ih _ i

/-- An accepted read is answered with the octets of the last writes before it. -/
theorem run_read {rs : List StoreRequest} {i addr count : Nat} (s : ByteMem)
    (found : rs[i]? = some (.read addr count)) (accepted : accepts (.read addr count) = true) :
    (run accepts rs s).1[i]? = some ((List.range count).map fun k =>
      (lastWrite accepts (rs.take i) (addr + k)).getD (s (addr + k))) := by
  rw [run_answers, found, Option.map_some, step, if_pos accepted]
  apply congrArg some
  apply List.map_congr_left
  intro k _
  exact run_store accepts (rs.take i) s (addr + k)

end ByteStore

end Sdplane
