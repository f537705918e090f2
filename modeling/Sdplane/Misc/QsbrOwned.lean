import Sdplane.Misc.Qsbr

/-!
# Reclamation with a state of the updater's own

The updater of `Qsbr` with something its own actions change, such as a memory its versions point
into: a list of actions depends on it, and what a version is worth does. As in `Qsbr`, an epoch
reduces a safety property of all interleavings to one of the updater's lists.
-/

namespace Sdplane.Qsbr

variable {W R A M O : Type}

/-- What the updater's own actions do, its actions for a message, and the messages it may
    receive. -/
structure Updater (R A M O : Type) where
  exec : A → O → O
  prog : M → R → O → List (Act R A)
  allowed : M → R → O → Prop

/-- The system, with what the updater has of its own. -/
structure Owned (W R A O : Type) where
  system : System W R A
  own : O

section
variable [DecidableEq W] (u : Updater R A M O)

/-- One step of the system. -/
inductive OwnedStep : Owned W R A O → Owned W R A O → Prop where
  | reader {s s' : State W R} (k : List (Act R A)) (o : O) :
      ReaderStep s s' → OwnedStep ⟨⟨s, k⟩, o⟩ ⟨⟨s', k⟩, o⟩
  | receive (s : State W R) (m : M) (o : O) : u.allowed m s.published o →
      OwnedStep ⟨⟨s, []⟩, o⟩ ⟨⟨s, u.prog m s.published o⟩, o⟩
  | assign (s : State W R) (r : R) (k : List (Act R A)) (o : O) :
      OwnedStep ⟨⟨s, .assign r :: k⟩, o⟩ ⟨⟨s.assign r, k⟩, o⟩
  | synchronize (s : State W R) (k : List (Act R A)) (o : O) : (∀ w, ¬ s.waiting w) →
      OwnedStep ⟨⟨s, .synchronize :: k⟩, o⟩ ⟨⟨s, k⟩, o⟩
  | other (s : State W R) (a : A) (k : List (Act R A)) (o : O) :
      OwnedStep ⟨⟨s, .other a :: k⟩, o⟩ ⟨⟨s, k⟩, u.exec a o⟩

/-- The states of any interleaving that starts with `r` published. -/
inductive OwnedReachable (r : R) (o : O) : Owned W R A O → Prop where
  | init : OwnedReachable r o ⟨System.init r, o⟩
  | step {x y : Owned W R A O} : OwnedReachable r o x → OwnedStep u x y → OwnedReachable r o y

/-- The rest of a list of actions is safe from an epoch, a published version and a state of the
    updater's own on. -/
def SafeOwned (exec : A → O → O) (idle : Set R → R → O → Prop)
    (safe : Set R → R → O → Act R A → Prop) : Set R → R → O → List (Act R A) → Prop
  | E, p, o, [] => idle E p o
  | E, p, o, .assign r :: k => safe E p o (.assign r) ∧ SafeOwned exec idle safe (insert r E) r o k
  | E, p, o, .synchronize :: k => safe E p o .synchronize ∧ SafeOwned exec idle safe {p} p o k
  | E, p, o, .other a :: k => safe E p o (.other a) ∧ SafeOwned exec idle safe E p (exec a o) k

/-- If the list of every message is safe from every idle state on, then every reachable state has
    an epoch from which what is pending is safe. -/
theorem OwnedReachable.epoch {u : Updater R A M O} {idle : Set R → R → O → Prop}
    {safe : Set R → R → O → Act R A → Prop} {r : R} {o : O} (start : idle {r} r o)
    (message : ∀ E p o m, p ∈ E → idle E p o → u.allowed m p o →
      SafeOwned u.exec idle safe E p o (u.prog m p o))
    {x : Owned W R A O} (reachable : OwnedReachable u r o x) :
    ∃ E, Covered E x.system.state ∧
      SafeOwned u.exec idle safe E x.system.state.published x.own x.system.pending := by
  induction reachable with
  | init => exact ⟨{r}, covered_init r, start⟩
  | step _ step ih =>
      obtain ⟨E, covered, rest⟩ := ih
      cases step with
      | reader k o moved =>
          refine ⟨E, covered.readerStep moved, ?_⟩
          rw [moved.published]
          exact rest
      | receive s m o permitted =>
          exact ⟨E, covered, message E s.published o m covered.published rest permitted⟩
      | assign s r' k o => exact ⟨insert r' E, covered.assign r', rest.2⟩
      | synchronize s k o quiet => exact ⟨{s.published}, covered.synchronize quiet, rest.2⟩
      | other s a k o => exact ⟨E, covered, rest.2⟩

omit [DecidableEq W] in
/-- What holds wherever something is safe holds where an action is next and between messages. -/
theorem SafeOwned.now {exec : A → O → O} {idle : Set R → R → O → Prop}
    {safe : Set R → R → O → Act R A → Prop} {P : Set R → O → Prop}
    (ofIdle : ∀ E p o, idle E p o → P E o) (ofSafe : ∀ E p o act, safe E p o act → P E o)
    {E : Set R} {p : R} {o : O} {k : List (Act R A)} (h : SafeOwned exec idle safe E p o k) :
    P E o := by
  cases k with
  | nil => exact ofIdle E p o h
  | cons act k => cases act <;> exact ofSafe E p o _ h.1

end

section
variable [DecidableEq W] {u : Updater R A M O} {r : R} {o₀ : O}

/-- While nobody has registered, the updater gets through its list. -/
theorem OwnedReachable.drain {s : State W R} {k : List (Act R A)} {o : O}
    (reachable : OwnedReachable u r o₀ ⟨⟨s, k⟩, o⟩) (offline : ∀ w, s.reader w = .offline)
    (quiet : ∀ w, ¬ s.waiting w) :
    ∃ (s' : State W R) (o' : O), OwnedReachable u r o₀ ⟨⟨s', []⟩, o'⟩ ∧
      s'.published = publishedAfter k s.published ∧ ∀ w, s'.reader w = .offline := by
  induction k generalizing s o with
  | nil => exact ⟨s, o, reachable, rfl, offline⟩
  | cons act k ih =>
      cases act with
      | assign r' =>
          exact ih (reachable.step (.assign s r' k o)) offline fun w waits => waits (offline w)
      | synchronize => exact ih (reachable.step (.synchronize s k o quiet)) offline quiet
      | other a => exact ih (reachable.step (.other s a k o)) offline quiet

/-- A reader that has not registered can register and take the published version. -/
theorem OwnedReachable.takes {s : State W R} {k : List (Act R A)} {o : O}
    (reachable : OwnedReachable u r o₀ ⟨⟨s, k⟩, o⟩) {w : W} (offline : s.reader w = .offline) :
    ∃ s' : State W R, OwnedReachable u r o₀ ⟨⟨s', k⟩, o⟩ ∧ s'.reader w = .reading s.published := by
  have online : (s.quiesce w .online).reader w = .online := by
    rw [quiesce_reader, Function.update_self]
  have registered := reachable.step (.reader k o (.register s w offline))
  refine ⟨_, registered.step (.reader k o (.read _ w online)), ?_⟩
  rw [setReader_reader, Function.update_self]
  rfl

end

/-- Actions of the updater's own that are safe one after the other. -/
theorem safeOwned_others_append {exec : A → O → O} {idle : Set R → R → O → Prop}
    {safe : Set R → R → O → Act R A → Prop} {E : Set R} {p : R} {as : List A}
    {k : List (Act R A)} {P : O → Prop} (ok : ∀ a ∈ as, ∀ o, P o → safe E p o (.other a) ∧ P (exec a o))
    {o : O} (start : P o)
    (rest : ∀ o', P o' → o' = as.foldl (fun o a => exec a o) o → SafeOwned exec idle safe E p o' k) :
    SafeOwned exec idle safe E p o (as.map .other ++ k) := by
  induction as generalizing o with
  | nil => exact rest o start rfl
  | cons a as ih =>
      obtain ⟨safe', kept⟩ := ok a List.mem_cons_self o start
      exact ⟨safe', ih (fun b mem => ok b (List.mem_cons_of_mem _ mem)) kept rest⟩

end Sdplane.Qsbr
