import Mathlib.Data.List.Basic
import Mathlib.Order.Nat
import Sdplane.Misc.Runs

/-!
# Fair behaviours of a step function

An infinite behaviour, in which a state may also stay as it is. A party is a set of actions; the
behaviour is fair to a party that does not wait for ever while it can act. `Behaviour.leadsTo` is
the rule for progress: while the party has not reached its goal it can act, each of its actions
brings it closer, and nothing takes it further away.
-/

namespace Sdplane

variable {σ α : Type}

/-- The states one after the other, and what happens in between, if anything. -/
structure Behaviour (step : σ → α → Option σ) where
  state : Nat → σ
  act : Nat → Option α
  stays : ∀ n, act n = none → state (n + 1) = state n
  taken : ∀ n a, act n = some a → step (state n) a = some (state (n + 1))

namespace Behaviour

variable {step : σ → α → Option σ} (b : Behaviour step)

/-- A party that can act from some state on does so. -/
def FairTo (party : α → Prop) : Prop :=
  ∀ n, (∀ m, n ≤ m → ∃ a, party a ∧ (step (b.state m) a).isSome) →
    ∃ m a, n ≤ m ∧ party a ∧ b.act m = some a

/-- What no step breaks. -/
theorem invariant {P : σ → Prop} (start : P (b.state 0))
    (keeps : ∀ s a s', P s → step s a = some s' → P s') (n : Nat) : P (b.state n) := by
  induction n with
  | zero => exact start
  | succ n ih =>
      cases happens : b.act n with
      | none => rwa [b.stays n happens]
      | some a => exact keeps _ a _ ih (b.taken n a happens)

/-- What only some actions break holds as long as these do not happen. -/
theorem holds_unless {P : σ → Prop} {breaks : α → Prop} {n m : Nat} (later : n ≤ m)
    (start : P (b.state n)) (keeps : ∀ s a s', P s → step s a = some s' → ¬breaks a → P s')
    (never : ∀ k a, n ≤ k → k < m → b.act k = some a → ¬breaks a) : P (b.state m) := by
  induction m, later using Nat.le_induction with
  | base => exact start
  | succ m later ih =>
      have before := ih fun k a from_ upTo => never k a from_ (by omega)
      cases happens : b.act m with
      | none => rwa [b.stays m happens]
      | some a =>
          exact keeps _ a _ before (b.taken m a happens) (never m a later (by omega) happens)

section
variable {P Q : σ → Prop} {ok party : α → Prop} (rank : σ → Nat)

/-- The party gets closer to the goal, or reaches it. -/
theorem comesCloser (fair : b.FairTo party)
    (keeps : ∀ s a s', P s → ok a → step s a = some s' → Q s' ∨ P s' ∧ rank s' ≤ rank s)
    (helps : ∀ s a s', P s → ok a → party a → step s a = some s' → Q s' ∨ P s' ∧ rank s' < rank s)
    (able : ∀ s, P s → ∃ a, party a ∧ (step s a).isSome) {n : Nat} (start : P (b.state n))
    (allowed : ∀ k a, n ≤ k → b.act k = some a → ok a) :
    ∃ m, n ≤ m ∧ (Q (b.state m) ∨ P (b.state m) ∧ rank (b.state m) < rank (b.state n)) := by
  by_contra waits
  push Not at waits
  have stuck : ∀ m, n ≤ m → P (b.state m) ∧ rank (b.state m) ≤ rank (b.state n) := by
    intro m later
    induction m, later using Nat.le_induction with
    | base => exact ⟨start, le_rfl⟩
    | succ m later ih =>
        cases happens : b.act m with
        | none => rwa [b.stays m happens]
        | some a =>
            obtain reached | ⟨still, closer⟩ :=
              keeps _ a _ ih.1 (allowed m a later happens) (b.taken m a happens)
            · exact absurd reached (waits (m + 1) (by omega)).1
            · exact ⟨still, closer.trans ih.2⟩
  obtain ⟨m, a, later, acts, happens⟩ := fair n fun m later => able _ (stuck m later).1
  obtain ⟨still, far⟩ := stuck m later
  obtain ⟨unreached, closer⟩ := waits (m + 1) (by omega)
  obtain reached | ⟨holds, less⟩ :=
    helps _ a _ still (allowed m a later happens) acts (b.taken m a happens)
  · exact unreached reached
  · have bound := closer holds
    omega

/-- A party that always gets closer to its goal reaches it, if only such actions happen that do
    not take it further away. -/
theorem leadsTo (fair : b.FairTo party)
    (keeps : ∀ s a s', P s → ok a → step s a = some s' → Q s' ∨ P s' ∧ rank s' ≤ rank s)
    (helps : ∀ s a s', P s → ok a → party a → step s a = some s' → Q s' ∨ P s' ∧ rank s' < rank s)
    (able : ∀ s, P s → ∃ a, party a ∧ (step s a).isSome) {n : Nat} (start : P (b.state n))
    (allowed : ∀ k a, n ≤ k → b.act k = some a → ok a) :
    ∃ m, n ≤ m ∧ Q (b.state m) := by
  induction far : rank (b.state n) using Nat.strong_induction_on generalizing n with
  | _ r ih =>
      obtain ⟨m, later, reached | ⟨still, closer⟩⟩ :=
        b.comesCloser rank fair keeps helps able start allowed
      · exact ⟨m, later, reached⟩
      · obtain ⟨m', later', reached⟩ :=
          ih _ (far ▸ closer) still (fun k a from_ => allowed k a (later.trans from_)) rfl
        exact ⟨m', later.trans later', reached⟩

end

end Behaviour

/-! ## A run and nothing more -/

section
variable {step : σ → α → Option σ} {s last : σ} {acts : List α}

/-- The state after the first actions of a run. -/
def stateAfter (step : σ → α → Option σ) (s : σ) (acts : List α) (n : Nat) : σ :=
  ((acts.take n).foldlM step s).getD s

theorem stateAfter_end (run : acts.foldlM step s = some last) {n : Nat} (all : acts.length ≤ n) :
    stateAfter step s acts n = last := by
  rw [stateAfter, List.take_of_length_le all, run]
  rfl

theorem stateAfter_succ (run : acts.foldlM step s = some last) {n : Nat} {a : α}
    (happens : acts[n]? = some a) :
    step (stateAfter step s acts n) a = some (stateAfter step s acts (n + 1)) := by
  have split : acts.take (n + 1) = acts.take n ++ [a] := by
    rw [List.take_add_one, happens]
    rfl
  have parts : (acts.take (n + 1) ++ acts.drop (n + 1)).foldlM step s = some last := by
    rwa [List.take_append_drop]
  rw [List.foldlM_append] at parts
  obtain ⟨next, upTo, -⟩ := Option.bind_eq_some_iff.mp parts
  have before := upTo
  rw [split, List.foldlM_append] at before
  obtain ⟨mid, prior, taken⟩ := Option.bind_eq_some_iff.mp before
  rw [stateAfter, stateAfter, prior, upTo]
  simpa using taken

/-- A run, after which nothing happens. -/
def Behaviour.ofRun (run : acts.foldlM step s = some last) : Behaviour step where
  state := stateAfter step s acts
  act := fun n => acts[n]?
  stays := by
    intro n ends
    have all := List.getElem?_eq_none_iff.mp ends
    rw [stateAfter_end run all, stateAfter_end run (by omega)]
  taken := fun _ _ happens => stateAfter_succ run happens

/-- It is fair to a party that cannot act in the end. -/
theorem Behaviour.ofRun_fairTo (run : acts.foldlM step s = some last) {party : α → Prop}
    (quiet : ∀ a, party a → step last a = none) : (Behaviour.ofRun run).FairTo party := by
  intro n able
  obtain ⟨a, acts_, can⟩ := able (max n acts.length) (le_max_left ..)
  have ended : (Behaviour.ofRun run).state (max n acts.length) = last :=
    stateAfter_end run (le_max_right ..)
  rw [ended, quiet a acts_] at can
  cases can

end

end Sdplane
