/-!
# Runs of a step function

`step s a` is the state after the action `a`, or none where `a` cannot happen in `s`.
`Throughout` speaks about every state of a run, `EachStep` about every step of it.
-/

namespace Sdplane

variable {σ α : Type}

/-- `P` holds in `s` and in every state the actions lead through. -/
def Throughout (step : σ → α → Option σ) (P : σ → Prop) : σ → List α → Prop
  | s, [] => P s
  | s, a :: acts => P s ∧ ∀ s', step s a = some s' → Throughout step P s' acts

/-- Every step that is taken is `ok`. -/
def EachStep (step : σ → α → Option σ) (ok : σ → α → Prop) : σ → List α → Prop
  | _, [] => True
  | s, a :: acts => ∀ s', step s a = some s' → ok s a ∧ EachStep step ok s' acts

theorem Throughout.last {step : σ → α → Option σ} {P : σ → Prop} {acts : List α} {s s' : σ}
    (h : Throughout step P s acts) (run : acts.foldlM step s = some s') : P s' := by
  induction acts generalizing s with
  | nil =>
      cases run
      exact h
  | cons a acts ih =>
      obtain ⟨mid, taken, rest⟩ := Option.bind_eq_some_iff.mp run
      exact ih (h.2 mid taken) rest

/-- What every step keeps holds throughout a run. -/
theorem throughout_of_keeps {step : σ → α → Option σ} {P Q : σ → Prop}
    (keeps : ∀ s a s', P s → step s a = some s' → P s') (imp : ∀ s, P s → Q s) (acts : List α)
    {s : σ} (start : P s) : Throughout step Q s acts := by
  induction acts generalizing s with
  | nil => exact imp s start
  | cons a acts ih => exact ⟨imp s start, fun s' taken => ih (keeps s a s' start taken)⟩

/-- When a step keeps `P` exactly where it is `ok`, `P` holds throughout a run exactly when
    all its steps are. `Base` holds in every state, whatever the steps. -/
theorem throughout_iff_eachStep {step : σ → α → Option σ} {Base P : σ → Prop}
    {ok : σ → α → Prop} (base : ∀ s a s', Base s → step s a = some s' → Base s')
    (keeps : ∀ s a s', Base s → P s → step s a = some s' → (P s' ↔ ok s a))
    (acts : List α) (s : σ) (hs : Base s) (start : P s) :
    Throughout step P s acts ↔ EachStep step ok s acts := by
  induction acts generalizing s with
  | nil => simp [Throughout, EachStep, start]
  | cons a acts ih =>
      simp only [Throughout, EachStep]
      constructor
      · intro ⟨_, rest⟩ s' taken
        have later := rest s' taken
        have holds : P s' := by
          cases acts with
          | nil => exact later
          | cons b acts => exact later.1
        exact ⟨(keeps s a s' hs start taken).mp holds,
          (ih s' (base s a s' hs taken) holds).mp later⟩
      · intro all
        refine ⟨start, ?_⟩
        intro s' taken
        obtain ⟨okay, rest⟩ := all s' taken
        have holds := (keeps s a s' hs start taken).mpr okay
        exact (ih s' (base s a s' hs taken) holds).mpr rest

/-- Two conditions on steps that agree wherever `Base` holds, hold of the same runs. -/
theorem eachStep_congr {step : σ → α → Option σ} {Base : σ → Prop} {ok ok' : σ → α → Prop}
    (base : ∀ s a s', Base s → step s a = some s' → Base s')
    (agree : ∀ s a, Base s → (ok s a ↔ ok' s a)) (acts : List α) (s : σ) (hs : Base s) :
    EachStep step ok s acts ↔ EachStep step ok' s acts := by
  induction acts generalizing s with
  | nil => rfl
  | cons a acts ih =>
      refine forall_congr' fun s' => imp_congr_right fun taken => and_congr (agree s a hs) ?_
      exact ih s' (base s a s' hs taken)

/-- The last step of a run. -/
theorem EachStep.last {step : σ → α → Option σ} {ok : σ → α → Prop} {acts : List α} {a : α}
    {s s' s'' : σ} (h : EachStep step ok s (acts ++ [a])) (run : acts.foldlM step s = some s')
    (taken : step s' a = some s'') : ok s' a := by
  induction acts generalizing s with
  | nil =>
      cases run
      exact (h s'' taken).1
  | cons b acts ih =>
      obtain ⟨mid, first, rest⟩ := Option.bind_eq_some_iff.mp run
      exact ih (h mid first).2 rest

end Sdplane
