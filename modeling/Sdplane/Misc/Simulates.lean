import Sdplane.Misc.Ensures

/-!
# Programs that may run short

`ReturnsGiven r stop given P`: the program returns with `P`; only where `given` does not hold, it
may end as `stop` instead. Where every step of a loop so simulates a function, the loop simulates
the fold of that function, given what each of its steps asks for.
-/

namespace Sdplane

variable {α β ε σ τ : Type}

def ReturnsGiven (r : Except ε α) (stop : ε) (given : Prop) (P : α → Prop) : Prop :=
  (∃ a, r = .ok a ∧ P a) ∨ r = .error stop ∧ ¬given

namespace ReturnsGiven

variable {stop : ε} {given given' : Prop} {P Q : α → Prop} {R : β → Prop} {r : Except ε α}

theorem ok {a : α} (h : P a) : ReturnsGiven (.ok a) stop given P := .inl ⟨a, rfl, h⟩

theorem of_ok (h : ∃ a, r = .ok a ∧ P a) : ReturnsGiven r stop given P := .inl h

theorem returns (h : ReturnsGiven r stop given P) (enough : given) : ∃ a, r = .ok a ∧ P a :=
  h.resolve_right fun short => short.2 enough

theorem imp (h : ReturnsGiven r stop given P) (weaker : ∀ a, P a → Q a) (more : given' → given) :
    ReturnsGiven r stop given' Q := by
  rcases h with ⟨a, returned, ha⟩ | ⟨ended, short⟩
  · exact .inl ⟨a, returned, weaker a ha⟩
  · exact .inr ⟨ended, fun enough => short (more enough)⟩

theorem bind {f : α → Except ε β} (h : ReturnsGiven r stop given P)
    (next : ∀ a, P a → ReturnsGiven (f a) stop given R) : ReturnsGiven (r >>= f) stop given R := by
  rcases h with ⟨a, rfl, ha⟩ | ⟨rfl, short⟩
  · exact next a ha
  · exact .inr ⟨rfl, short⟩

end ReturnsGiven

/-- What is asked for holds at each step of a fold. -/
def Along (g : τ → α → τ) (given : τ → α → Prop) : τ → List α → Prop
  | _, [] => True
  | t, a :: as => given t a ∧ Along g given (g t a) as

/-- A loop whose steps simulate a function simulates the fold of it. -/
theorem foldlM_simulates {R : σ → τ → Prop} {f : σ → α → Except ε σ} {g : τ → α → τ} {stop : ε}
    {given : τ → α → Prop}
    (step : ∀ s t a, R s t → ReturnsGiven (f s a) stop (given t a) fun s' => R s' (g t a))
    (as : List α) {s : σ} {t : τ} (h : R s t) :
    ReturnsGiven (as.foldlM f s) stop (Along g given t as) fun s' => R s' (as.foldl g t) := by
  induction as generalizing s t with
  | nil => exact .ok h
  | cons a as ih =>
      rw [List.foldlM_cons]
      refine ReturnsGiven.bind ((step s t a h).imp (fun _ h' => h') And.left) fun s' h' => ?_
      exact (ih h').imp (fun _ h' => h') And.right

end Sdplane
