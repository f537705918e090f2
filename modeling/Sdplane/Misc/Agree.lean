/-!
# Two runs of a program

`Agree R r r'`: the two runs end early for the same reason, or both return and `R` holds
between what they return.
-/

namespace Sdplane

variable {ε α β γ δ : Type}

inductive Agree (R : α → β → Prop) : Except ε α → Except ε β → Prop
  | ok {a : α} {b : β} : R a b → Agree R (.ok a) (.ok b)
  | error (stop : ε) : Agree R (.error stop) (.error stop)

namespace Agree

variable {R R' : α → β → Prop} {Q : γ → δ → Prop} {r : Except ε α} {r' : Except ε β}

theorem refl (r : Except ε α) : Agree Eq r r := by
  cases r with
  | ok a => exact .ok rfl
  | error stop => exact .error stop

theorem imp (h : Agree R r r') (weaker : ∀ a b, R a b → R' a b) : Agree R' r r' := by
  cases h with
  | ok hab => exact .ok (weaker _ _ hab)
  | error stop => exact .error stop

theorem bind_of {f : α → Except ε γ} {g : β → Except ε δ} (h : Agree R r r')
    (next : ∀ a b, r = .ok a → R a b → Agree Q (f a) (g b)) : Agree Q (r >>= f) (r' >>= g) := by
  cases h with
  | ok hab => exact next _ _ rfl hab
  | error stop => exact .error stop

theorem bind {f : α → Except ε γ} {g : β → Except ε δ} (h : Agree R r r')
    (next : ∀ a b, R a b → Agree Q (f a) (g b)) : Agree Q (r >>= f) (r' >>= g) :=
  h.bind_of fun a b _ => next a b

/-- Both runs take the same branch. -/
theorem ite {c c' : Prop} [Decidable c] [Decidable c'] (same : c ↔ c') {t : Except ε α}
    {t' : Except ε β} (h : Agree R r r') (ht : Agree R t t') :
    Agree R (if c then r else t) (if c' then r' else t') := by
  by_cases hc : c
  · rwa [if_pos hc, if_pos (same.mp hc)]
  · rwa [if_neg hc, if_neg fun hc' => hc (same.mpr hc')]

/-- What both runs return looks the same. -/
theorem map_eq {f : α → γ} {g : β → γ} (h : Agree R r r') (same : ∀ a b, R a b → f a = g b) :
    r.map f = r'.map g := by
  cases h with
  | ok hab => exact congrArg Except.ok (same _ _ hab)
  | error stop => rfl

end Agree

end Sdplane
