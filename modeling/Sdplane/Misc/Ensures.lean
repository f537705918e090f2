/-!
# What a program ensures

A program that may end early: `Ensures r bad P` says that it does not end as `bad`, and that
what it returns satisfies `P` if it returns. `Returns r P` says only the latter.
-/

namespace Sdplane

variable {ε α β : Type}

/-- What a program returns is what its second part makes of the first. -/
theorem bind_ok {r : Except ε α} {f : α → Except ε β} {b : β} (h : r >>= f = .ok b) :
    ∃ a, r = .ok a ∧ f a = .ok b := by
  cases r with
  | error stop => cases h
  | ok a => exact ⟨a, rfl, h⟩

/-- What is known of the value of a program is known of what it returns. -/
theorem ok_of_toOption {γ : Type} {r : Except ε α} {f : α → γ} {c : γ}
    (h : r.toOption.map f = some c) : ∃ a, r = .ok a ∧ f a = c := by
  cases r with
  | error stop => cases h
  | ok a => exact ⟨a, rfl, Option.some_inj.mp h⟩

def Ensures (r : Except ε α) (bad : ε) (P : α → Prop) : Prop :=
  r ≠ .error bad ∧ ∀ a, r = .ok a → P a

namespace Ensures

variable {bad : ε} {P Q : α → Prop} {R : β → Prop}

theorem ok {a : α} (h : P a) : Ensures (.ok a) bad P := by
  refine ⟨by simp, ?_⟩
  rintro _ ⟨⟩
  exact h

theorem error {stop : ε} (h : stop ≠ bad) : Ensures (.error stop) bad P := by
  refine ⟨by simpa using h, ?_⟩
  rintro _ ⟨⟩

theorem of_ok {r : Except ε α} (h : ∃ a, r = .ok a ∧ P a) : Ensures r bad P := by
  obtain ⟨a, rfl, ha⟩ := h
  exact ok ha

theorem imp {r : Except ε α} (h : Ensures r bad P) (weaker : ∀ a, P a → Q a) :
    Ensures r bad Q :=
  ⟨h.1, fun a ha => weaker a (h.2 a ha)⟩

theorem bind {r : Except ε α} {f : α → Except ε β} (h : Ensures r bad P)
    (next : ∀ a, P a → Ensures (f a) bad R) : Ensures (r >>= f) bad R := by
  cases r with
  | error stop => exact error fun same => h.1 (congrArg Except.error same)
  | ok a => exact next a (h.2 a rfl)

end Ensures

/-- Whatever the program returns satisfies `P`. -/
def Returns (r : Except ε α) (P : α → Prop) : Prop := ∀ a, r = .ok a → P a

namespace Returns

variable {P Q : α → Prop} {R : β → Prop} {r r' : Except ε α}

theorem ok {a : α} (h : P a) : Returns (.ok a : Except ε α) P := by
  rintro _ ⟨⟩
  exact h

theorem error (stop : ε) : Returns (.error stop : Except ε α) P := by
  rintro _ ⟨⟩

theorem imp (h : Returns r P) (weaker : ∀ a, P a → Q a) : Returns r Q :=
  fun a ha => weaker a (h a ha)

theorem bind {f : α → Except ε β} (h : Returns r P) (next : ∀ a, P a → Returns (f a) R) :
    Returns (r >>= f) R := by
  intro b hb
  obtain ⟨a, ha, hb⟩ := bind_ok hb
  exact next a (h a ha) b hb

theorem ite {c : Prop} [Decidable c] (h : Returns r P) (h' : Returns r' P) :
    Returns (if c then r else r') P := by
  split
  · exact h
  · exact h'

end Returns

end Sdplane
