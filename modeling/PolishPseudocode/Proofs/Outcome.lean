import PolishPseudocode.SyntaxError

/-! Outcomes of reading: a value or a refusal. What is known of a sequence of steps that succeeds is
what is known of each step, and two sequences agree if their steps do. -/

namespace PolishPseudocode

/-- A sequence succeeds if its first step does, and the rest from there. -/
theorem bind_eq_ok {ε α β : Type} {first : Except ε α} {next : α → Except ε β} {b : β} :
    (first >>= next) = .ok b ↔ ∃ a, first = .ok a ∧ next a = .ok b := by
  cases first with
  | error e =>
      constructor
      · intro h
        cases h
      · rintro ⟨a, h, -⟩
        cases h
  | ok a =>
      constructor
      · intro h
        exact ⟨a, rfl, h⟩
      · rintro ⟨a', h, h'⟩
        cases h
        exact h'

theorem map_eq_ok {ε α β : Type} {outcome : Except ε α} {f : α → β} {b : β} :
    outcome.map f = .ok b ↔ ∃ a, outcome = .ok a ∧ f a = b := by
  cases outcome with
  | error e => simp [Except.map]
  | ok a => simp [Except.map]

/-- Two outcomes agree: both are values and related, or both are refusals for the same cause. -/
def Agree {α β : Type} (related : α → β → Prop) : Except SyntaxError α → Except SyntaxError β → Prop
  | .ok a, .ok b => related a b
  | .error e, .error e' => e.cause = e'.cause
  | _, _ => False

namespace Agree

variable {α β γ δ : Type} {related : α → β → Prop} {related' : γ → δ → Prop}

theorem bind {first : Except SyntaxError α} {first' : Except SyntaxError β}
    {next : α → Except SyntaxError γ} {next' : β → Except SyntaxError δ} (h : Agree related first first')
    (hnext : ∀ a b, related a b → Agree related' (next a) (next' b)) :
    Agree related' (first >>= next) (first' >>= next') := by
  cases first with
  | error e =>
      cases first' with
      | error e' => exact h
      | ok b => exact h.elim
  | ok a =>
      cases first' with
      | error e' => exact h.elim
      | ok b => exact hnext a b h

/-- What agrees with a success is one. -/
theorem exists_of_ok {a : α} {outcome : Except SyntaxError β} (h : Agree related (.ok a) outcome) :
    ∃ b, outcome = .ok b ∧ related a b := by
  cases outcome with
  | error e => exact h.elim
  | ok b => exact ⟨b, rfl, h⟩

theorem exists_of_ok_right {outcome : Except SyntaxError α} {b : β} (h : Agree related outcome (.ok b)) :
    ∃ a, outcome = .ok a ∧ related a b := by
  cases outcome with
  | error e => exact h.elim
  | ok a => exact ⟨a, rfl, h⟩

/-- Two outcomes that agree with a third are both values or both refusals for the same cause. -/
theorem through {outcome : Except SyntaxError α} {outcome' : Except SyntaxError γ}
    {third : Except SyntaxError β} {related' : γ → β → Prop} (h : Agree related outcome third)
    (h' : Agree related' outcome' third) :
    (∃ a c b, outcome = .ok a ∧ outcome' = .ok c ∧ related a b ∧ related' c b)
      ∨ ∃ e e', outcome = .error e ∧ outcome' = .error e' ∧ e.cause = e'.cause := by
  cases third with
  | ok b =>
      cases outcome with
      | error e => exact h.elim
      | ok a =>
          cases outcome' with
          | error e => exact h'.elim
          | ok c => exact .inl ⟨a, c, b, rfl, rfl, h, h'⟩
  | error e'' =>
      cases outcome with
      | ok a => exact h.elim
      | error e =>
          cases outcome' with
          | ok c => exact h'.elim
          | error e' => exact .inr ⟨e, e', rfl, rfl, Eq.trans h (Eq.symm h')⟩

end Agree

/-- If the first outcome is a value, the second is one too, and they are related. -/
def Persists {α β : Type} (related : α → β → Prop) : Except SyntaxError α → Except SyntaxError β → Prop
  | .ok a, .ok b => related a b
  | .ok _, .error _ => False
  | .error _, _ => True

namespace Persists

variable {α β γ δ : Type} {related : α → β → Prop} {related' : γ → δ → Prop}

theorem bind {first : Except SyntaxError α} {first' : Except SyntaxError β}
    {next : α → Except SyntaxError γ} {next' : β → Except SyntaxError δ} (h : Persists related first first')
    (hnext : ∀ a b, related a b → Persists related' (next a) (next' b)) :
    Persists related' (first >>= next) (first' >>= next') := by
  cases first with
  | error e => trivial
  | ok a =>
      cases first' with
      | error e' => exact h.elim
      | ok b => exact hnext a b h

theorem imp {related' : α → β → Prop} {outcome : Except SyntaxError α} {outcome' : Except SyntaxError β}
    (h : Persists related outcome outcome') (himp : ∀ a b, related a b → related' a b) :
    Persists related' outcome outcome' := by
  cases outcome with
  | error e => trivial
  | ok a =>
      cases outcome' with
      | error e' => exact h.elim
      | ok b => exact himp a b h

/-- The same step in both. -/
theorem step {first : Except SyntaxError α} {next : α → Except SyntaxError γ} {next' : α → Except SyntaxError δ}
    (hnext : ∀ a, Persists related' (next a) (next' a)) :
    Persists related' (first >>= next) (first >>= next') := by
  cases first with
  | error e => trivial
  | ok a => exact hnext a

theorem exists_of_ok {a : α} {outcome : Except SyntaxError β} (h : Persists related (.ok a) outcome) :
    ∃ b, outcome = .ok b ∧ related a b := by
  cases outcome with
  | error e => exact h.elim
  | ok b => exact ⟨b, rfl, h⟩

end Persists

/-- The value of an outcome has a property, if there is one. -/
def Ensures {α : Type} (property : α → Prop) : Except SyntaxError α → Prop
  | .ok a => property a
  | .error _ => True

namespace Ensures

variable {α β : Type} {property : α → Prop} {property' : β → Prop}

theorem bind {first : Except SyntaxError α} {next : α → Except SyntaxError β} (h : Ensures property first)
    (hnext : ∀ a, property a → Ensures property' (next a)) : Ensures property' (first >>= next) := by
  cases first with
  | error e => trivial
  | ok a => exact hnext a h

theorem imp {property' : α → Prop} {outcome : Except SyntaxError α} (h : Ensures property outcome)
    (himp : ∀ a, property a → property' a) : Ensures property' outcome := by
  cases outcome with
  | error e => trivial
  | ok a => exact himp a h

theorem and {property' : α → Prop} {outcome : Except SyntaxError α} (h : Ensures property outcome)
    (h' : Ensures property' outcome) : Ensures (fun a => property a ∧ property' a) outcome := by
  cases outcome with
  | error e => trivial
  | ok a => exact ⟨h, h'⟩

/-- A step of which nothing is known. -/
theorem skip {first : Except SyntaxError α} {next : α → Except SyntaxError β}
    (hnext : ∀ a, Ensures property' (next a)) : Ensures property' (first >>= next) := by
  cases first with
  | error e => trivial
  | ok a => exact hnext a

theorem of_eq_ok {outcome : Except SyntaxError α} {a : α} (h : Ensures property outcome)
    (hok : outcome = .ok a) : property a := by
  rw [hok] at h
  exact h

end Ensures

/-- There is a value, and it has a property. -/
def Yields {α : Type} (property : α → Prop) : Except SyntaxError α → Prop
  | .ok a => property a
  | .error _ => False

namespace Yields

variable {α β : Type} {property : α → Prop} {property' : β → Prop}

theorem bind {first : Except SyntaxError α} {next : α → Except SyntaxError β} (h : Yields property first)
    (hnext : ∀ a, property a → Yields property' (next a)) : Yields property' (first >>= next) := by
  cases first with
  | error e => exact h.elim
  | ok a => exact hnext a h

theorem imp {property' : α → Prop} {outcome : Except SyntaxError α} (h : Yields property outcome)
    (himp : ∀ a, property a → property' a) : Yields property' outcome := by
  cases outcome with
  | error e => exact h.elim
  | ok a => exact himp a h

/-- A step whose value is known. -/
theorem step {first : Except SyntaxError α} {next : α → Except SyntaxError β} {a : α} (h : first = .ok a)
    (hnext : Yields property' (next a)) : Yields property' (first >>= next) := by
  rw [h]
  exact hnext

theorem exists_eq_ok {outcome : Except SyntaxError α} (h : Yields property outcome) :
    ∃ a, outcome = .ok a ∧ property a := by
  cases outcome with
  | error e => exact h.elim
  | ok a => exact ⟨a, rfl, h⟩

end Yields

end PolishPseudocode
