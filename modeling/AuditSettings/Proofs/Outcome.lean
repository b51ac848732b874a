/-
AuditSettings.Proofs.Outcome — reading the outcome of a computation
backwards.

A computation that can fail is mostly another one with something done to
its result. Each statement here goes from the outcome of the whole to that
of the part, so that a proof about a run can take it apart step by step.
-/

namespace AuditSettings

variable {ε α β γ : Type}

/-- What is made of a result was made of one. -/
theorem exists_of_map_eq_ok {x : Except ε α} {f : α → β} {b : β} (h : x.map f = .ok b) :
    ∃ a, x = .ok a ∧ b = f a := by
  cases x with
  | error e => cases h
  | ok a =>
    cases h
    exact ⟨a, rfl, rfl⟩

/-- There is a result to make something of, or none of either. -/
theorem exists_map_eq_ok_iff {x : Except ε α} {f : α → β} :
    (∃ b, x.map f = .ok b) ↔ ∃ a, x = .ok a := by
  cases x with
  | error e => simp [Except.map]
  | ok a => simp [Except.map]

/-- A failure is not made of a result. -/
theorem eq_of_map_eq_error {x : Except ε α} {f : α → β} {e : ε} (h : x.map f = .error e) :
    x = .error e := by
  cases x with
  | ok a => cases h
  | error e' =>
    cases h
    rfl

theorem map_eq_error_iff {x : Except ε α} {f : α → β} {e : ε} :
    x.map f = .error e ↔ x = .error e := by
  refine ⟨eq_of_map_eq_error, fun h => ?_⟩
  rw [h]
  rfl

/-- Another failure changes no result. -/
theorem mapError_eq_ok_iff {x : Except ε α} {f : ε → β} {a : α} :
    x.mapError f = .ok a ↔ x = .ok a := by
  cases x with
  | error e => exact iff_of_false nofun nofun
  | ok b =>
    constructor
    · rintro ⟨⟩
      rfl
    · rintro ⟨⟩
      rfl

/-- Two steps that give a result each give one. -/
theorem exists_of_bind_eq_ok {x : Except ε α} {f : α → Except ε β} {b : β}
    (h : (x >>= f) = .ok b) : ∃ a, x = .ok a ∧ f a = .ok b := by
  cases x with
  | error e => cases h
  | ok a => exact ⟨a, rfl, h⟩

theorem toOption_bind (x : Except ε α) (f : α → Except ε β) :
    (x >>= f).toOption = x.toOption.bind fun a => (f a).toOption := by
  cases x <;> rfl

theorem toOption_map (x : Except ε α) (f : α → β) : (x.map f).toOption = x.toOption.map f := by
  cases x <;> rfl

/-- There is a result where something is made of one. -/
theorem exists_of_toOption_map {x : Except ε α} {f : α → β} {b : β}
    (h : x.toOption.map f = some b) : ∃ a, x = .ok a ∧ f a = b := by
  cases x with
  | error e => cases h
  | ok a => exact ⟨a, rfl, Option.some.inj h⟩

/-- Two computations that agree on what is made of their results both have
one or both have none. -/
theorem cases_of_toOption_map_eq {x : Except ε α} {y : Except ε β} {f : α → γ} {g : β → γ}
    (h : x.toOption.map f = y.toOption.map g) :
    (∃ e e', x = .error e ∧ y = .error e') ∨ ∃ a b, x = .ok a ∧ y = .ok b ∧ f a = g b := by
  cases x with
  | error e =>
    cases y with
    | error e' => exact .inl ⟨e, e', rfl, rfl⟩
    | ok b => cases h
  | ok a =>
    cases y with
    | error e' => cases h
    | ok b => exact .inr ⟨a, b, rfl, rfl, Option.some.inj h⟩

theorem cases_of_toOption_eq {x : Except ε β} {y : Except ε α} {f : α → β}
    (h : x.toOption = y.toOption.map f) :
    (∃ e e', x = .error e ∧ y = .error e') ∨ ∃ a, x = .ok (f a) ∧ y = .ok a := by
  have hid : x.toOption.map id = y.toOption.map f := by simpa using h
  rcases cases_of_toOption_map_eq hid with herror | ⟨b, a, hx, hy, hb⟩
  · exact .inl herror
  · exact .inr ⟨a, hx.trans (congrArg Except.ok hb), hy⟩

theorem exists_of_isOk {x : Except ε α} (h : x.isOk = true) : ∃ a, x = .ok a := by
  cases x with
  | error e => cases h
  | ok a => exact ⟨a, rfl⟩

/-- What is checked of a result holds of it. -/
theorem of_all {x : Except ε α} {a : α} (p : α → Bool) (hx : x = .ok a)
    (h : x.toOption.all p = true) : p a = true := by
  subst hx
  exact h

end AuditSettings
