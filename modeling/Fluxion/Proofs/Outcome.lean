/-!
# Outcomes of stages

A stage that may fail gives an `Except`, and stages follow one another by
`bind`.  A run of stages succeeds exactly when each of them does.
-/

namespace Fluxion

variable {ε α β : Type}

/-- Two stages succeed exactly when the first one does and the second one does
on its result. -/
theorem bind_eq_ok {first : Except ε α} {next : α → Except ε β} {result : β} :
    first >>= next = .ok result ↔ ∃ value, first = .ok value ∧ next value = .ok result := by
  cases first with
  | error e => simp [bind, Except.bind]
  | ok value => simp [bind, Except.bind]

/-- Two stages fail if the first one does, or if the second one does on its result. -/
theorem bind_eq_error {first : Except ε α} {next : α → Except ε β} {fault : ε} :
    first >>= next = .error fault ↔
      first = .error fault ∨ ∃ value, first = .ok value ∧ next value = .error fault := by
  cases first with
  | error e => simp [bind, Except.bind]
  | ok value => simp [bind, Except.bind]

/-- A second stage that cannot fail is not the reason. -/
theorem eq_error_of_bind_pure {first : Except ε α} {next : α → β} {fault : ε}
    (h : (first >>= fun value => pure (next value)) = .error fault) : first = .error fault := by
  cases first with
  | error e => exact congrArg Except.error (Except.error.inj h)
  | ok value => cases h

@[simp]
theorem ok_bind (value : α) (next : α → Except ε β) :
    (Except.ok value >>= next : Except ε β) = next value := rfl

theorem toOption_eq_some {outcome : Except ε α} {value : α} :
    outcome.toOption = some value ↔ outcome = .ok value := by
  cases outcome <;> simp [Except.toOption]

end Fluxion
