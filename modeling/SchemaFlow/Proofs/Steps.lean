/-!
# Steps that may fail

A `do` block over `Except` succeeds when each of its steps does; the lemmas here take such a block
apart and put it together, one step at a time.
-/

namespace SchemaFlow

namespace Step

variable {ε α β : Type}

/-- A block succeeds when its first step does and then the rest. -/
theorem bind_eq_ok {x : Except ε α} {f : α → Except ε β} {b : β} :
    x >>= f = .ok b ↔ ∃ a, x = .ok a ∧ f a = .ok b := by
  cases x with
  | ok a =>
      constructor
      · intro h
        exact ⟨a, rfl, h⟩
      · rintro ⟨_, ha, h⟩
        cases ha
        exact h
  | error e =>
      constructor
      · intro h
        cases h
      · rintro ⟨_, h, _⟩
        cases h

/-- A block goes on with what its first step gives. -/
@[simp] theorem ok_bind (a : α) (f : α → Except ε β) : Except.ok a >>= f = f a := rfl

@[simp] theorem pure_eq_ok (a : α) : (pure a : Except ε α) = .ok a := rfl

/-- The rest of a block whose first step has succeeded. -/
theorem bind_of_ok {x : Except ε α} {a : α} (h : x = .ok a) (f : α → Except ε β) :
    x >>= f = f a := by
  rw [h]
  rfl

/-- Blocks are taken apart at any of their steps. -/
theorem bind_assoc {γ : Type} (x : Except ε α) (f : α → Except ε β) (h : β → Except ε γ) :
    x >>= f >>= h = x >>= fun a => f a >>= h := by
  cases x <;> rfl

end Step

end SchemaFlow
