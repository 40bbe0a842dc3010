import Mathlib

/-!
# Results of computations

What is known of the parts of a computation from the result of the whole, and the other way round,
for computations that may fail and for those that also have a state. A computation that fails leaves
a state as well.
-/

namespace WordLisp

/-! ## Computations with a state -/

/-- The state that a computation leaves. -/
def leftBy : EStateM.Result ε σ α → σ
  | .ok _ s => s
  | .error _ s => s

/-- A result with another state. -/
def mapState (g : σ → τ) : EStateM.Result ε σ α → EStateM.Result ε τ α
  | .ok a s => .ok a (g s)
  | .error e s => .error e (g s)

section
variable {ε σ : Type} {x : EStateM ε σ α} {f : α → EStateM ε σ β} {s s' : σ}

theorem bind_of_ok {a : α} (h : x s = .ok a s') : (x >>= f) s = f a s' := by
  show EStateM.bind x f s = _
  unfold EStateM.bind
  rw [h]

theorem bind_of_error {e : ε} (h : x s = .error e s') : (x >>= f) s = .error e s' := by
  show EStateM.bind x f s = _
  unfold EStateM.bind
  rw [h]

theorem ok_of_bind {b : β} (h : (x >>= f) s = .ok b s') :
    ∃ a s₁, x s = .ok a s₁ ∧ f a s₁ = .ok b s' := by
  cases hx : x s with
  | error e s₁ => rw [bind_of_error hx] at h; cases h
  | ok a s₁ => rw [bind_of_ok hx] at h; exact ⟨a, s₁, rfl, h⟩

/-- Either part may have failed. -/
theorem error_of_bind {e : ε} (h : (x >>= f) s = .error e s') :
    x s = .error e s' ∨ ∃ a s₁, x s = .ok a s₁ ∧ f a s₁ = .error e s' := by
  cases hx : x s with
  | error e s₁ => rw [bind_of_error hx] at h; cases h; exact .inl rfl
  | ok a s₁ => rw [bind_of_ok hx] at h; exact .inr ⟨a, s₁, rfl, h⟩

end

/-! ## Computations without one -/

theorem ok_of_bind_eq_ok {x : Except ε α} {f : α → Except ε β} {b : β} (h : x >>= f = .ok b) :
    ∃ a, x = .ok a ∧ f a = .ok b := by
  cases x with
  | error e => cases h
  | ok a => exact ⟨a, rfl, h⟩

theorem ok_of_map_eq_ok {x : Except ε α} {f : α → β} {b : β} (h : x.map f = .ok b) :
    ∃ a, x = .ok a ∧ f a = b := by
  cases x with
  | error => cases h
  | ok a => exact ⟨a, rfl, Except.ok.inj h⟩

/-- Computations that have at least the same results have them also one after the other. -/
theorem bind_mono {x x' : Option α} {f f' : α → Option β} {b : β}
    (hx : ∀ a, x = some a → x' = some a) (hf : ∀ a, f a = some b → f' a = some b)
    (h : x.bind f = some b) : x'.bind f' = some b := by
  obtain ⟨a, ha, hb⟩ := Option.bind_eq_some_iff.mp h
  exact Option.bind_eq_some_iff.mpr ⟨a, hx a ha, hf a hb⟩

theorem map_mono {x x' : Option α} {f : α → β} {b : β} (hx : ∀ a, x = some a → x' = some a)
    (h : x.map f = some b) : x'.map f = some b := by
  obtain ⟨a, ha, hb⟩ := Option.map_eq_some_iff.mp h
  exact Option.map_eq_some_iff.mpr ⟨a, hx a ha, hb⟩

end WordLisp
