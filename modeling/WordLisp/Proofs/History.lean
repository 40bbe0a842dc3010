import Mathlib

/-!
# Histories

A history is the list of the operations that something has been through, in order. `latest f` looks
for the last operation that matters in some respect, which is one where `f` finds a value. What the
operations do to a state is a fold, and `foldl_invariant` is the induction over it.
-/

namespace WordLisp

/-- The value that `f` finds in the last operation where it finds one. -/
def latest (f : α → Option β) (history : List α) : Option β := (history.filterMap f).getLast?

variable {f : α → Option β}

theorem latest_concat (history : List α) (operation : α) :
    latest f (history ++ [operation]) = (f operation).or (latest f history) := by
  unfold latest
  rw [List.filterMap_append, List.getLast?_append]
  cases h : f operation <;> simp [h]

theorem latest_concat_of_none {operation : α} (h : f operation = none) (history : List α) :
    latest f (history ++ [operation]) = latest f history := by
  rw [latest_concat, h, Option.none_or]

theorem latest_concat_of_some {operation : α} {value : β} (h : f operation = some value)
    (history : List α) : latest f (history ++ [operation]) = some value := by
  rw [latest_concat, h, Option.some_or]

/-- What holds before any operation, and after each if it held before, holds after every history. -/
theorem foldl_invariant {σ : Type} {next : σ → α → σ} {P : σ → List α → Prop} {start : σ}
    (hstart : P start [])
    (hnext : ∀ s history operation, P s history → P (next s operation) (history ++ [operation]))
    (history : List α) : P (history.foldl next start) history := by
  induction history using List.reverseRecOn with
  | nil => exact hstart
  | append_singleton history operation ih =>
    rw [List.foldl_append]
    exact hnext _ history operation ih

end WordLisp
