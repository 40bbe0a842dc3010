import WordLisp.Proofs.Machine.Runs

/-!
# Machines with other devices

Where one device can be seen as another, a machine with the one runs as a machine with the other
(`run_map`).
-/

namespace WordLisp

namespace Machine

/-- The machine with its device seen as another one. -/
def map (f : D → E) (m : Machine D) : Machine E :=
  ⟨m.memory.map f, m.registers, m.steps, m.sliceSteps⟩

theorem load_map (f : D → E) (words : List Word) (m : Machine D) :
    load words (m.map f) = mapState (map f) (load words m) := Commutes.load (g := id) words m

section
variable [Device D] [Device E] {f : D → E} (hf : IsDeviceMap f) {m : Machine D}
include hf

theorem slice_map (budget : Nat) (m : Machine D) :
    slice budget (m.map f) = mapState (map f) (slice budget m) := Commutes.slice (g := id) hf budget m

theorem run_map (slices : Nat) (m : Machine D) :
    run slices (m.map f) = mapState (map f) (run slices m) := by
  rw [run_eq_slice, run_eq_slice, ← slice_map hf]
  rfl

theorem Halts.map {last : Machine D} (h : m.Halts last) : (m.map f).Halts (last.map f) := by
  obtain ⟨n, hn⟩ := h
  exact ⟨n, by rw [run_map hf, hn]; rfl⟩

theorem Halts.of_map {last : Machine E} (h : (m.map f).Halts last) :
    ∃ last₀, m.Halts last₀ ∧ last = last₀.map f := by
  obtain ⟨n, hn⟩ := h
  rw [run_map hf] at hn
  cases hr : run n m with
  | ok status m' =>
    rw [hr] at hn
    cases hn
    exact ⟨m', ⟨n, hr⟩, rfl⟩
  | error e m' =>
    rw [hr] at hn
    cases hn

theorem step_map (m : Machine D) : step (m.map f) = mapState (map f) (step m) :=
  Commutes.step (g := id) hf m

end

end Machine

end WordLisp
