import WordLisp.Proofs.Code.Accesses
import WordLisp.Proofs.Reload.Program
import WordLisp.Proofs.View.Outcome

/-!
# Runs that use no pointers

A machine whose program goes through no pointers has a view in every state that it reaches, and
never touches its device.
-/

namespace WordLisp

open Machine

/-- Zero or more successful steps, with those of a machine that has halted. -/
inductive Machine.Reaches [Device D] : Machine D → Machine D → Prop where
  | refl (m : Machine D) : Reaches m m
  | tail {m₁ m₂ m₃ : Machine D} {status : Status} :
    Reaches m₁ m₂ → step m₂ = .ok status m₃ → Reaches m₁ m₃

/-- Steps lead to states that are reached. -/
theorem Machine.Reaches.steps [Device D] {m₀ m m' : Machine D} (h : m₀.Reaches m) (hs : Steps m m') :
    m₀.Reaches m' := by
  induction hs with
  | refl => exact h
  | head hstep _ ih => exact ih (.tail h hstep)

/-- No operation of the program goes through a pointer. -/
def Program.Direct (p : Program) : Prop :=
  ∀ r ∈ p.routines, ∀ op ∈ r.code, ∀ x, ¬ op.Follows x

theorem Program.Direct.optimized {p : Program} (h : p.Direct) : p.optimized.Direct := by
  intro r hr op hop
  obtain ⟨r₀, hr₀, rfl⟩ := List.mem_map.mp hr
  exact h r₀ hr₀ op ((Op.dropReloadsAfter_sublist _ _).subset hop)

theorem IsCompiled.direct {items : List Item} {pool : SymbolPool} {p : Program} {env : Resources}
    (hc : IsCompiled items pool p env)
    (h : ∀ f ∈ Item.functions items, f.ReadsDirectly ∧ f.WritesDirectly) : p.Direct := by
  intro r hr op hop
  obtain ⟨f, hf, hfr⟩ := hc.function_of_mem hr
  have hstems := hfr.stems op hop
  rintro x (hx | hx)
  · obtain ⟨name, hm⟩ := hstems.load x hx
    exact (h f hf).1 name hm
  · obtain ⟨name, value, hm⟩ := hstems.store x hx
    exact (h f hf).2 name value hm

section
variable [Device D] {p : Program} {words : List Word} {roof : Int} {m : Machine D} {v : View D}
  {op : Op} {rest : List Op}

omit [Device D] in
/-- No operation in front of a machine goes through a pointer. -/
theorem Represents.not_follows (hd : p.Direct) (h : Represents p words roof m v)
    (hc : v.top.code = op :: rest) (x : Operand) : ¬ op.Follows x := by
  have hmem : op ∈ v.top.routine.code := Represents.mem_code h.sits hc
  rcases h.sits.has with hboot | hr
  · rw [hboot] at hmem
    rintro (rfl | rfl) <;> simp [Routine.boot] at hmem
  · exact hd _ hr op hmem x

/-- A machine has a view that is in front of an instruction. -/
theorem Represents.settled (hw : p.WellFormed) (hf : p.Fits words)
    (h : Represents p words roof m v) :
    ∃ v' op rest, Represents p words roof m v' ∧ v'.device = v.device ∧
      v'.top.code = op :: rest ∧ ∀ name, op ≠ .tag name := by
  generalize hn : v.top.code.length = n
  induction n generalizing v with
  | zero => exact absurd (List.length_eq_zero_iff.mp hn) h.sits.nonempty
  | succ n ih =>
    cases hc : v.top.code with
    | nil => exact absurd hc h.sits.nonempty
    | cons op rest =>
      by_cases htag : ∃ name, op = .tag name
      · obtain ⟨name, rfl⟩ := htag
        have ha := h.agrees_turn hw hf
        rw [View.turn_cons hc] at ha
        obtain ⟨v', op', rest', h', hdev, hc', hne⟩ := ih ha (by
          rw [hc] at hn
          exact Nat.succ.inj hn)
        exact ⟨v', op', rest', h', hdev, hc', hne⟩
      · exact ⟨v, op, rest, h, rfl, hc, fun name he => htag ⟨name, he⟩⟩

/-- Every state that a loaded machine reaches has a view, or is that in which the start has
halted. -/
theorem Represents.of_reaches (hw : p.WellFormed) (hf : p.Fits words) (hd : p.Direct)
    {m₀ : Machine D} {v₀ : View D} (h₀ : Represents p words roof m₀ v₀) (hr : m₀.Reaches m) :
    (∃ v op rest, Represents p words roof m v ∧ v.device = v₀.device ∧ v.top.code = op :: rest ∧
      ∀ name, op ≠ .tag name) ∨
    ∃ m₁ v, Represents p words roof m₁ v ∧ v.device = v₀.device ∧ v.top.routine = .boot ∧
      v.top.base = programCapacity ∧ m = m₁.stopped := by
  induction hr with
  | refl => exact .inl (h₀.settled hw hf)
  | @tail m m' status _ hstep ih =>
    rcases ih with ⟨v, op, rest, h, hdev, hc, htag⟩ | ⟨m₁, v, h, hdev, hboot, hbase, rfl⟩
    · by_cases hstop : op = .stop
      · subst hstop
        obtain ⟨hhalt, hboot, hbase⟩ := h.step_stop hw hf hc
        rw [hhalt] at hstep
        cases hstep
        exact .inr ⟨m, v, h, hdev, hboot, hbase, rfl⟩
      · have ha := h.agrees_turn hw hf
        have hdirect := h.not_follows hd hc
        rcases h.turn_cases hw hf hc htag hstop (fun x hx => absurd hx (hdirect x)) with
          ⟨v', hturn, hdev'⟩ | ⟨e, hturn⟩
        · rw [hturn] at ha
          obtain ⟨m'', hnext, h'⟩ := ha
          rw [hnext] at hstep
          cases hstep
          obtain ⟨v'', op', rest', h'', hdev'', hc', htag'⟩ := h'.settled hw hf
          exact .inl ⟨v'', op', rest', h'', by rw [hdev'', hdev' hdirect, hdev], hc', htag'⟩
        · rw [hturn] at ha
          obtain ⟨m'', hfault⟩ := ha
          rw [hfault] at hstep
          cases hstep
    · rw [step_of_halted m₁.status_stopped] at hstep
      cases hstep
      exact .inr ⟨m₁, v, h, hdev, hboot, hbase, rfl⟩

end

end WordLisp
