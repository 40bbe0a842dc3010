import WordLisp.Proofs.Machine.Views

/-!
# Runs

`Steps m m'`: `m` becomes `m'` in zero or more steps, none of which halts. A run in slices is a
single slice with the budgets added up (`run_eq_slice`), so `Ends`, `Halts` and `Fails`, which speak
of `run`, come down to the last of a row of steps (`ends_iff`, `halts_iff`, `fails_iff`).
-/

namespace WordLisp.Machine

/-! ## The length of a slice stays -/

/-- The machine with slices of another length. -/
def reslice (n : Nat) (m : Machine D) : Machine D := { m with sliceSteps := n }

/-- An action that does the same with slices of any length leaves that length as it is. -/
theorem sliceSteps_leftBy {a : Action D α} {m : Machine D}
    (h : a (m.reslice m.sliceSteps) = mapState (reslice m.sliceSteps) (a m)) :
    (leftBy (a m)).sliceSteps = m.sliceSteps := by
  have h : a m = mapState (reslice m.sliceSteps) (a m) := h
  rw [h]
  cases a m <;> rfl

section
variable [Device D]

theorem slice_reslice (n budget : Nat) (m : Machine D) :
    slice budget (m.reslice n) = mapState (reslice n) (slice budget m) :=
  Commutes.slice (g := fun _ => n) .id budget m

end

/-! ## Endings -/

/-- How a run ends: it halts, or it meets a fault. -/
def ending (fault : Option Fault) (last : Machine D) : EStateM.Result Fault (Machine D) Status :=
  match fault with
  | none => .ok .halted last
  | some e => .error e last

theorem ending_inj {fault fault' : Option Fault} {last last' : Machine D}
    (h : ending fault last = ending fault' last') : fault = fault' ∧ last = last' := by
  cases fault <;> cases fault' <;> cases h <;> exact ⟨rfl, rfl⟩

/-! ## Slices -/

section
variable [Device D] {m m' : Machine D}

theorem step_of_halted (h : m.status = .halted) : step m = .ok .halted m := by
  unfold step
  simp only [bind, EStateM.bind, get, getThe, MonadStateOf.get, EStateM.get, h]
  rfl

theorem slice_of_halted (h : m.status = .halted) (budget : Nat) :
    slice budget m = .ok .halted m := by
  cases budget with
  | zero =>
    show EStateM.Result.ok m.status m = _
    rw [h]
  | succ n =>
    unfold slice
    simp only [bind, EStateM.bind, step_of_halted h]
    rfl

theorem slice_succ_halted (h : step m = .ok .halted m') (n : Nat) :
    slice (n + 1) m = .ok .halted m' := by
  unfold slice
  simp only [bind, EStateM.bind, h]
  rfl

theorem slice_succ_running (h : step m = .ok .running m') (n : Nat) :
    slice (n + 1) m = slice n m' := by
  rw [slice]
  simp only [bind, EStateM.bind, h]

theorem slice_succ_error {e : Fault} (h : step m = .error e m') (n : Nat) :
    slice (n + 1) m = .error e m' := by
  rw [slice]
  simp only [bind, EStateM.bind, h]

/-- Two slices with the budgets `a` and `b` are one with the budget `a + b`. -/
theorem slice_add (a b : Nat) (m : Machine D) :
    slice (a + b) m = (do
      match ← slice a with
      | .halted => return .halted
      | .running => slice b : Action D Status) m := by
  induction a generalizing m with
  | zero =>
    rw [Nat.zero_add]
    simp only [slice, bind, EStateM.bind, get, getThe, MonadStateOf.get, EStateM.get, pure,
      EStateM.pure]
    cases h : m.status with
    | halted => exact slice_of_halted h b
    | running => rfl
  | succ a ih =>
    rw [Nat.succ_add]
    cases h : step m with
    | error e m' => simp only [bind, EStateM.bind, slice_succ_error h]
    | ok status m' =>
      cases status with
      | halted =>
        simp only [bind, EStateM.bind, slice_succ_halted h]
        rfl
      | running =>
        rw [slice_succ_running h, ih]
        simp only [bind, EStateM.bind, slice_succ_running h]

theorem run_eq_slice (n : Nat) (m : Machine D) : run n m = slice (n * m.sliceSteps) m := by
  induction n generalizing m with
  | zero => rw [Nat.zero_mul]; rfl
  | succ n ih =>
    have hk := sliceSteps_leftBy (slice_reslice m.sliceSteps m.sliceSteps m)
    rw [Nat.succ_mul, Nat.add_comm (n * m.sliceSteps), slice_add]
    show EStateM.bind _ _ _ = EStateM.bind _ _ _
    unfold EStateM.bind
    simp only
    cases h : slice m.sliceSteps m with
    | error e m' => rfl
    | ok status m' =>
      cases status with
      | halted => rfl
      | running =>
        rw [h] at hk
        have hk : m'.sliceSteps = m.sliceSteps := hk
        show run n m' = slice (n * m.sliceSteps) m'
        rw [ih, hk]

/-! ## Slices that end -/

theorem slice_succ_ending {fault : Option Fault} (h : step m = ending fault m') (n : Nat) :
    slice (n + 1) m = ending fault m' := by
  cases fault with
  | none => exact slice_succ_halted h n
  | some e => exact slice_succ_error h n

/-- A slice that has ended is not changed by a greater budget. -/
theorem slice_of_ending {fault : Option Fault} {a b : Nat} (h : slice a m = ending fault m')
    (hle : a ≤ b) : slice b m = ending fault m' := by
  obtain ⟨rest, rfl⟩ := Nat.exists_eq_add_of_le hle
  rw [slice_add]
  show EStateM.bind _ _ _ = _
  unfold EStateM.bind
  rw [h]
  cases fault <;> rfl

/-- Two slices of a machine that both end do so in the same way. -/
theorem ending_unique {fault fault' : Option Fault} {last last' : Machine D} {a b : Nat}
    (h : slice a m = ending fault last) (h' : slice b m = ending fault' last') :
    fault = fault' ∧ last = last' := by
  have hmax := slice_of_ending h (Nat.le_max_left a b)
  rw [slice_of_ending h' (Nat.le_max_right a b)] at hmax
  exact ending_inj hmax.symm

/-- The run of the machine ends with a fault or halted, and leaves the machine `last`. -/
def Ends (m : Machine D) (fault : Option Fault) (last : Machine D) : Prop :=
  ∃ slices, m.run slices = ending fault last

theorem ends_iff_slice (hpos : 0 < m.sliceSteps) {fault : Option Fault} :
    m.Ends fault m' ↔ ∃ budget, slice budget m = ending fault m' := by
  constructor
  · rintro ⟨slices, h⟩
    exact ⟨_, run_eq_slice slices m ▸ h⟩
  · rintro ⟨budget, h⟩
    refine ⟨budget, ?_⟩
    rw [run_eq_slice]
    exact slice_of_ending h (Nat.le_mul_of_pos_right budget hpos)

/-! ## Rows of steps -/

/-- Zero or more steps, none of which halts. -/
inductive Steps : Machine D → Machine D → Prop where
  | refl (m : Machine D) : Steps m m
  | head {m m₁ m₂ : Machine D} : step m = .ok .running m₁ → Steps m₁ m₂ → Steps m m₂

theorem Steps.trans {m₁ m₂ m₃ : Machine D} (h : Steps m₁ m₂) (h' : Steps m₂ m₃) : Steps m₁ m₃ := by
  induction h with
  | refl => exact h'
  | head hs _ ih => exact .head hs (ih h')

theorem Steps.single (h : step m = .ok .running m') : Steps m m' := .head h (.refl _)

/-- A slice that is long enough gets to the end of a row of steps. -/
theorem Steps.slice_eq (h : Steps m m') : ∃ k, ∀ n, slice (k + n) m = slice n m' := by
  induction h with
  | refl => exact ⟨0, fun n => by rw [Nat.zero_add]⟩
  | head hs _ ih =>
    obtain ⟨k, hk⟩ := ih
    exact ⟨k + 1, fun n => by rw [Nat.add_right_comm, slice_succ_running hs, hk]⟩

theorem slice_cases (n : Nat) (m : Machine D) :
    ∃ m₁, Steps m m₁ ∧ (slice n m = .ok .running m₁ ∨
      ∃ fault m', slice n m = ending fault m' ∧ step m₁ = ending fault m') := by
  induction n generalizing m with
  | zero =>
    refine ⟨m, .refl m, ?_⟩
    show EStateM.Result.ok m.status m = _ ∨ _
    cases h : m.status with
    | running => exact .inl rfl
    | halted => exact .inr ⟨none, m, slice_of_halted h 0, step_of_halted h⟩
  | succ n ih =>
    cases h : step m with
    | error e m' => exact ⟨m, .refl m, .inr ⟨some e, m', slice_succ_error h n, h⟩⟩
    | ok status m' =>
      cases status with
      | halted => exact ⟨m, .refl m, .inr ⟨none, m', slice_succ_halted h n, h⟩⟩
      | running =>
        obtain ⟨m₁, hs, hc⟩ := ih m'
        rw [slice_succ_running h]
        exact ⟨m₁, .head h hs, hc⟩

theorem ends_iff (hpos : 0 < m.sliceSteps) {fault : Option Fault} :
    m.Ends fault m' ↔ ∃ m₁, Steps m m₁ ∧ step m₁ = ending fault m' := by
  rw [ends_iff_slice hpos]
  constructor
  · rintro ⟨budget, h⟩
    obtain ⟨m₁, hs, hc | ⟨fault', m₂, hc, hstep⟩⟩ := slice_cases budget m
    · rw [hc] at h
      cases fault <;> cases h
    · obtain ⟨rfl, rfl⟩ := ending_inj (hc.symm.trans h)
      exact ⟨m₁, hs, hstep⟩
  · rintro ⟨m₁, hs, hstep⟩
    obtain ⟨k, hk⟩ := hs.slice_eq
    exact ⟨k + 1, by rw [hk, slice_succ_ending hstep]⟩

/-- The machine runs until it has halted as `m'`. -/
def Halts (m m' : Machine D) : Prop := ∃ n, m.run n = .ok .halted m'

/-- The machine runs until it meets a fault. -/
def Fails (m : Machine D) (e : Fault) : Prop := ∃ n m', m.run n = .error e m'

theorem halts_iff (hpos : 0 < m.sliceSteps) :
    Halts m m' ↔ ∃ m₁, Steps m m₁ ∧ step m₁ = .ok .halted m' :=
  show m.Ends none m' ↔ _ from ends_iff hpos

theorem fails_iff {e : Fault} (hpos : 0 < m.sliceSteps) :
    Fails m e ↔ ∃ m₁ m', Steps m m₁ ∧ step m₁ = .error e m' := by
  have hends (last : Machine D) : m.Ends (some e) last ↔ ∃ m₁, Steps m m₁ ∧ step m₁ = .error e last :=
    ends_iff hpos
  rw [exists_comm, Fails, exists_comm]
  exact exists_congr hends

/-- A machine halts in one way at most. -/
theorem Halts.unique {a b : Machine D} (ha : m.Halts a) (hb : m.Halts b) : a = b := by
  obtain ⟨i, hi : m.run i = ending none a⟩ := ha
  obtain ⟨j, hj : m.run j = ending none b⟩ := hb
  rw [run_eq_slice] at hi hj
  exact (ending_unique hi hj).2

end

theorem sliceSteps_new_pos (device : D) (config : Config) : 0 < (new device config).sliceSteps :=
  Nat.lt_of_lt_of_le Nat.zero_lt_one (Nat.le_max_right _ 1)

end WordLisp.Machine
