import WordLisp.Machine.Terminal
import WordLisp.Proofs.Machine.Runs
import WordLisp.Proofs.Machine.Steps

/-!
# Slices do not show

How a run is cut into slices makes no difference. Slices one after the other are one slice with the
budgets added up, wherever in them the program halts or meets a fault. A run ends if and only if some
single slice does, and such a slice does not depend on the length of the slices of the run.
-/

namespace WordLisp.Machine

/-! ## The status of a machine -/

theorem status_of_bind {a : Action D α} {k : α → Action D Status} {m m' : Machine D} {status : Status}
    (hk : ∀ x m, k x m = .ok status m' → m'.status = status)
    (h : EStateM.bind a k m = .ok status m') : m'.status = status := by
  unfold EStateM.bind at h
  split at h
  · exact hk _ _ h
  · cases h

section
variable [Device D] {m m' : Machine D}

/-- The status that a step reports is that of the machine that it leaves. -/
theorem status_of_step {status : Status} (h : step m = .ok status m') : m'.status = status := by
  cases hs : m.status with
  | halted =>
    rw [step_of_halted hs] at h
    cases h
    exact hs
  | running =>
    unfold step at h
    simp only [bind, EStateM.bind, get, getThe, MonadStateOf.get, EStateM.get, hs] at h
    cases hr : read m.registers.pc m with
    | error e m₁ =>
      rw [hr] at h
      cases h
    | ok word m₁ =>
      simp only [hr] at h
      cases ho : Opcode.ofCode? (Fields.ofWord word).opcode with
      | none =>
        rw [ho] at h
        cases h
      | some opcode =>
        simp only [ho] at h
        refine status_of_bind (fun _ _ h => status_of_bind (fun _ _ h => ?_) h) h
        cases h
        rfl

theorem status_of_slice {budget : Nat} {status : Status} (h : slice budget m = .ok status m') :
    m'.status = status := by
  induction budget generalizing m with
  | zero =>
    cases h
    rfl
  | succ budget ih =>
    cases hs : step m with
    | error e m₁ =>
      rw [slice_succ_error hs] at h
      cases h
    | ok s m₁ =>
      cases s with
      | halted =>
        rw [slice_succ_halted hs] at h
        cases h
        exact status_of_step hs
      | running =>
        rw [slice_succ_running hs] at h
        exact ih h

/-! ## Slices one after the other -/

/-- Slices with the given budgets, of which there is at least one. A fault ends them. -/
def sliceEach (budget : Nat) : (budgets : List Nat) → Action D Status
  | [] => slice budget
  | next :: budgets => do
    let _ ← slice budget
    sliceEach next budgets

theorem sliceEach_eq (budget : Nat) (budgets : List Nat) (m : Machine D) :
    sliceEach budget budgets m = slice (budget + budgets.sum) m := by
  induction budgets generalizing budget m with
  | nil => rfl
  | cons next budgets ih =>
    rw [List.sum_cons, slice_add]
    show EStateM.bind _ _ _ = EStateM.bind _ _ _
    unfold EStateM.bind
    cases hs : slice budget m with
    | error e m' => rfl
    | ok status m' =>
      show sliceEach next budgets m' = _
      rw [ih]
      cases status with
      | halted => exact slice_of_halted (status_of_slice hs) _
      | running => rfl

end

/-! ## The length of the slices -/

theorem mapState_ending_iff {f : Machine D → Machine D}
    {result : EStateM.Result Fault (Machine D) Status} {fault : Option Fault} {last : Machine D} :
    mapState f result = ending fault last ↔ ∃ last₀, result = ending fault last₀ ∧ last = f last₀ := by
  constructor
  · intro h
    cases fault <;> cases result <;> cases h <;> exact ⟨_, rfl, rfl⟩
  · rintro ⟨last₀, rfl, rfl⟩
    cases fault <;> rfl

section
variable [Device D] {m : Machine D} {fault : Option Fault} {last : Machine D}

/-- A run in slices of any length ends where a single slice does. -/
theorem ends_reslice_iff {n : Nat} (hpos : 0 < n) : (m.reslice n).Ends fault last ↔
    ∃ budget last₀, slice budget m = ending fault last₀ ∧ last = last₀.reslice n := by
  rw [ends_iff_slice (m := m.reslice n) hpos]
  simp only [slice_reslice, mapState_ending_iff]

/-- The runs of two machines end alike: one ends if the other does, with the same fault if there is
one, the same result, registers and number of steps, and the same memory, of which the device is a
part. -/
structure EndAlike (m m' : Machine D) : Prop where
  ends_iff : (∃ fault last, m.Ends fault last) ↔ ∃ fault last, m'.Ends fault last
  agree {fault last fault' last'} : m.Ends fault last → m'.Ends fault' last' →
    fault' = fault ∧ last'.result? = last.result? ∧ last'.registers = last.registers ∧
      last'.steps = last.steps ∧ last'.memory = last.memory

theorem endAlike_reslice {j k : Nat} (hj : 0 < j) (hk : 0 < k) (m : Machine D) :
    EndAlike (m.reslice j) (m.reslice k) where
  ends_iff := by
    have htransfer {a b : Nat} (ha : 0 < a) (hb : 0 < b)
        (h : ∃ fault last, (m.reslice a).Ends fault last) :
        ∃ fault last, (m.reslice b).Ends fault last := by
      obtain ⟨fault, last, h⟩ := h
      obtain ⟨budget, last₀, h₀, -⟩ := (ends_reslice_iff ha).mp h
      exact ⟨fault, _, (ends_reslice_iff hb).mpr ⟨budget, last₀, h₀, rfl⟩⟩
    exact ⟨htransfer hj hk, htransfer hk hj⟩
  agree h h' := by
    obtain ⟨a, last₀, h₀, rfl⟩ := (ends_reslice_iff hj).mp h
    obtain ⟨b, last₁, h₁, rfl⟩ := (ends_reslice_iff hk).mp h'
    obtain ⟨rfl, rfl⟩ := ending_unique h₀ h₁
    exact ⟨rfl, rfl, rfl, rfl, rfl⟩

end

theorem load_reslice (n : Nat) (words : List Word) (m : Machine D) :
    (m.reslice n).load words = mapState (reslice n) (m.load words) :=
  Commutes.load (f := id) (g := fun _ => n) words m

theorem sliceSteps_of_load {words : List Word} {m m' : Machine D} (h : m.load words = .ok () m') :
    m'.sliceSteps = m.sliceSteps := by
  have hleft := sliceSteps_leftBy (load_reslice m.sliceSteps words m)
  rw [h] at hleft
  exact hleft

/-- Slicing does not show. Slices with several budgets leave the machine and yield the status or the
fault that a single slice with their sum does. And runs end alike in slices as any two configurations
give their length, started from a machine in any state, or with any program just loaded. -/
theorem slicing_invisible [Device D] (m : Machine D) :
    (∀ (budget : Nat) (budgets : List Nat),
      sliceEach budget budgets m = slice (budget + budgets.sum) m) ∧
    ∀ (device : D) (config : Config) (j k : Nat),
      EndAlike (m.reslice (new device { config with sliceSteps := j }).sliceSteps)
        (m.reslice (new device { config with sliceSteps := k }).sliceSteps) ∧
      ∀ words m₁ m₂, (new device { config with sliceSteps := j }).load words = .ok () m₁ →
        (new device { config with sliceSteps := k }).load words = .ok () m₂ → EndAlike m₁ m₂ := by
  refine ⟨fun budget budgets => sliceEach_eq budget budgets m, fun device config j k => ?_⟩
  have hj := sliceSteps_new_pos device { config with sliceSteps := j }
  have hk := sliceSteps_new_pos device { config with sliceSteps := k }
  refine ⟨endAlike_reslice hj hk m, fun words m₁ m₂ h₁ h₂ => ?_⟩
  have hsteps := sliceSteps_of_load h₂
  -- The two machines without a program differ in the length of their slices only.
  have hload := load_reslice (max j 1) words (new device { config with sliceSteps := k })
  rw [h₂] at hload
  cases h₁.symm.trans hload
  have halike := endAlike_reslice hj hk m₂
  rw [← hsteps] at halike
  exact halike

/-- Two swaps and a halt, in slices that were to have no step and in slices of two. Neither run is
over after its first slice. -/
theorem slicing_invisible_swaps : ∃ m₁ m₂ last₁ last₂ : Machine Terminal,
    (new { width := 0, height := 0 } { sliceSteps := 0 }).load
      [0x34000000, 0x34000000, 0x42FFFFFF] = .ok () m₁ ∧
    (new { width := 0, height := 0 } { sliceSteps := 2 }).load
      [0x34000000, 0x34000000, 0x42FFFFFF] = .ok () m₂ ∧
    (leftBy (m₁.run 1)).status = .running ∧ (leftBy (m₂.run 1)).status = .running ∧
    m₁.Ends none last₁ ∧ m₂.Ends none last₂ ∧ last₁.status = .halted ∧ last₂.status = .halted ∧
    last₂.registers = last₁.registers ∧ last₂.memory = last₁.memory := by
  have hrow (m : Machine Terminal) (hregisters : m.registers = {})
      (hcell : ∀ i, m.memory.cell i = [0x34000000, 0x34000000, 0x42FFFFFF].getD i 0) :
      ∃ n₁ n₂, step m = .ok .running n₁ ∧ step n₁ = .ok .running n₂ ∧
        step n₂ = .ok .halted n₂.stopped := by
    have hfirst : m.At 0 (.nullary .swap) :=
      ⟨by rw [hregisters]; decide, by decide, by rw [hcell]; decide +kernel⟩
    refine ⟨_, _, step_swap hfirst, step_swap (p := 1) ⟨rfl, by decide, ?_⟩,
      step_halt (p := 2) ⟨rfl, by decide, ?_⟩⟩
    · show Instruction.decode? (m.memory.cell 1) = _
      rw [hcell]
      decide +kernel
    · show Instruction.decode? (m.memory.cell 2) = _
      rw [hcell]
      decide +kernel
  obtain ⟨m₁, hload₁, hregisters₁, -, hcell₁⟩ := load_eq [0x34000000, 0x34000000, 0x42FFFFFF]
    (by decide) (new ({ width := 0, height := 0 } : Terminal) { sliceSteps := 0 })
  obtain ⟨m₂, hload₂, hregisters₂, -, hcell₂⟩ := load_eq [0x34000000, 0x34000000, 0x42FFFFFF]
    (by decide) (new ({ width := 0, height := 0 } : Terminal) { sliceSteps := 2 })
  have hlength₁ : m₁.sliceSteps = 1 := sliceSteps_of_load hload₁
  have hlength₂ : m₂.sliceSteps = 2 := sliceSteps_of_load hload₂
  obtain ⟨n₁, n₂, hstep, hstep', hhalt⟩ := hrow m₁ hregisters₁ hcell₁
  obtain ⟨o₁, o₂, hstep₂, hstep₂', -⟩ := hrow m₂ hregisters₂ hcell₂
  have hfirst₁ : m₁.run 1 = .ok n₁.status n₁ := by
    rw [run_eq_slice, hlength₁, slice_succ_running hstep]
    rfl
  have hfirst₂ : m₂.run 1 = .ok o₂.status o₂ := by
    rw [run_eq_slice, hlength₂, slice_succ_running hstep₂, slice_succ_running hstep₂']
    rfl
  have hends : m₁.Ends none n₂.stopped :=
    (Machine.ends_iff (by omega)).mpr ⟨n₂, .head hstep (.single hstep'), hhalt⟩
  obtain ⟨hiff, hagree⟩ := ((slicing_invisible m₁).2 _ {} 0 2).2 _ _ _ hload₁ hload₂
  obtain ⟨fault, last₂, hends₂⟩ := hiff.mp ⟨none, _, hends⟩
  obtain ⟨rfl, -, hregisters, -, hmemory⟩ := hagree hends hends₂
  refine ⟨m₁, m₂, _, last₂, hload₁, hload₂, ?_, ?_, hends, hends₂, n₂.status_stopped, ?_,
    hregisters, hmemory⟩
  · rw [hfirst₁]
    exact status_of_step hstep
  · rw [hfirst₂]
    exact status_of_step hstep₂'
  · rw [← n₂.status_stopped]
    unfold status
    rw [hregisters]

end WordLisp.Machine
