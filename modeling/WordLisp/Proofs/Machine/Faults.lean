import WordLisp.Proofs.Machine.AddressMap
import WordLisp.Proofs.Machine.Runs
import WordLisp.Proofs.Machine.Transfers

/-!
# What a fault leaves behind

An action that only looks at the machine, `Looks`, changes nothing but the device, which may notice that
it is read. All instructions but one do their work after the last thing that can fail, so that where they
fail the machine is the same but for the device, `FailsCleanly`. A call writes twice, and where the first
write succeeds so does the second.

Main statement: whatever a step fails with, the cells and the working registers are as before, and the
instruction has been counted and passed if it has an opcode. A return gives up its frame before it fails.
-/

namespace WordLisp

open Machine

theorem toInt_add_one {w : Word} (h : w.toInt ≠ 2 ^ 31 - 1) : (w + 1).toInt = w.toInt + 1 := by
  have hlow := w.le_toInt
  have hhigh := w.toInt_lt
  rw [Int32.toInt_add]
  exact Int.bmod_eq_of_le (by simp; omega) (by simp; omega)

/-- Where the address below a word is that of a cell or of the device, so is the word, up to the end. -/
theorem region_of_below {w limit : Word} (hlt : w < limit) (h : Region.of? (w - 1) limit ≠ none) :
    Region.of? w limit ≠ none := by
  rcases Machine.sub_one_cases w with hsub | hnone
  · intro hw
    rw [Int32.lt_iff_toInt_lt] at hlt
    have hneg : w < 0 := by
      by_contra hnn
      unfold Region.of? at hw
      rw [if_neg hnn] at hw
      split_ifs at hw with h1 h2 h3
      exact h3 (Int32.lt_iff_toInt_lt.mpr hlt)
    refine h (if_pos ?_)
    rw [Int32.lt_iff_toInt_lt, Int32.toInt_zero] at hneg ⊢
    omega
  · exact absurd (hnone limit) h

theorem Memory.ram_of_read [Device D] {address word : Word} {m m' : Memory D}
    (h : read address m = .ok word m') : m'.ram = m.ram := by
  unfold read at h
  split at h
  · cases h
    rfl
  · cases h
    rfl
  · cases h

theorem Memory.size_of_write [Device D] {address value : Word} {m m' : Memory D}
    (h : write address value m = .ok () m') : m'.ram.size = m.ram.size := by
  unfold write at h
  split at h
  · cases h
    rfl
  · cases h
    exact Array.size_setIfInBounds
  · cases h

theorem Memory.limit_of_write [Device D] {address value : Word} {m m' : Memory D}
    (h : write address value m = .ok () m') : m'.limit = m.limit := by
  unfold limit
  rw [size_of_write h]

namespace Machine

theorem of_access_ok {a : Memory.Access D α} {m m' : Machine D} {x : α} (h : access a m = .ok x m') :
    ∃ memory, a m.memory = .ok x memory ∧ m' = m.withMemory memory := by
  unfold access at h
  simp only at h
  split at h
  · next ha =>
    cases h
    exact ⟨_, ha, rfl⟩
  · cases h

theorem of_access_error {a : Memory.Access D α} {m m' : Machine D} {e : Fault}
    (h : access a m = .error e m') : ∃ memory, a m.memory = .error e memory ∧ m' = m.withMemory memory := by
  unfold access at h
  simp only at h
  split at h
  · cases h
  · next ha =>
    cases h
    exact ⟨_, ha, rfl⟩

/-! ## Looking -/

/-- The machine has another device at most. -/
structure SameButDevice (m m' : Machine D) : Prop where
  ram : m'.memory.ram = m.memory.ram
  registers : m'.registers = m.registers
  steps : m'.steps = m.steps

theorem SameButDevice.refl (m : Machine D) : m.SameButDevice m := ⟨rfl, rfl, rfl⟩

theorem SameButDevice.trans {m₁ m₂ m₃ : Machine D} (h : m₁.SameButDevice m₂) (h' : m₂.SameButDevice m₃) :
    m₁.SameButDevice m₃ :=
  ⟨h'.ram.trans h.ram, h'.registers.trans h.registers, h'.steps.trans h.steps⟩

theorem SameButDevice.mapRegisters {m m' : Machine D} (h : m.SameButDevice m')
    (f : Registers → Registers) : SameButDevice { m with registers := f m.registers }
      { m' with registers := f m'.registers } :=
  ⟨h.ram, congrArg f h.registers, h.steps⟩

/-- The action changes nothing but the device. -/
def Looks (a : Action D α) : Prop := ∀ m, SameButDevice m (leftBy (a m))

namespace Looks

theorem of_ok {a : Action D α} {m m' : Machine D} {x : α} (ha : Looks a) (h : a m = .ok x m') :
    m.SameButDevice m' := by
  have hsame := ha m
  rw [h] at hsame
  exact hsame

theorem pure (x : α) : Looks (Pure.pure x : Action D α) := fun m => .refl m

theorem throw (e : Fault) : Looks (throw e : Action D α) := fun m => .refl m

theorem bind {a : Action D α} {k : α → Action D β} (ha : Looks a) (hk : ∀ x, Looks (k x)) :
    Looks (a >>= k) := by
  intro m
  have hsame := ha m
  cases hr : a m with
  | ok x m₁ =>
    rw [hr] at hsame
    rw [bind_of_ok hr]
    exact hsame.trans (hk x m₁)
  | error e m₁ =>
    rw [hr] at hsame
    rw [bind_of_error hr]
    exact hsame

theorem ite {c : Prop} [Decidable c] {a b : Action D α} (ha : Looks a) (hb : Looks b) :
    Looks (if c then a else b) := by
  split
  · exact ha
  · exact hb

theorem frameAddress (offset : Word) : Looks (Machine.frameAddress offset : Action D Word) :=
  bind (a := get) (fun m => .refl m) fun _ => ite (pure _) (throw _)

variable [Device D]

theorem read (address : Word) : Looks (Machine.read address : Action D Word) := by
  intro m
  cases hr : Machine.read address m with
  | ok word m' =>
    obtain ⟨memory, hread, rfl⟩ := of_access_ok hr
    exact ⟨Memory.ram_of_read hread, rfl, rfl⟩
  | error e m' =>
    obtain ⟨memory, hread, rfl⟩ := of_access_error hr
    obtain ⟨-, -, rfl⟩ := Memory.read_eq_error_iff.mp hread
    exact .refl m

theorem operandAddress (base : Base) (indirect : Bool) (offset : Word) :
    Looks (Machine.operandAddress base indirect offset : Action D Word) := by
  unfold Machine.operandAddress
  cases base with
  | program => exact (pure _).bind fun address => ite (read address) (pure address)
  | frame => exact (frameAddress offset).bind fun address => ite (read address) (pure address)

end Looks

/-! ## Failing -/

/-- Where the action fails on the machine, it leaves the machine but for the device. -/
def FailsCleanly (a : Action D α) (m : Machine D) : Prop :=
  ∀ e m', a m = .error e m' → m.SameButDevice m'

namespace FailsCleanly

variable {m : Machine D}

theorem pure (x : α) : FailsCleanly (Pure.pure x) m := fun _ _ h => nomatch h

theorem modifyRegisters (f : Registers → Registers) : FailsCleanly (Machine.modifyRegisters f) m :=
  fun _ _ h => nomatch h

theorem throw (e : Fault) : FailsCleanly (throw e : Action D α) m := by
  intro _ _ h
  cases h
  exact .refl m

/-- What comes after a look may fail as it would at once. -/
theorem look {a : Action D α} {k : α → Action D β} (ha : Looks a)
    (hk : ∀ x m₁, FailsCleanly (k x) m₁) : FailsCleanly (a >>= k) m := by
  intro e m' h
  have hsame := ha m
  cases hr : a m with
  | ok x m₁ =>
    rw [hr] at hsame
    rw [bind_of_ok hr] at h
    exact hsame.trans (hk x m₁ e m' h)
  | error e₁ m₁ =>
    rw [hr] at hsame
    rw [bind_of_error hr] at h
    cases h
    exact hsame

/-- The machine may be looked at. -/
theorem getThen {k : Machine D → Action D β} (hk : FailsCleanly (k m) m) :
    FailsCleanly (get >>= k) m := hk

/-- A check, and what is done where it passes. -/
theorem check {c : Prop} [Decidable c] {e : Fault} {k : PUnit → Action D α} {a : Action D α}
    (ha : ¬ c → FailsCleanly a m) :
    FailsCleanly (if c then MonadExcept.throw e >>= k else a) m := by
  by_cases hc : c
  · rw [if_pos hc]
    intro _ _ h
    cases h
    exact .refl m
  · rw [if_neg hc]
    exact ha hc

variable [Device D]

theorem write (address value : Word) : FailsCleanly (Machine.write address value) m := by
  intro e m' h
  obtain ⟨memory, hwrite, rfl⟩ := of_access_error h
  obtain ⟨-, -, rfl⟩ := Memory.write_eq_error_iff.mp hwrite
  exact .refl m

/-- The links of a call are written both or not at all. -/
theorem link (stackTop pc frameBase : Word) (hlt : stackTop < m.memory.limit)
    (f : Registers → Registers) : FailsCleanly
      (do
        Machine.write (stackTop - 1) pc
        Machine.write stackTop frameBase
        Machine.modifyRegisters f) m := by
  intro e m' h
  cases hfirst : Machine.write (stackTop - 1) pc m with
  | error e₁ m₁ =>
    rw [bind_of_error hfirst] at h
    cases h
    exact write _ _ _ _ hfirst
  | ok u m₁ =>
    rw [bind_of_ok hfirst] at h
    obtain ⟨memory, hwrite, rfl⟩ := of_access_ok hfirst
    have hbelow : Region.of? (stackTop - 1) m.memory.limit ≠ none := by
      intro hnone
      rw [Memory.write_eq_error_iff.mpr ⟨hnone, rfl, rfl⟩] at hwrite
      cases hwrite
    -- The first write went to a cell or to the device, so the address above it exists as well.
    cases hsecond : Machine.write stackTop frameBase (m.withMemory memory) with
    | ok u m₂ =>
      rw [bind_of_ok hsecond] at h
      cases h
    | error e₂ m₂ =>
      obtain ⟨_, hfail, -⟩ := of_access_error hsecond
      obtain ⟨hnone, -⟩ := Memory.write_eq_error_iff.mp hfail
      rw [show (m.withMemory memory).memory.limit = m.memory.limit from Memory.limit_of_write hwrite]
        at hnone
      exact absurd hnone (region_of_below hlt hbelow)

theorem call (entry : Word) : FailsCleanly (Machine.call entry) m := by
  unfold Machine.call
  refine look (.read _) fun size m₁ => check fun _ => getThen ?_
  obtain ⟨memory, ⟨pc, l, r, base, top⟩, steps, sliceSteps⟩ := m₁
  refine getThen (check fun hroom => ?_)
  exact link top pc base (Int32.not_le.mp fun hle => hroom (.inl hle)) _

/-- All opcodes but that of a return. -/
theorem execute (e : Fault) {opcode : Opcode} (hret : opcode ≠ .ret) (fields : Fields) :
    FailsCleanly (Machine.execute e opcode fields) m := by
  unfold Machine.execute
  cases opcode with
  | nop => exact pure _
  | load r b i =>
    exact look (.operandAddress _ _ _) fun _ _ => look (.read _) fun _ _ => modifyRegisters _
  | store r b i => exact look (.operandAddress _ _ _) fun _ _ => write _ _
  | unary r | binary r =>
    simp only
    split
    · exact modifyRegisters _
    · exact throw _
  | swap | branch r | jump => exact modifyRegisters _
  | call => exact call _
  | ret => exact absurd rfl hret

end FailsCleanly

/-! ## Steps -/

section
variable [Device D] {m m' : Machine D} {fault : Fault}

/-- The machine with its frame given up. -/
def popped (m : Machine D) : Machine D :=
  { m with registers := { m.registers with stackTop := m.registers.frameBase } }

theorem ret_eq (m : Machine D) : ret m =
    (do
      let frameBase ← read m.registers.frameBase
      modifyRegisters fun r => { r with frameBase }
      let pc ← read (m.registers.frameBase - 1)
      modifyRegisters fun r => { r with pc } : Action D Unit) m.popped := rfl

/-- A return that fails has given up its frame, and perhaps gone back to another. -/
theorem of_ret_error (h : ret m = .error fault m') :
    ∃ base, SameButDevice
      { m.popped with registers := { m.popped.registers with frameBase := base } } m' := by
  have hlook := Looks.read m.registers.frameBase m.popped
  rw [ret_eq] at h
  simp only [bind, EStateM.bind] at h
  cases hr : read m.registers.frameBase m.popped with
  | error e m₁ =>
    rw [hr] at h hlook
    cases h
    exact ⟨m.registers.frameBase, hlook⟩
  | ok base m₁ =>
    rw [hr] at h hlook
    have hrest := FailsCleanly.look (.read (m.registers.frameBase - 1))
      (fun pc _ => .modifyRegisters fun r => { r with pc }) _ _ h
    have hlook : SameButDevice m.popped m₁ := hlook
    exact ⟨base, (hlook.mapRegisters fun r => { r with frameBase := base }).trans hrest⟩

/-- The opcode of the word in front of the machine, where the word can be fetched and has one. -/
def nextOpcode? (m : Machine D) : Option Opcode :=
  match Memory.read m.registers.pc m.memory with
  | .ok word _ => Opcode.ofCode? (Fields.ofWord word).opcode
  | .error _ _ => none

/-- A step fails in front of an instruction or in it. -/
theorem step_error_cases (h : step m = .error fault m') :
    m.nextOpcode? = none ∧ m' = m ∨ ∃ opcode unsupported fields, m.nextOpcode? = some opcode ∧
      execute unsupported opcode fields m.advanced = .error fault m' := by
  cases hstatus : m.status with
  | halted =>
    rw [step_of_halted hstatus] at h
    cases h
  | running =>
    unfold nextOpcode?
    cases hfetch : Memory.read m.registers.pc m.memory with
    | error e memory =>
      obtain ⟨-, -, rfl⟩ := Memory.read_eq_error_iff.mp hfetch
      have hread : read m.registers.pc m = .error e m := by
        simp only [read, access, hfetch]
      unfold step at h
      simp only [bind, EStateM.bind, get, getThe, MonadStateOf.get, EStateM.get, hstatus, hread] at h
      cases h
      exact .inl ⟨rfl, rfl⟩
    | ok word memory =>
      rw [step_of_fetch hstatus hfetch] at h
      simp only
      cases hop : Opcode.ofCode? (Fields.ofWord word).opcode with
      | none =>
        rw [hop] at h
        cases h
        exact .inl ⟨rfl, rfl⟩
      | some opcode =>
        rw [hop] at h
        refine .inr ⟨opcode, .unsupported m.registers.pc word, Fields.ofWord word, rfl, ?_⟩
        have h : EStateM.bind (execute _ opcode _) _ m.advanced = .error fault m' := h
        unfold EStateM.bind at h
        split at h
        · cases h
        · next he =>
          cases h
          exact he

/-- An instruction that was fetched is not the last that a word can address. -/
theorem toInt_pc_advanced (h : m.nextOpcode? ≠ none) :
    m.advanced.registers.pc.toInt = m.registers.pc.toInt + 1 := by
  refine toInt_add_one fun hlast => ?_
  have hnone : Region.of? m.registers.pc m.memory.limit = none := region_of_last hlast
  unfold nextOpcode? at h
  rw [Memory.read_eq_error_iff.mpr ⟨hnone, rfl, rfl⟩] at h
  exact h rfl

end

end Machine

/-- What a step leaves where it fails, with whatever fault. The cells and the working registers are as they
were. An instruction with an opcode has been counted and passed, and where there is none the machine has
not moved. The frame stays too, but for a return, which has given it up. -/
theorem step_failure_leaves [Device D] {m m' : Machine D} {fault : Fault}
    (h : step m = .error fault m') :
    m'.memory.ram = m.memory.ram ∧ m'.registers.left = m.registers.left ∧
      m'.registers.right = m.registers.right ∧
    (m.nextOpcode? ≠ none →
      m'.registers.pc.toInt = m.registers.pc.toInt + 1 ∧ m'.steps = m.steps + 1) ∧
    (m.nextOpcode? = none → m'.registers.pc = m.registers.pc ∧ m'.steps = m.steps) ∧
    (m.nextOpcode? = some .ret → m'.registers.stackTop = m.registers.frameBase) ∧
    (m.nextOpcode? ≠ some .ret → m'.registers.frameBase = m.registers.frameBase ∧
      m'.registers.stackTop = m.registers.stackTop) := by
  rcases step_error_cases h with ⟨hnone, rfl⟩ | ⟨opcode, unsupported, fields, hop, hexecute⟩
  · rw [hnone]
    simp
  · have hpc := toInt_pc_advanced (m := m) (by rw [hop]; simp)
    rw [hop]
    by_cases hret : opcode = .ret
    · subst hret
      obtain ⟨base, hram, hregisters, hsteps⟩ := of_ret_error hexecute
      rw [hram, hregisters, hsteps]
      refine ⟨rfl, rfl, rfl, fun _ => ⟨hpc, rfl⟩, ?_, fun _ => rfl, ?_⟩ <;> simp
    · obtain ⟨hram, hregisters, hsteps⟩ := FailsCleanly.execute unsupported hret fields _ _ hexecute
      rw [hram, hregisters, hsteps]
      refine ⟨rfl, rfl, rfl, fun _ => ⟨hpc, rfl⟩, by simp, fun h => ?_, fun _ => ⟨rfl, rfl⟩⟩
      exact absurd (Option.some.inj h) hret

/-- A call that finds no room on the stack. -/
theorem step_failure_leaves_call : ∃ m m' : Machine Terminal,
    (Machine.new { width := 0, height := 0 } { stackWords := 3 }).load [0x43000002, 8] = .ok () m ∧
    step m = .error (.stackOverflow 0x81000B) m' ∧ m.nextOpcode? = some .call ∧
    m'.memory.ram = m.memory.ram ∧ m'.registers.pc.toInt = m.registers.pc.toInt + 1 ∧
    m'.registers.stackTop = m.registers.stackTop := by
  obtain ⟨m, hload, hregisters, hroof, hcell⟩ := Machine.load_eq [0x43000002, 8] (by decide)
    (Machine.new ({ width := 0, height := 0 } : Terminal) { stackWords := 3 })
  have hpc : m.registers.pc = cellAddress 0 := by rw [hregisters]; decide
  have hcall : m.At 0 (.addressed .call (.offset (Int32.ofNat 2))) :=
    ⟨hpc, by decide, by rw [hcell]; decide +kernel⟩
  have htop : m.registers.stackTop = cellAddress (programCapacity + 3) := by rw [hregisters]; decide
  have hfull : m.memory.roof ≤ (programCapacity + 3 : Nat) := by
    rw [hroof, show (Machine.new ({ width := 0, height := 0 } : Terminal)
      { stackWords := 3 }).memory.roof = 2 ^ 16 + (3 : Nat) from Memory.roof_new _ (by decide)]
    decide
  have hsize : m.memory.cell (2 - 1) = Int32.ofNat 8 := by rw [hcell]; rfl
  have hstep := step_call_overflow hcall (by decide) (by decide) hsize (by decide) htop (by decide)
    (.inl hfull)
  have hop : m.nextOpcode? = some .call := by
    unfold nextOpcode?
    rw [hpc, Memory.read_cell (.inl (by decide)), hcell]
    show Opcode.ofCode? (Fields.ofWord 0x43000002).opcode = some .call
    decide +kernel
  obtain ⟨hram, -, -, hpassed, -, -, hframe⟩ := step_failure_leaves hstep
  exact ⟨m, _, hload, hstep, hop, hram, (hpassed (by rw [hop]; decide)).1, (hframe (by rw [hop]; decide)).2⟩

end WordLisp
