import WordLisp.Machine.Terminal
import WordLisp.Proofs.Machine.Runs
import WordLisp.Proofs.Machine.Steps

/-!
# Machines with more stack

`m.Within n`: the machine `n` is `m` with more stack, and nothing has been put there yet. An action
that succeeds on the smaller machine succeeds on the larger one with the same result and never
touches what is beyond the smaller, whatever words are in memory.

Main statement: so do any number of steps. How much stack there is makes no difference to a program
that never meets its end.
-/

namespace WordLisp

namespace Memory

/-- The memory `b` is `a` with more cells, all of them zero. -/
structure Within (a b : Memory D) : Prop where
  device : b.device = a.device
  size_le : a.ram.size ≤ b.ram.size
  /-- All cells have addresses. -/
  lt : b.ram.size < placeBound
  cells : ∀ i < a.ram.size, b.cell i = a.cell i
  zeros : ∀ i, a.ram.size ≤ i → b.cell i = 0

theorem lt_limit_iff {m : Memory D} {i : Nat} (hi : i < placeBound) :
    cellAddress i < m.limit ↔ (i : Int) < m.roof := by
  rw [Int32.lt_iff_toInt_lt, toInt_cellAddress hi, toInt_limit]
  omega

theorem exists_place {address : Word} (h : programBase ≤ address) :
    ∃ i < placeBound, address = cellAddress i := by
  have hhigh := address.toInt_lt
  rw [Int32.le_iff_toInt_le, toInt_programBase] at h
  refine ⟨(address.toInt - 2 ^ 23).toNat, by unfold placeBound; omega, ?_⟩
  apply Int32.toInt.inj
  rw [toInt_cellAddress (by unfold placeBound; omega)]
  omega

/-- An address is negative, or one of the device, or that of a cell. -/
theorem address_cases (address : Word) :
    address < 0 ∨ IsDeviceAddress address ∨ ∃ i < placeBound, address = cellAddress i := by
  by_cases hneg : address < 0
  · exact .inl hneg
  · by_cases hbase : programBase ≤ address
    · exact .inr (.inr (exists_place hbase))
    · exact .inr (.inl ⟨Int32.not_lt.mp hneg, Int32.not_le.mp hbase⟩)

theorem region_of_neg {address : Word} (h : address < 0) (limit : Word) :
    Region.of? address limit = none := if_pos h

theorem size_of_load {words : List Word} {u : Unit} {m m' : Memory D}
    (h : load words m = .ok u m') : m'.ram.size = m.ram.size := by
  have hcapacity := m.capacity_le
  unfold load at h
  split at h
  · cases h
    simp
    omega
  · cases h

/-- A cell that is not in reach does not exist. -/
theorem region_of_not_inReach {m : Memory D} {i : Nat} (h : ¬ m.InReach i) (hi : i < placeBound) :
    Region.of? (cellAddress i) m.limit = none := by
  unfold InReach at h
  exact region_of_roof_le (by omega) (by omega) hi

namespace Within

theorem new (device : D) {j k : Nat} (hle : j ≤ k) (hlt : programCapacity + k < placeBound) :
    (Memory.new device j).Within (Memory.new device k) := by
  have hcell (k i : Nat) : (Memory.new device k).cell i = 0 := by
    simp [cell, Memory.new, Array.getD_eq_getD_getElem?, Array.getElem?_replicate]
    split <;> rfl
  refine ⟨rfl, ?_, ?_, fun i _ => by rw [hcell, hcell], fun i _ => hcell k i⟩
  · simp [Memory.new, hle]
  · simpa [Memory.new] using hlt

variable {a b : Memory D} (h : a.Within b)
include h

theorem load {words : List Word} {u : Unit} {a' : Memory D} (hload : Memory.load words a = .ok u a') :
    ∃ b', Memory.load words b = .ok u b' ∧ a'.Within b' := by
  have hlength : words.length ≤ programCapacity := by
    by_contra hgt
    have hfault : Memory.load words a = .error (.programTooLarge words.length) a := if_neg hgt
    rw [hfault] at hload
    cases hload
  obtain ⟨a₁, ha, -, hdevice, hcell⟩ := Memory.load_eq words hlength a
  obtain ⟨b₁, hb, -, hdevice', hcell'⟩ := Memory.load_eq words hlength b
  rw [hload] at ha
  cases ha
  have hcapacity := a.capacity_le
  have hle := h.size_le
  refine ⟨b₁, hb, ?_, ?_, ?_, fun i _ => by rw [hcell, hcell'], fun i hi => ?_⟩
  · rw [hdevice, hdevice', h.device]
  · rw [size_of_load hload, size_of_load hb]
    exact hle
  · rw [size_of_load hb]
    exact h.lt
  · rw [size_of_load hload] at hi
    rw [hcell', List.getD_eq_getElem?_getD, List.getElem?_eq_none (by omega)]
    rfl

theorem lt_left : a.ram.size < placeBound := by
  have := h.lt
  have := h.size_le
  omega

theorem inReach {i : Nat} (hi : a.InReach i) : b.InReach i ∧ i < a.ram.size := by
  have hlt := hi.lt_size
  have hle := h.size_le
  refine ⟨.inr ?_, hlt⟩
  rw [roof_eq h.lt]
  omega

theorem limit_le : a.limit.toInt ≤ b.limit.toInt := by
  have := h.size_le
  rw [toInt_limit, toInt_limit, roof_eq h.lt, roof_eq h.lt_left]
  omega

theorem withDevice (device : D) : (a.withDevice device).Within (b.withDevice device) :=
  ⟨rfl, h.size_le, h.lt, h.cells, h.zeros⟩

theorem setCell {i : Nat} (hi : a.InReach i) (value : Word) :
    (a.setCell i value).Within (b.setCell i value) := by
  obtain ⟨hb, hlt⟩ := h.inReach hi
  have hsize (m : Memory D) : (m.setCell i value).ram.size = m.ram.size := Array.size_setIfInBounds
  refine ⟨h.device, ?_, ?_, fun k hk => ?_, fun k hk => ?_⟩
  · rw [hsize, hsize]
    exact h.size_le
  · rw [hsize]
    exact h.lt
  · rw [hsize] at hk
    by_cases he : i = k
    · subst he
      rw [cell_setCell_self hb, cell_setCell_self hi]
    · rw [cell_setCell_of_ne he, cell_setCell_of_ne he]
      exact h.cells k hk
  · rw [hsize] at hk
    rw [cell_setCell_of_ne (by omega)]
    exact h.zeros k hk

variable [Device D]

theorem read {address value : Word} {a' : Memory D} (hread : Memory.read address a = .ok value a') :
    ∃ b', Memory.read address b = .ok value b' ∧ a'.Within b' := by
  rcases address_cases address with hneg | hdevice | ⟨i, hi, rfl⟩
  · unfold Memory.read at hread
    rw [region_of_neg hneg] at hread
    cases hread
  · rw [read_device hdevice] at hread ⊢
    cases hread
    rw [h.device]
    exact ⟨_, rfl, h.withDevice _⟩
  · by_cases hin : a.InReach i
    · obtain ⟨hb, hlt⟩ := h.inReach hin
      rw [read_cell hin] at hread
      cases hread
      exact ⟨b, by rw [read_cell hb, h.cells i hlt], h⟩
    · unfold Memory.read at hread
      rw [region_of_not_inReach hin hi] at hread
      cases hread

theorem write {address value : Word} {a' : Memory D}
    (hwrite : Memory.write address value a = .ok () a') :
    ∃ b', Memory.write address value b = .ok () b' ∧ a'.Within b' := by
  rcases address_cases address with hneg | hdevice | ⟨i, hi, rfl⟩
  · unfold Memory.write at hwrite
    rw [region_of_neg hneg] at hwrite
    cases hwrite
  · rw [write_device hdevice] at hwrite ⊢
    cases hwrite
    rw [h.device]
    exact ⟨_, rfl, h.withDevice _⟩
  · by_cases hin : a.InReach i
    · rw [write_cell hin] at hwrite
      cases hwrite
      exact ⟨_, write_cell (h.inReach hin).1 value, h.setCell hin value⟩
    · unfold Memory.write at hwrite
      rw [region_of_not_inReach hin hi] at hwrite
      cases hwrite

end Within

end Memory

namespace Machine

/-- The machine `n` is `m` with more stack, and has nothing there. -/
structure Within (m n : Machine D) : Prop where
  registers : n.registers = m.registers
  steps : n.steps = m.steps
  memory : m.memory.Within n.memory

theorem Within.status {m n : Machine D} (h : m.Within n) : n.status = m.status := by
  unfold Machine.status
  rw [h.registers]

/-- Where the first action succeeds, the second succeeds with more stack, and with the same
result. -/
def Lifts (a b : Action D α) : Prop :=
  ∀ m n, m.Within n → ∀ x m', a m = .ok x m' → ∃ n', b n = .ok x n' ∧ m'.Within n'

namespace Lifts

section
variable {a b : Action D α}

theorem pure (x : α) : Lifts (Pure.pure x : Action D α) (Pure.pure x) := by
  intro m n h y m' hy
  cases hy
  exact ⟨n, rfl, h⟩

theorem throw (e : Fault) (b : Action D α) : Lifts (throw e) b := fun _ _ _ _ _ h => nomatch h

theorem bind {k k' : α → Action D β} (ha : Lifts a b) (hk : ∀ x, Lifts (k x) (k' x)) :
    Lifts (a >>= k) (b >>= k') := by
  intro m n h y m' hy
  have hy : EStateM.bind a k m = .ok y m' := hy
  unfold EStateM.bind at hy
  cases hr : a m with
  | error e m₁ =>
    rw [hr] at hy
    cases hy
  | ok x m₁ =>
    rw [hr] at hy
    obtain ⟨n₁, hn, h₁⟩ := ha m n h x m₁ hr
    obtain ⟨n', hn', h'⟩ := hk x m₁ n₁ h₁ y m' hy
    refine ⟨n', ?_, h'⟩
    show EStateM.bind b k' n = .ok y n'
    unfold EStateM.bind
    rw [hn]
    exact hn'

theorem ite {c : Prop} [Decidable c] {a' b' : Action D α} (ha : Lifts a a') (hb : Lifts b b') :
    Lifts (if c then a else b) (if c then a' else b') := by
  split
  · exact ha
  · exact hb

/-- A check that the larger machine passes if the smaller one does. -/
theorem check {c c' : Prop} [Decidable c] [Decidable c'] {a' b' : Action D α} {e : Fault}
    {k : PUnit → Action D α} (hc : c' → c) (hb : Lifts b b') :
    Lifts (if c then MonadExcept.throw e >>= k else b) (if c' then a' else b') := by
  by_cases h : c
  · rw [if_pos h]
    exact fun _ _ _ _ _ h => nomatch h
  · rw [if_neg h, if_neg fun h' => h (hc h')]
    exact hb

theorem get {k k' : Machine D → Action D β} (hk : ∀ m n, m.Within n → Lifts (k m) (k' n)) :
    Lifts (get >>= k) (get >>= k') :=
  fun m n h => hk m n h m n h

theorem modifyRegisters (f : Registers → Registers) :
    Lifts (Machine.modifyRegisters f : Action D Unit) (Machine.modifyRegisters f) := by
  intro m n h x m' hm
  cases hm
  exact ⟨_, rfl, congrArg f h.registers, h.steps, h.memory⟩

theorem advance : Lifts (Machine.advance : Action D Unit) Machine.advance := by
  intro m n h x m' hm
  cases hm
  refine ⟨_, rfl, ?_, congrArg (· + 1) h.steps, h.memory⟩
  show { n.registers with pc := n.registers.pc + 1 } = { m.registers with pc := m.registers.pc + 1 }
  rw [h.registers]

theorem access {f : Memory.Access D α}
    (hf : ∀ a b, a.Within b → ∀ x a', f a = .ok x a' → ∃ b', f b = .ok x b' ∧ a'.Within b') :
    Lifts (Machine.access f) (Machine.access f) := by
  rintro ⟨mem, registers, steps, sliceSteps⟩ ⟨mem', registers', steps', sliceSteps'⟩ h x m' hm
  simp only [Machine.access] at hm ⊢
  cases hr : f mem with
  | error e mem₁ =>
    rw [hr] at hm
    cases hm
  | ok y mem₁ =>
    rw [hr] at hm
    cases hm
    obtain ⟨mem₂, hm₂, hw⟩ := hf mem mem' h.memory x mem₁ hr
    rw [hm₂]
    exact ⟨_, rfl, h.registers, h.steps, hw⟩

theorem load (words : List Word) : Lifts (Machine.load words : Action D Unit) (Machine.load words) := by
  refine (access fun _ _ h _ _ => h.load).bind fun _ => ?_
  intro m n h x m' hm
  cases hm
  exact ⟨_, rfl, rfl, rfl, h.memory⟩

theorem frameAddress (offset : Word) :
    Lifts (Machine.frameAddress offset : Action D Word) (Machine.frameAddress offset) := by
  refine get fun m n h => ?_
  rw [h.registers]
  exact ite (pure _) (throw _ _)

end

section
variable [Device D]

theorem read (address : Word) :
    Lifts (Machine.read address : Action D Word) (Machine.read address) :=
  access fun _ _ h _ _ => h.read

theorem write (address value : Word) :
    Lifts (Machine.write address value : Action D Unit) (Machine.write address value) :=
  access fun _ _ h _ _ => h.write

theorem operandAddress (base : Base) (indirect : Bool) (offset : Word) :
    Lifts (Machine.operandAddress base indirect offset : Action D Word)
      (Machine.operandAddress base indirect offset) := by
  unfold Machine.operandAddress
  cases base with
  | program => exact (pure _).bind fun address => ite (read address) (pure address)
  | frame => exact (frameAddress offset).bind fun address => ite (read address) (pure address)

/-- A call compares with the end of the memory, and passes wherever the end is further away. -/
theorem call (entry : Word) : Lifts (Machine.call entry : Action D Unit) (Machine.call entry) := by
  refine (read _).bind fun size => check id ?_
  refine get fun ⟨_, registers, _, _⟩ ⟨_, registers', _, _⟩ h => get fun m n h' => ?_
  obtain rfl : registers' = registers := h.registers
  have hle := h'.memory.limit_le
  refine check ?_ ?_
  · rw [Int32.le_iff_toInt_le, Int32.le_iff_toInt_le]
    omega
  · exact (write _ _).bind fun _ => (write _ _).bind fun _ => modifyRegisters _

theorem ret : Lifts (Machine.ret : Action D Unit) Machine.ret := by
  refine get fun m n h => ?_
  rw [h.registers]
  exact (modifyRegisters _).bind fun _ => (read _).bind fun _ =>
    (modifyRegisters _).bind fun _ => (read _).bind fun _ => modifyRegisters _

theorem execute (e : Fault) (opcode : Opcode) (fields : Fields) :
    Lifts (Machine.execute e opcode fields : Action D Unit) (Machine.execute e opcode fields) := by
  unfold Machine.execute
  cases opcode with
  | nop => exact pure _
  | load r b i =>
    exact bind (operandAddress _ _ _) fun _ => (read _).bind fun _ => modifyRegisters _
  | store r b i =>
    refine bind (operandAddress _ _ _) fun _ => get fun m n h => ?_
    rw [h.registers]
    exact write _ _
  | unary r | binary r =>
    simp only
    split
    · exact modifyRegisters _
    · exact throw _ _
  | swap | branch r | jump => exact modifyRegisters _
  | call => exact call _
  | ret => exact ret

theorem step : Lifts (Machine.step : Action D Status) Machine.step := by
  refine get fun m n h => ?_
  rw [h.status]
  split
  · exact pure _
  · refine get fun m n h => ?_
    rw [h.registers]
    refine (read _).bind fun word => ?_
    simp only
    split
    · exact throw _ _
    · refine advance.bind fun _ => (execute _ _ _).bind fun _ => get fun m n h => ?_
      rw [h.status]
      exact pure _

end

end Lifts

/-! ## Rows of steps -/

/-- Carries out `k` steps, one after the other, and yields the status after each. -/
def stepRow [Device D] : (k : Nat) → Action D (List Status)
  | 0 => return []
  | k + 1 => do
    let status ← step
    let rest ← stepRow k
    return status :: rest

theorem Lifts.stepRow [Device D] (k : Nat) :
    Lifts (Machine.stepRow k : Action D (List Status)) (Machine.stepRow k) := by
  induction k with
  | zero => exact pure _
  | succ k ih => exact step.bind fun status => ih.bind fun rest => pure _

section
variable {m n : Machine D} {address : Word}

theorem Within.new (device : D) {config config' : Config}
    (hle : config.stackWords ≤ config'.stackWords)
    (hend : programCapacity + config'.stackWords < placeBound) :
    (Machine.new device config).Within (Machine.new device config') :=
  ⟨rfl, rfl, Memory.Within.new device hle hend⟩

/-- The cells below the smaller end are the same. -/
theorem Within.peek?_eq (h : m.Within n) (hlt : address < m.memory.limit) :
    n.memory.peek? address = m.memory.peek? address := by
  by_cases hbase : programBase ≤ address
  · obtain ⟨i, hi, rfl⟩ := Memory.exists_place hbase
    have hroof := (Memory.lt_limit_iff hi).mp hlt
    obtain ⟨hin, hsize⟩ := h.memory.inReach (.inr hroof)
    rw [Memory.peek?_cell hroof, Memory.peek?_cell, h.memory.cells i hsize]
    rw [Memory.roof_eq h.memory.lt]
    have := h.memory.size_le
    omega
  · unfold Memory.peek?
    rw [if_neg fun h => hbase h.1, if_neg fun h => hbase h.1]

/-- The cells from the smaller end on are zero. -/
theorem Within.peek?_zero (h : m.Within n) (hle : m.memory.limit ≤ address)
    (hlt : address < n.memory.limit) : n.memory.peek? address = some 0 := by
  have hbase : programBase ≤ address := by
    have hlimit := m.memory.toInt_limit
    rw [Memory.roof_eq h.memory.lt_left] at hlimit
    rw [Int32.le_iff_toInt_le] at hle ⊢
    rw [toInt_programBase]
    omega
  obtain ⟨i, hi, rfl⟩ := Memory.exists_place hbase
  have hge : ¬ (i : Int) < m.memory.roof := fun hroof =>
    Int32.not_lt.mpr hle ((Memory.lt_limit_iff hi).mpr hroof)
  rw [Memory.roof_eq h.memory.lt_left] at hge
  rw [Memory.peek?_cell ((Memory.lt_limit_iff hi).mp hlt), h.memory.zeros i (by omega)]

end

end Machine

/-- Steps that succeed with some stack succeed with more of it: with the same statuses, registers,
count of steps and device, with the same cells below the smaller end, and with zeros from there
on. -/
theorem stepRow_with_more_stack [Device D] {words : List Word} {device : D}
    {config config' : Config} (hle : config.stackWords ≤ config'.stackWords)
    (hend : programBase.toInt + (programCapacity + config'.stackWords) < 2 ^ 31)
    {m₀ m : Machine D} {k : Nat} {statuses : List Status}
    (hload : (Machine.new device config).load words = .ok () m₀)
    (hsteps : Machine.stepRow k m₀ = .ok statuses m) :
    ∃ n₀ n, (Machine.new device config').load words = .ok () n₀ ∧
      Machine.stepRow k n₀ = .ok statuses n ∧ n.registers = m.registers ∧ n.steps = m.steps ∧
      n.memory.device = m.memory.device ∧
      (∀ address < m.memory.limit, n.memory.peek? address = m.memory.peek? address) ∧
      ∀ address, m.memory.limit ≤ address → address < n.memory.limit →
        n.memory.peek? address = some 0 := by
  rw [toInt_programBase] at hend
  have hnew := Machine.Within.new device hle (by unfold placeBound; omega)
  obtain ⟨n₀, hload', h₀⟩ := Machine.Lifts.load words _ _ hnew () m₀ hload
  obtain ⟨n, hsteps', h⟩ := Machine.Lifts.stepRow k m₀ n₀ h₀ statuses m hsteps
  exact ⟨n₀, n, hload', hsteps', h.registers, h.steps, h.memory.device,
    fun address hlt => h.peek?_eq hlt, fun address hge hlt => h.peek?_zero hge hlt⟩

/-- A program that puts a word on the stack and halts, with three words of stack and with five. -/
theorem stepRow_with_more_stack_halting :
    ∃ m₀ m n₀ n : Machine Terminal,
      (Machine.new { width := 0, height := 0 } { stackWords := 3 }).load [0x24000001, 0x42FFFFFF] =
        .ok () m₀ ∧
      Machine.stepRow 3 m₀ = .ok [.running, .halted, .halted] m ∧
      (Machine.new { width := 0, height := 0 } { stackWords := 5 }).load [0x24000001, 0x42FFFFFF] =
        .ok () n₀ ∧
      Machine.stepRow 3 n₀ = .ok [.running, .halted, .halted] n ∧ n.registers = m.registers := by
  obtain ⟨m₀, hload, hregisters, hroof, hcell⟩ := Machine.load_eq [0x24000001, 0x42FFFFFF] (by decide)
    (Machine.new ({ width := 0, height := 0 } : Terminal) { stackWords := 3 })
  have hstore : m₀.At 0 (.frame (.store .left .frame false) 1) :=
    ⟨by rw [hregisters]; decide, by decide, by rw [hcell]; decide +kernel⟩
  have hslot : m₀.Locates .frame 1 (programCapacity + 1) :=
    ⟨programCapacity, by rw [hregisters]; decide, by decide, (Nat.cast_succ programCapacity).symm⟩
  have hreach : m₀.memory.InReach (programCapacity + 1) := by
    refine .inr ?_
    rw [hroof, show (Machine.new ({ width := 0, height := 0 } : Terminal)
      { stackWords := 3 }).memory.roof = 2 ^ 16 + (3 : Nat) from Memory.roof_new _ (by decide)]
    decide
  have hfirst := Machine.step_store hstore (.inr rfl) hslot hreach
  generalize hm₁ : (m₀.goto (0 + 1)).withMemory _ = m₁ at hfirst
  have hjump : m₁.At 1 (.addressed .jump (.offset (-1))) := by
    subst hm₁
    refine ⟨rfl, by decide, ?_⟩
    show Instruction.decode? ((m₀.memory.setCell (programCapacity + 1) _).cell 1) = _
    rw [Memory.cell_setCell_of_ne (by unfold programCapacity; omega), hcell]
    decide +kernel
  have hsecond := Machine.step_halt hjump
  have hthird := Machine.step_of_halted m₁.status_stopped
  have hrow : Machine.stepRow 3 m₀ = .ok [.running, .halted, .halted] m₁.stopped := by
    simp only [Machine.stepRow, bind, EStateM.bind, hfirst, hsecond, hthird]
    rfl
  have hle : ({ stackWords := 3 } : Config).stackWords ≤ ({ stackWords := 5 } : Config).stackWords := by
    decide
  obtain ⟨n₀, n, hload', hrow', hsame, -⟩ :=
    stepRow_with_more_stack hle (by decide) hload hrow
  exact ⟨m₀, m₁.stopped, n₀, n, hload, hrow, hload', hrow', hsame⟩

end WordLisp
