import WordLisp.Proofs.Machine.AddressMap
import WordLisp.Proofs.Machine.Transfers
import WordLisp.Proofs.Reload.NormalForm

/-!
# When a load is redundant

A load behind the store that it reads back is redundant if the two do not get in each other's way: the
store works on a cell, which is not the one with the load, and a pointer that it goes through is in
another cell. `m.slot? i` is the address that the offset of `i` counts to, and `m.effective? i` the one
that `i` works on.

Main statement: from such a state, the load behind the store changes nothing but the program counter
and the count of steps.
-/

namespace WordLisp

open Machine

/-! ## Definitions -/

namespace Memory

/-- The address of a cell, of the program or of the stack. -/
def IsCell (m : Memory D) (address : Word) : Prop :=
  Region.of? address m.limit = some .program ∨ Region.of? address m.limit = some .stack

/-- The word in the cell with an address. -/
def wordAt (m : Memory D) (address : Word) : Word := m.ram.getD (index address) 0

/-- The cell with an address holds the word of an instruction. -/
def HoldsCode (m : Memory D) (address : Word) (i : Instruction) : Prop :=
  m.IsCell address ∧ i.encode = .ok (m.wordAt address)

end Memory

/-- The instruction goes through a pointer. -/
def Instruction.isIndirect (i : Instruction) : Bool :=
  match i.opcode with
  | .load _ _ indirect | .store _ _ indirect => indirect
  | _ => false

namespace Machine

/-- The address that an offset counts to. -/
def slotAddress (m : Machine D) (base : Base) (offset : Word) : Word :=
  match base with
  | .program => programBase + offset
  | .frame => m.registers.frameBase + offset

/-- The address that the offset of an instruction counts to. -/
def slot? (m : Machine D) : Instruction → Option Word
  | .addressed _ (.offset offset) => some (m.slotAddress .program offset)
  | .frame _ offset => some (m.slotAddress .frame offset)
  | _ => none

/-- The address that a load or a store works on. -/
def effective? (m : Machine D) (i : Instruction) : Option Word :=
  (m.slot? i).map fun slot => if i.isIndirect then m.memory.wordAt slot else slot

/-- The address of the slot is a word. -/
def SlotFits (m : Machine D) : Base → Word → Prop
  | .program, _ => True
  | .frame, offset =>
    (m.registers.frameBase + offset).toInt = m.registers.frameBase.toInt + offset.toInt

/-- The slot is cell `k`, or it is another cell with a pointer to cell `k`. -/
inductive WorksOn (m : Machine D) (base : Base) (offset : Word) (k : Nat) : Bool → Prop where
  | direct : m.slotAddress base offset = cellAddress k → WorksOn m base offset k false
  | indirect {j : Nat} : m.slotAddress base offset = cellAddress j → m.memory.InReach j →
    m.memory.cell j = cellAddress k → j ≠ k → WorksOn m base offset k true

end Machine

/-! ## Cells -/

namespace Memory

variable {m : Memory D} {address : Word} {k : Nat}

theorem isCell_iff : m.IsCell address ↔ ∃ k, m.InReach k ∧ address = cellAddress k := by
  constructor
  · intro h
    rcases m.region_cases address with hcell | hdevice | ⟨-, hnone⟩
    · exact hcell
    · rw [IsCell, region_of_isDeviceAddress hdevice] at h
      rcases h with h | h <;> cases h
    · rw [IsCell, hnone] at h
      rcases h with h | h <;> cases h
  · rintro ⟨k, hk, rfl⟩
    obtain ⟨region, hregion, hne⟩ := region_of_inReach hk
    rw [IsCell, hregion]
    cases region with
    | device => exact (hne rfl).elim
    | program => exact .inl rfl
    | stack => exact .inr rfl

theorem wordAt_cellAddress (h : m.InReach k) : m.wordAt (cellAddress k) = m.cell k := by
  unfold wordAt
  rw [index_cellAddress h.lt_placeBound]
  rfl

/-- An instruction stays where it is when another cell is written. -/
theorem HoldsCode.setCell {i : Instruction} (h : m.HoldsCode address i) (hne : cellAddress k ≠ address)
    (v : Word) : (m.setCell k v).HoldsCode address i := by
  obtain ⟨hcell, hencode⟩ := h
  obtain ⟨p, hp, rfl⟩ := isCell_iff.mp hcell
  have hp' : (m.setCell k v).InReach p := inReach_setCell.mpr hp
  have hkp : k ≠ p := fun hkp => hne (congrArg cellAddress hkp)
  refine ⟨isCell_iff.mpr ⟨p, hp', rfl⟩, ?_⟩
  rw [wordAt_cellAddress hp', cell_setCell_of_ne hkp, ← wordAt_cellAddress hp, hencode]

end Memory

namespace Machine

section
variable {m : Machine D} {base : Base} {indirect : Bool} {offset : Word} {k : Nat}

/-- What keeps the frame and the cells other than `k` keeps what is worked on. -/
theorem WorksOn.congr {m' : Machine D} (h : m.WorksOn base offset k indirect)
    (hframe : m'.registers.frameBase = m.registers.frameBase) (hroof : m'.memory.roof = m.memory.roof)
    (hcells : ∀ j ≠ k, m'.memory.cell j = m.memory.cell j) : m'.WorksOn base offset k indirect := by
  have hslot : m'.slotAddress base offset = m.slotAddress base offset := by
    unfold slotAddress
    rw [hframe]
  cases h with
  | direct hk => exact .direct (hslot.trans hk)
  | indirect hj hreach hpointer hne =>
    refine .indirect (hslot.trans hj) ?_ ((hcells _ hne).trans hpointer) hne
    rwa [Memory.InReach, hroof]

theorem SlotFits.congr {m' : Machine D} (h : m.SlotFits base offset)
    (hframe : m'.registers.frameBase = m.registers.frameBase) : m'.SlotFits base offset := by
  cases base with
  | program => trivial
  | frame => rwa [SlotFits, hframe]

/-- What a load or a store works on, by places. -/
theorem worksOn_of_effective? {i : Instruction} (hslot : m.slot? i = some (m.slotAddress base offset))
    (haddress : m.effective? i = some (cellAddress k))
    (hpointer : i.isIndirect → ∀ slot, m.slot? i = some slot →
      m.memory.IsCell slot ∧ slot ≠ cellAddress k) : m.WorksOn base offset k i.isIndirect := by
  rw [effective?, hslot, Option.map_some, Option.some_inj] at haddress
  cases hindirect : i.isIndirect with
  | false =>
    rw [hindirect, if_neg Bool.false_ne_true] at haddress
    exact .direct haddress
  | true =>
    rw [hindirect, if_pos rfl] at haddress
    obtain ⟨hcell, hne⟩ := hpointer hindirect _ hslot
    obtain ⟨j, hj, hjslot⟩ := Memory.isCell_iff.mp hcell
    rw [hjslot, Memory.wordAt_cellAddress hj] at haddress
    exact .indirect hjslot hj haddress fun hjk => hne (hjk ▸ hjslot)

theorem frameAddress_of_fits (h : m.SlotFits .frame offset) :
    frameAddress offset m = .ok (m.slotAddress .frame offset) m := by
  have h : (m.registers.frameBase + offset).toInt = m.registers.frameBase.toInt + offset.toInt := h
  simp only [frameAddress, bind, EStateM.bind, get, getThe, MonadStateOf.get, EStateM.get, h, if_true]
  rfl

theorem frameAddress_of_not_fits (h : ¬ m.SlotFits .frame offset) :
    frameAddress offset m = .error (.outOfBounds (m.slotAddress .frame offset)) m := by
  have h : ¬ (m.registers.frameBase + offset).toInt = m.registers.frameBase.toInt + offset.toInt := h
  simp only [frameAddress, bind, EStateM.bind, get, getThe, MonadStateOf.get, EStateM.get, h, if_false]
  rfl

variable [Device D]

theorem operandAddress_of_fits (h : m.SlotFits base offset) : operandAddress base indirect offset m =
    if indirect then read (m.slotAddress base offset) m else .ok (m.slotAddress base offset) m := by
  cases base with
  | program => cases indirect <;> rfl
  | frame =>
    unfold operandAddress
    simp only [bind, EStateM.bind, frameAddress_of_fits h]
    cases indirect <;> rfl

theorem WorksOn.operandAddress_eq (h : m.WorksOn base offset k indirect) (hfits : m.SlotFits base offset) :
    operandAddress base indirect offset m = .ok (cellAddress k) m := by
  rw [operandAddress_of_fits hfits]
  cases h with
  | direct hslot => rw [hslot, if_neg Bool.false_ne_true]
  | indirect hslot hj hpointer => rw [hslot, if_pos rfl, ← hpointer, read_cell hj]

/-! ## Loads and stores -/

variable {unsupported : Fault} {register : Register} {fields : Fields}

theorem slotFits_of_execute {m' : Machine D}
    (h : execute unsupported (.store register base indirect) fields m = .ok () m') :
    m.SlotFits base fields.offset := by
  by_contra hfits
  cases base with
  | program => exact hfits trivial
  | frame =>
    simp only [execute, operandAddress, bind, EStateM.bind, frameAddress_of_not_fits hfits] at h
    cases h

section
variable (h : m.WorksOn base fields.offset k indirect) (hfits : m.SlotFits base fields.offset)
  (hk : m.memory.InReach k)
include h hfits hk

theorem execute_store (unsupported : Fault) (register : Register) :
    execute unsupported (.store register base indirect) fields m =
      .ok () (m.withMemory (m.memory.setCell k (m.registers.get register))) := by
  simp only [execute, bind, EStateM.bind, h.operandAddress_eq hfits, get, getThe, MonadStateOf.get,
    EStateM.get]
  exact write_cell hk _

theorem execute_load (unsupported : Fault) (register : Register) :
    execute unsupported (.load register base indirect) fields m =
      .ok () (m.withRegister register (m.memory.cell k)) := by
  simp only [execute, bind, EStateM.bind, h.operandAddress_eq hfits, read_cell hk]
  rfl

end

/-- A step carries out the instruction in the cell that the program counter points to. -/
theorem step_holdsCode {i : Instruction} (h : m.memory.HoldsCode m.registers.pc i) :
    ∃ unsupported fields, FieldsOf fields i ∧ ∀ status m', step m = .ok status m' ↔
      execute unsupported i.opcode fields m.advanced = .ok () m' ∧ m'.status = status := by
  obtain ⟨hcell, hencode⟩ := h
  obtain ⟨p, hp, hpc⟩ := Memory.isCell_iff.mp hcell
  have hrunning : m.status = .running := status_of_pc hpc hp.lt_placeBound
  have hfetch : Memory.read m.registers.pc m.memory = .ok (m.memory.wordAt m.registers.pc) m.memory := by
    rw [hpc, Memory.read_cell hp, Memory.wordAt_cellAddress hp]
  obtain ⟨hop, hfields⟩ := fieldsOf_decode (Instruction.decode?_encode hencode)
  refine ⟨.unsupported m.registers.pc (m.memory.wordAt m.registers.pc), _, hfields, fun status m' => ?_⟩
  rw [step_of_fetch hrunning hfetch, hop]
  simp only [bind, EStateM.bind]
  cases execute _ i.opcode _ m.advanced with
  | ok _ m'' =>
    constructor
    · rintro ⟨⟩
      exact ⟨rfl, rfl⟩
    · rintro ⟨⟨⟩, rfl⟩
      rfl
  | error => simp

section
variable {i : Instruction} (hcode : m.memory.HoldsCode m.registers.pc i)
include hcode

/-- A store that is carried out has found its slot. -/
theorem slotFits_of_step {status : Status} {m' : Machine D}
    (hi : IsAccess (.store register base indirect) offset i) (hstep : step m = .ok status m') :
    m.SlotFits base offset := by
  obtain ⟨unsupported, fields, hfields, hrun⟩ := step_holdsCode hcode
  obtain ⟨hop, rfl⟩ := hi.fields hfields
  obtain ⟨hexecute, -⟩ := (hrun status m').mp hstep
  rw [hop] at hexecute
  exact (slotFits_of_execute hexecute).congr rfl

variable (h : m.WorksOn base offset k indirect) (hfits : m.SlotFits base offset) (hk : m.memory.InReach k)
include h hfits hk

theorem step_store_cell (hi : IsAccess (.store register base indirect) offset i) :
    ∃ m', step m = .ok m'.status m' ∧ m'.memory = m.memory.setCell k (m.registers.get register) ∧
      m'.registers = m.advanced.registers := by
  obtain ⟨unsupported, fields, hfields, hrun⟩ := step_holdsCode hcode
  obtain ⟨hop, rfl⟩ := hi.fields hfields
  have hadvanced : m.advanced.WorksOn base fields.offset k indirect := h.congr rfl rfl fun _ _ => rfl
  have hexecute := execute_store hadvanced hfits hk unsupported register
  rw [← hop] at hexecute
  refine ⟨_, (hrun _ _).mpr ⟨hexecute, rfl⟩, ?_, rfl⟩
  cases register <;> rfl

theorem step_load_cell (hi : IsAccess (.load register base indirect) offset i) :
    step m = .ok (m.advanced.withRegister register (m.memory.cell k)).status
      (m.advanced.withRegister register (m.memory.cell k)) := by
  obtain ⟨unsupported, fields, hfields, hrun⟩ := step_holdsCode hcode
  obtain ⟨hop, rfl⟩ := hi.fields hfields
  have hadvanced : m.advanced.WorksOn base fields.offset k indirect := h.congr rfl rfl fun _ _ => rfl
  rw [hrun, hop]
  exact ⟨execute_load hadvanced hfits hk _ _, rfl⟩

end

end

/-- Behind a cell, the machine is still running. -/
theorem status_advanced {m : Machine D} (h : m.memory.IsCell m.registers.pc) :
    m.advanced.status = .running := by
  obtain ⟨p, hp, hpc⟩ := Memory.isCell_iff.mp h
  have hroof := m.memory.roof_lt
  have hlt : p + 1 < placeBound := by
    rcases hp with hp | hp
    · exact lt_placeBound_of_le_capacity hp
    · omega
  refine status_of_pc (p := p + 1) ?_ hlt
  rw [cellAddress_succ, ← hpc]
  rfl

theorem withRegister_get (m : Machine D) (register : Register) :
    m.withRegister register (m.registers.get register) = m := by
  cases register <;> rfl

end Machine

/-! ## A store and the load behind it -/

section
variable {store load : Instruction}

/-- A store and the load that reads it back have their argument in common. -/
theorem Instruction.exists_access (hreloads : store.reloads load) (hshape : store.WellShaped)
    {m : Machine D} {address : Word} (haddress : m.effective? store = some address) :
    ∃ register base indirect offset, IsAccess (.store register base indirect) offset store ∧
      IsAccess (.load register base indirect) offset load ∧ store.isIndirect = indirect ∧
      m.slot? store = some (m.slotAddress base offset) := by
  have hpair : Record.StoreLoad (.instruction store) (.instruction load) :=
    Record.reloads_iff_storeLoad.mp hreloads
  cases hpair with
  | addressed register base indirect target =>
    cases base with
    | frame => cases hshape
    | program =>
      cases target with
      | offset offset => exact ⟨register, _, indirect, offset, .inl rfl, .inl rfl, rfl, rfl⟩
      | tag name => cases haddress
  | frame register base indirect offset =>
    cases base with
    | program => cases hshape
    | frame => exact ⟨register, _, indirect, offset, .inr rfl, .inr rfl, rfl, rfl⟩

end

/-- A load behind the store that it reads back changes nothing but the program counter and the count of
steps, if the store works on a cell other than that of the load and not on the pointer that it goes
through, which is in a cell as well. -/
theorem load_redundant [Device D] {store load : Instruction} {m m₁ : Machine D} {status : Status}
    {address : Word} (hreloads : store.reloads load)
    (hstore : m.memory.HoldsCode m.registers.pc store)
    (hload : m.memory.HoldsCode (m.registers.pc + 1) load)
    (hstep : step m = .ok status m₁)
    (haddress : m.effective? store = some address)
    (hcell : m.memory.IsCell address) (hother : address ≠ m.registers.pc + 1)
    (hpointer : store.isIndirect → ∀ slot, m.slot? store = some slot →
      m.memory.IsCell slot ∧ slot ≠ address) :
    step m₁ = .ok .running m₁.advanced := by
  obtain ⟨register, base, indirect, offset, hs, hl, hindirect, hslot⟩ :=
    Instruction.exists_access hreloads (Instruction.shape_of_encode hstore.2) haddress
  obtain ⟨k, hk, rfl⟩ := Memory.isCell_iff.mp hcell
  have hworks : m.WorksOn base offset k indirect :=
    hindirect ▸ worksOn_of_effective? hslot haddress hpointer
  have hfits : m.SlotFits base offset := slotFits_of_step hstore hs hstep
  obtain ⟨m', hstep', hmemory, hregisters⟩ := step_store_cell hstore hworks hfits hk hs
  rw [hstep] at hstep'
  cases hstep'
  have hframe : m₁.registers.frameBase = m.registers.frameBase := by
    rw [hregisters]
    rfl
  -- The load is still there, and the store has left the way to cell `k`.
  have hload₁ : m₁.memory.HoldsCode m₁.registers.pc load := by
    rw [hmemory, hregisters]
    exact hload.setCell hother _
  have hworks₁ : m₁.WorksOn base offset k indirect := by
    refine hworks.congr hframe (by rw [hmemory, Memory.roof_setCell]) fun j hj => ?_
    rw [hmemory, Memory.cell_setCell_of_ne hj.symm]
  have hk₁ : m₁.memory.InReach k := by
    rw [hmemory]
    exact Memory.inReach_setCell.mpr hk
  have hvalue : m₁.memory.cell k = m₁.advanced.registers.get register := by
    rw [hmemory, Memory.cell_setCell_self hk, advanced, hregisters]
    cases register <;> rfl
  rw [step_load_cell hload₁ hworks₁ (hfits.congr hframe) hk₁ hl, hvalue, withRegister_get,
    status_advanced hload₁.1]

/-- A store through a pointer in the program, to the cell behind the pointer. -/
theorem load_redundant_pointer : ∃ m m₁ : Machine Terminal, m.registers.left = 7 ∧
    m.memory.HoldsCode m.registers.pc (.addressed (.store .left .program true) (.offset 2)) ∧
    m.memory.HoldsCode (m.registers.pc + 1) (.addressed (.load .left .program true) (.offset 2)) ∧
    m.effective? (.addressed (.store .left .program true) (.offset 2)) = some 0x800003 ∧
    step m = .ok .running m₁ ∧ step m₁ = .ok .running m₁.advanced := by
  obtain ⟨m₀, -, -, -, hcell⟩ := Machine.load_eq [0x22000002, 0x12000002, 0x800003] (by decide)
    (Machine.new ({ width := 0, height := 0 } : Terminal) { stackWords := 3 })
  obtain ⟨m, hmemory, hregisters⟩ : ∃ m : Machine Terminal, m.memory = m₀.memory ∧
      m.registers = { left := 7 } := ⟨{ m₀ with registers := { left := 7 } }, rfl, rfl⟩
  have hpc : m.registers.pc = cellAddress 0 := by
    rw [hregisters]
    decide
  have hreach {k : Nat} (hk : k < 4) : m.memory.InReach k := .inl (by unfold programCapacity; omega)
  have hcell {k : Nat} : m.memory.cell k = [0x22000002, 0x12000002, 0x800003].getD k 0 := by
    rw [hmemory, hcell]
  have hcode {k : Nat} {i : Instruction} (hk : k < 4)
      (hencode : i.encode = .ok ([0x22000002, 0x12000002, 0x800003].getD k 0)) :
      m.memory.HoldsCode (cellAddress k) i := by
    refine ⟨Memory.isCell_iff.mpr ⟨k, hreach hk, rfl⟩, ?_⟩
    rw [Memory.wordAt_cellAddress (hreach hk), hcell, hencode]
  have hstore : m.memory.HoldsCode m.registers.pc (.addressed (.store .left .program true) (.offset 2)) := by
    rw [hpc]
    exact hcode (by decide) (by decide)
  have hload : m.memory.HoldsCode (m.registers.pc + 1)
      (.addressed (.load .left .program true) (.offset 2)) := by
    rw [hpc, ← cellAddress_succ]
    exact hcode (by decide) (by decide)
  have haddress : m.effective? (.addressed (.store .left .program true) (.offset 2)) = some 0x800003 :=
    congrArg some ((Memory.wordAt_cellAddress (hreach (by decide : 2 < 4))).trans hcell)
  have hworks : m.WorksOn .program 2 3 true :=
    .indirect rfl (hreach (by decide : 2 < 4)) hcell (by decide)
  obtain ⟨m₁, hstep, -, hregisters₁⟩ := step_store_cell hstore hworks trivial (hreach (by decide))
    (show IsAccess (.store .left .program true) 2 _ from .inl rfl)
  have hrunning : m₁.status = .running := by
    refine status_of_pc (p := 1) ?_ (by decide)
    rw [hregisters₁, cellAddress_succ 0, ← hpc]
    rfl
  rw [hrunning] at hstep
  refine ⟨m, m₁, by rw [hregisters], hstore, hload, haddress, hstep, ?_⟩
  refine load_redundant (by decide) hstore hload hstep haddress
    (Memory.isCell_iff.mpr ⟨3, hreach (by decide), rfl⟩) (by rw [hpc]; decide) ?_
  rintro - _ ⟨⟩
  exact ⟨Memory.isCell_iff.mpr ⟨2, hreach (by decide), rfl⟩, (by decide : programBase + 2 ≠ 0x800003)⟩

end WordLisp
