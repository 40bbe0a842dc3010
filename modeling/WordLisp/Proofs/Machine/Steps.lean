import WordLisp.Machine.Step
import WordLisp.Proofs.Decoding
import WordLisp.Proofs.Machine.Cells

/-!
# Single instructions

`m.At p i` says that `m` is about to carry out the instruction `i`, which stands in cell `p`.
There is one lemma for each instruction and each way it can end, and it gives the whole result of
the step. `m.Locates base offset k` says that an operand is cell `k`.
-/

namespace WordLisp.Machine

open Memory (InReach)

/-- The machine after the instruction in front of cell `p` has been counted. -/
def goto (m : Machine D) (p : Nat) : Machine D :=
  { m with registers := { m.registers with pc := cellAddress p }, steps := m.steps + 1 }

def withRegister (m : Machine D) (register : Register) (value : Word) : Machine D :=
  { m with registers := m.registers.set value register }

def withMemory (m : Machine D) (memory : Memory D) : Machine D := { m with memory }

/-- The instruction that comes next, and its place. -/
structure At (m : Machine D) (p : Nat) (i : Instruction) : Prop where
  pc : m.registers.pc = cellAddress p
  lt : p < programCapacity
  decode : Instruction.decode? (m.memory.cell p) = some i

/-- The operand with an offset from a base is cell `k`. -/
def Locates (m : Machine D) : Base → Word → Nat → Prop
  | .program, offset, k => offset = Int32.ofNat k
  | .frame, offset, k =>
    ∃ b, m.registers.frameBase = cellAddress b ∧ b < placeBound ∧ (b : Int) + offset.toInt = k

theorem status_of_pc {m : Machine D} {p : Nat} (h : m.registers.pc = cellAddress p)
    (hp : p < placeBound) : m.status = .running := by
  unfold status
  rw [h, if_neg]
  rw [Int32.lt_iff_toInt_lt, toInt_cellAddress hp, toInt_programBase]
  omega

theorem lt_placeBound_of_le_capacity {p : Nat} (h : p ≤ programCapacity) : p < placeBound := by
  unfold programCapacity at h
  unfold placeBound
  omega

theorem At.running {m : Machine D} {p : Nat} {i : Instruction} (h : m.At p i) :
    m.status = .running :=
  status_of_pc h.pc (lt_placeBound_of_le_capacity (Nat.le_of_lt h.lt))

theorem At.next_running {m : Machine D} {p : Nat} {i : Instruction} (h : m.At p i) :
    (m.goto (p + 1)).status = .running :=
  status_of_pc rfl (lt_placeBound_of_le_capacity h.lt)

/-! ## Loading -/

/-- What a load leaves: the words of the program in a machine that starts over. -/
theorem load_eq (words : List Word) (h : words.length ≤ programCapacity) (m₀ : Machine D) :
    ∃ m, m₀.load words = .ok () m ∧ m.registers = {} ∧ m.memory.roof = m₀.memory.roof ∧
      ∀ i, m.memory.cell i = words.getD i 0 := by
  obtain ⟨mem, hload, hroof, -, hcell⟩ := Memory.load_eq words h m₀.memory
  refine ⟨{ m₀ with memory := mem, registers := {}, steps := 0 }, ?_, rfl, hroof, hcell⟩
  unfold load
  simp only [bind, EStateM.bind, access, hload]
  rfl

/-! ## Fetching -/

theorem status_withMemory_goto {m : Machine D} {p : Nat} {memory : Memory D}
    (h : p < programCapacity) : ((m.goto (p + 1)).withMemory memory).status = .running :=
  status_of_pc rfl (lt_placeBound_of_le_capacity h)

theorem status_withRegister_goto {m : Machine D} {p : Nat} {register : Register} {v : Word}
    (h : p < programCapacity) : ((m.goto (p + 1)).withRegister register v).status = .running :=
  status_of_pc (by cases register <;> rfl) (lt_placeBound_of_le_capacity h)

theorem status_withRegister_withMemory_goto {m : Machine D} {p : Nat} {memory : Memory D}
    {register : Register} {v : Word} (h : p < programCapacity) :
    (((m.goto (p + 1)).withMemory memory).withRegister register v).status = .running :=
  status_of_pc (by cases register <;> rfl) (lt_placeBound_of_le_capacity h)

/-- The instruction has a given opcode and a given offset. -/
def IsAccess (opcode : Opcode) (offset : Word) (i : Instruction) : Prop :=
  i = .addressed opcode (.offset offset) ∨ i = .frame opcode offset

theorem IsAccess.fields {opcode : Opcode} {offset : Word} {i : Instruction} {fields : Fields}
    (h : IsAccess opcode offset i) (hf : FieldsOf fields i) :
    i.opcode = opcode ∧ fields.offset = offset := by
  rcases h with rfl | rfl
  · exact ⟨rfl, hf⟩
  · exact ⟨rfl, hf⟩

section
variable [Device D] {m : Machine D} {p k : Nat} {i : Instruction} {register : Register}
  {base : Base} {offset : Word}

theorem read_cell (h : m.memory.InReach k) :
    read (cellAddress k) m = .ok (m.memory.cell k) m := by
  unfold read access
  simp only [Memory.read_cell h]

theorem write_cell (h : m.memory.InReach k) (v : Word) :
    write (cellAddress k) v m = .ok () (m.withMemory (m.memory.setCell k v)) := by
  unfold write access
  simp only [Memory.write_cell h]
  rfl

theorem write_out (hs : programCapacity ≤ k) (hr : m.memory.roof ≤ k) (hk : k < placeBound)
    (v : Word) : write (cellAddress k) v m = .error (.outOfBounds (cellAddress k)) m := by
  unfold write access
  simp only [Memory.write_out hs hr hk]

theorem read_device {address : Word} (h : IsDeviceAddress address) :
    read address m = .ok (Device.read address m.memory.device).1
      (m.withMemory (m.memory.withDevice (Device.read address m.memory.device).2)) := by
  unfold read access
  simp only [Memory.read_device h]
  rfl

theorem write_device {address : Word} (h : IsDeviceAddress address) (v : Word) :
    write address v m = .ok ()
      (m.withMemory (m.memory.withDevice (Device.write address v m.memory.device))) := by
  unfold write access
  simp only [Memory.write_device h]
  rfl

/-- A step carries out the instruction on the machine that has moved on. -/
theorem step_at (h : m.At p i) :
    ∃ unsupported fields, FieldsOf fields i ∧
      step m = (do execute unsupported i.opcode fields; return (← get).status : Action D Status)
        (m.goto (p + 1)) := by
  obtain ⟨ho, hf⟩ := fieldsOf_decode h.decode
  refine ⟨.unsupported m.registers.pc (m.memory.cell p), Fields.ofWord (m.memory.cell p), hf, ?_⟩
  have hr : read m.registers.pc m = .ok (m.memory.cell p) m := by
    rw [h.pc]; exact read_cell (.inl h.lt)
  have ha : (advance : Action D Unit) m = .ok () (m.goto (p + 1)) := by
    unfold advance goto
    rw [cellAddress_succ, ← h.pc]
    rfl
  unfold step
  simp only [bind, EStateM.bind, get, getThe, MonadStateOf.get, EStateM.get, h.running, hr, ho, ha]

theorem step_of_execute {m' : Machine D} (h : m.At p i)
    (he : ∀ unsupported fields, FieldsOf fields i →
      execute unsupported i.opcode fields (m.goto (p + 1)) = .ok () m') :
    step m = .ok m'.status m' := by
  obtain ⟨e, fields, hf, hs⟩ := step_at h
  rw [hs]
  simp only [bind, EStateM.bind, he e fields hf]
  rfl

theorem step_of_execute_error {m' : Machine D} {fault : Fault} (h : m.At p i)
    (he : ∀ unsupported fields, FieldsOf fields i →
      execute unsupported i.opcode fields (m.goto (p + 1)) = .error fault m') :
    step m = .error fault m' := by
  obtain ⟨e, fields, hf, hs⟩ := step_at h
  rw [hs]
  simp only [bind, EStateM.bind, he e fields hf]

/-! ## Loads and stores -/

omit [Device D] in
theorem frameAddress_cell (h : m.Locates .frame offset k) (hk : k < placeBound) :
    frameAddress offset m = .ok (cellAddress k) m := by
  obtain ⟨b, hb, hlt, he⟩ := h
  have hsum : m.registers.frameBase + offset = cellAddress k := by
    rw [hb]; exact cellAddress_add_offset he
  have hint : (cellAddress k).toInt = m.registers.frameBase.toInt + offset.toInt := by
    rw [hb, toInt_cellAddress hk, toInt_cellAddress hlt]
    omega
  simp only [frameAddress, bind, EStateM.bind, get, getThe, MonadStateOf.get, EStateM.get, hsum,
    hint, if_true]
  rfl

theorem operandAddress_direct (h : m.Locates base offset k) (hk : k < placeBound) :
    operandAddress base false offset m = .ok (cellAddress k) m := by
  unfold operandAddress
  cases base with
  | program => cases h; rfl
  | frame => simp only [bind, EStateM.bind, frameAddress_cell h hk]; rfl

theorem operandAddress_indirect (h : m.Locates base offset k) (hk : m.memory.InReach k) :
    operandAddress base true offset m = .ok (m.memory.cell k) m := by
  unfold operandAddress
  cases base with
  | program => cases h; exact read_cell hk
  | frame =>
    simp only [bind, EStateM.bind, frameAddress_cell h hk.lt_placeBound]
    exact read_cell hk

theorem step_load (h : m.At p i) (hi : IsAccess (.load register base false) offset i)
    (hl : m.Locates base offset k) (hk : m.memory.InReach k) :
    step m = .ok .running ((m.goto (p + 1)).withRegister register (m.memory.cell k)) := by
  rw [← status_withRegister_goto h.lt]
  apply step_of_execute h
  intro e fields hf
  obtain ⟨ho, rfl⟩ := hi.fields hf
  have ha : operandAddress base false fields.offset (m.goto (p + 1))
      = .ok (cellAddress k) (m.goto (p + 1)) := operandAddress_direct hl hk.lt_placeBound
  have hr : read (cellAddress k) (m.goto (p + 1)) = .ok (m.memory.cell k) (m.goto (p + 1)) :=
    read_cell hk
  rw [ho]
  simp only [execute, bind, EStateM.bind, ha, hr]
  rfl

theorem step_load_device (h : m.At p i) (hi : IsAccess (.load register base true) offset i)
    (hl : m.Locates base offset k) (hk : m.memory.InReach k)
    (hd : IsDeviceAddress (m.memory.cell k)) :
    step m = .ok .running (((m.goto (p + 1)).withMemory (m.memory.withDevice
      (Device.read (m.memory.cell k) m.memory.device).2)).withRegister register
      (Device.read (m.memory.cell k) m.memory.device).1) := by
  rw [← status_withRegister_withMemory_goto h.lt]
  apply step_of_execute h
  intro e fields hf
  obtain ⟨ho, rfl⟩ := hi.fields hf
  have ha : operandAddress base true fields.offset (m.goto (p + 1))
      = .ok (m.memory.cell k) (m.goto (p + 1)) := operandAddress_indirect hl hk
  rw [ho]
  simp only [execute, bind, EStateM.bind, ha, read_device hd]
  rfl

theorem step_store (h : m.At p i) (hi : IsAccess (.store register base false) offset i)
    (hl : m.Locates base offset k) (hk : m.memory.InReach k) :
    step m = .ok .running
      ((m.goto (p + 1)).withMemory (m.memory.setCell k (m.registers.get register))) := by
  rw [← status_withMemory_goto h.lt]
  apply step_of_execute h
  intro e fields hf
  obtain ⟨ho, rfl⟩ := hi.fields hf
  have ha : operandAddress base false fields.offset (m.goto (p + 1))
      = .ok (cellAddress k) (m.goto (p + 1)) := operandAddress_direct hl hk.lt_placeBound
  rw [ho]
  simp only [execute, bind, EStateM.bind, ha, get, getThe, MonadStateOf.get, EStateM.get]
  exact write_cell (m := m.goto (p + 1)) hk _

theorem step_store_device (h : m.At p i) (hi : IsAccess (.store register base true) offset i)
    (hl : m.Locates base offset k) (hk : m.memory.InReach k)
    (hd : IsDeviceAddress (m.memory.cell k)) :
    step m = .ok .running ((m.goto (p + 1)).withMemory (m.memory.withDevice
      (Device.write (m.memory.cell k) (m.registers.get register) m.memory.device))) := by
  rw [← status_withMemory_goto h.lt]
  apply step_of_execute h
  intro e fields hf
  obtain ⟨ho, rfl⟩ := hi.fields hf
  have ha : operandAddress base true fields.offset (m.goto (p + 1))
      = .ok (m.memory.cell k) (m.goto (p + 1)) := operandAddress_indirect hl hk
  rw [ho]
  simp only [execute, bind, EStateM.bind, ha, get, getThe, MonadStateOf.get, EStateM.get]
  exact write_device hd _

/-- A store into the frame that ends up past the stack. The address in the fault is the one that
the offset counts to, wrapped if it is no word. -/
theorem step_store_out (h : m.At p (.frame (.store register .frame false) offset)) {b : Nat}
    (hb : m.registers.frameBase = cellAddress b) (hbl : b < placeBound)
    (hk : (b : Int) + offset.toInt = k) (hs : programCapacity ≤ k) (hr : m.memory.roof ≤ k) :
    step m = .error (.outOfBounds (cellAddress k)) (m.goto (p + 1)) := by
  apply step_of_execute_error h
  intro e fields hf
  cases hf
  by_cases hlt : k < placeBound
  · have hl : (m.goto (p + 1)).Locates .frame fields.offset k := ⟨b, hb, hbl, hk⟩
    simp only [Instruction.opcode, execute, bind, EStateM.bind, operandAddress_direct hl hlt, get,
      getThe, MonadStateOf.get, EStateM.get]
    exact write_out (m := m.goto (p + 1)) hs hr hlt _
  · have hsum : (m.goto (p + 1)).registers.frameBase + fields.offset = cellAddress k := by
      show m.registers.frameBase + _ = _
      rw [hb]; exact cellAddress_add_offset hk
    have hne : (cellAddress k).toInt
        ≠ (m.goto (p + 1)).registers.frameBase.toInt + fields.offset.toInt := by
      show _ ≠ m.registers.frameBase.toInt + _
      rw [hb, toInt_cellAddress hbl]
      have := (cellAddress k).toInt_lt
      unfold placeBound at hlt
      omega
    simp only [Instruction.opcode, execute, operandAddress, frameAddress, bind, EStateM.bind, get,
      getThe, MonadStateOf.get, EStateM.get, hsum, hne, if_false]
    rfl

/-! ## Registers -/

theorem step_unary {op : UnaryOp} (h : m.At p (.unary (.unary register) op)) :
    step m = .ok .running
      ((m.goto (p + 1)).withRegister register (op.apply (m.registers.get register))) := by
  rw [← status_withRegister_goto h.lt]
  apply step_of_execute h
  intro e fields hf
  have hf : UnaryOp.ofCode? fields.operator = some op := hf
  simp only [Instruction.opcode, execute, hf]
  rfl

theorem step_binary {op : BinaryOp} (h : m.At p (.binary (.binary register) op)) :
    step m = .ok .running ((m.goto (p + 1)).withRegister register
      (op.apply m.registers.left m.registers.right)) := by
  rw [← status_withRegister_goto h.lt]
  apply step_of_execute h
  intro e fields hf
  have hf : BinaryOp.ofCode? fields.operator = some op := hf
  simp only [Instruction.opcode, execute, hf]
  rfl

theorem step_swap (h : m.At p (.nullary .swap)) :
    step m = .ok .running (((m.goto (p + 1)).withRegister .left m.registers.right).withRegister
      .right m.registers.left) := by
  rw [← status_of_pc (m := ((m.goto (p + 1)).withRegister .left m.registers.right).withRegister
    .right m.registers.left) rfl (lt_placeBound_of_le_capacity h.lt)]
  exact step_of_execute h fun _ _ _ => rfl

/-! ## Control -/

theorem step_branch (h : m.At p (.addressed (.branch register) (.offset (Int32.ofNat k))))
    (hk : k ≤ programCapacity) :
    step m = .ok .running
      (if m.registers.get register = 0 then m.goto (p + 1) else m.goto k) := by
  have hst : (if m.registers.get register = 0 then m.goto (p + 1) else m.goto k).status
      = .running := by
    split
    · exact h.next_running
    · exact status_of_pc rfl (lt_placeBound_of_le_capacity hk)
  rw [← hst]
  apply step_of_execute h
  intro e fields hf
  have hf : fields.offset = Int32.ofNat k := hf
  have hg : (m.goto (p + 1)).registers.get register = m.registers.get register := by
    cases register <;> rfl
  simp only [Instruction.opcode, execute, modifyRegisters, modify, modifyGet, MonadStateOf.modifyGet,
    EStateM.modifyGet, hg, hf]
  split <;> rfl

theorem step_jump (h : m.At p (.addressed .jump (.offset (Int32.ofNat k))))
    (hk : k ≤ programCapacity) : step m = .ok .running (m.goto k) := by
  rw [← status_of_pc (m := m.goto k) rfl (lt_placeBound_of_le_capacity hk)]
  apply step_of_execute h
  intro e fields hf
  have hf : fields.offset = Int32.ofNat k := hf
  simp only [Instruction.opcode, execute, hf]
  rfl

/-- The machine with its program counter in front of the program. -/
def stopped (m : Machine D) : Machine D :=
  { m with registers := { m.registers with pc := programBase - 1 }, steps := m.steps + 1 }

omit [Device D] in
@[simp] theorem memory_stopped (m : Machine D) : m.stopped.memory = m.memory := by
  unfold stopped
  rfl

omit [Device D] in
theorem status_stopped (m : Machine D) : m.stopped.status = .halted := by
  unfold status stopped
  exact if_pos (show programBase - 1 < programBase by decide)

theorem step_halt (h : m.At p (.addressed .jump (.offset (-1)))) :
    step m = .ok .halted m.stopped := by
  rw [← m.status_stopped]
  apply step_of_execute h
  intro e fields hf
  have hf : fields.offset = -1 := hf
  simp only [Instruction.opcode, execute, hf]
  rfl

/-- The machine that has entered the function at place `entry` with `size` cells, with its frame
at the top `t` of the stack and a return to place `back`. -/
def entered (m : Machine D) (t size entry back : Nat) : Machine D :=
  { m with
    memory := (m.memory.setCell (t - 1) (cellAddress back)).setCell t m.registers.frameBase
    registers := { m.registers with
      pc := cellAddress entry, frameBase := cellAddress t, stackTop := cellAddress (t + size) }
    steps := m.steps + 1 }

omit [Device D] in
theorem roof_entered {t size entry back : Nat} :
    (m.entered t size entry back).memory.roof = m.memory.roof := by
  unfold entered
  rw [Memory.roof_setCell, Memory.roof_setCell]

omit [Device D] in
/-- Only the two cells of the link change. -/
theorem cell_entered_of_ne {t size entry back k : Nat} (h1 : k ≠ t - 1) (h2 : k ≠ t) :
    (m.entered t size entry back).memory.cell k = m.memory.cell k := by
  unfold entered
  rw [Memory.cell_setCell_of_ne (Ne.symm h2), Memory.cell_setCell_of_ne (Ne.symm h1)]

omit [Device D] in
theorem cell_entered_base {t size entry back : Nat} (h : m.memory.InReach t) :
    (m.entered t size entry back).memory.cell t = m.registers.frameBase :=
  Memory.cell_setCell_self (Memory.inReach_setCell.mpr h) _

omit [Device D] in
theorem cell_entered_back {t size entry back : Nat} (hpos : 0 < t)
    (h : m.memory.InReach (t - 1)) :
    (m.entered t size entry back).memory.cell (t - 1) = cellAddress back := by
  unfold entered
  rw [Memory.cell_setCell_of_ne (by omega)]
  exact Memory.cell_setCell_self h _

/-- A call whose size word is known: either the stack is too small, or the links are written. -/
theorem call_eq {entry size : Word} (hread : read (entry - 1) m = .ok size m) (hnn : ¬ size < 0) :
    call entry m =
      if m.memory.limit ≤ m.registers.stackTop ∨
          m.memory.limit.toInt < m.registers.stackTop.toInt + size.toInt then
        .error (.stackOverflow (m.registers.stackTop.toInt + size.toInt)) m
      else
        (do
          write (m.registers.stackTop - 1) m.registers.pc
          write m.registers.stackTop m.registers.frameBase
          modifyRegisters fun r =>
            { r with
              pc := entry
              frameBase := m.registers.stackTop
              stackTop := Int32.ofInt (m.registers.stackTop.toInt + size.toInt) } :
          Action D Unit) m := by
  obtain ⟨memory, ⟨pc, l, r, base, top⟩, steps, sliceSteps⟩ := m
  unfold call
  simp only [bind, EStateM.bind, hread, hnn, if_false, get, getThe, MonadStateOf.get, EStateM.get]
  split <;> rfl

section
variable {entry size t : Nat} (h : m.At p (.addressed .call (.offset (Int32.ofNat entry))))
  (hpos : 0 < entry) (hentry : entry ≤ programCapacity)
  (hsize : m.memory.cell (entry - 1) = Int32.ofNat size) (hsmall : size < placeBound)
  (htop : m.registers.stackTop = cellAddress t) (ht : t < placeBound)
include hpos hentry hsize hsmall htop ht

theorem call_entry :
    call (programBase + Int32.ofNat entry) (m.goto (p + 1)) =
      if m.memory.roof ≤ t ∨ m.memory.roof < (t + size : Int) then
        .error (.stackOverflow (2 ^ 23 + t + size)) (m.goto (p + 1))
      else
        (do
          write (cellAddress t - 1) (cellAddress (p + 1))
          write (cellAddress t) m.registers.frameBase
          modifyRegisters fun r =>
            { r with
              pc := cellAddress entry
              frameBase := cellAddress t
              stackTop := Int32.ofInt (2 ^ 23 + t + size) } : Action D Unit) (m.goto (p + 1)) := by
  have hint : (Int32.ofNat size).toInt = size :=
    Int32.toInt_ofNat_of_lt (by unfold placeBound at hsmall; omega)
  have hnn : ¬ (Int32.ofNat size < 0) := by
    rw [Int32.lt_iff_toInt_lt, hint, Int32.toInt_zero]; omega
  have hread : read (cellAddress entry - 1) (m.goto (p + 1))
      = .ok (Int32.ofNat size) (m.goto (p + 1)) := by
    rw [cellAddress_sub_one hpos, ← hsize]
    exact read_cell (m := m.goto (p + 1)) (.inl (by omega))
  have hg : (m.goto (p + 1)).registers.stackTop = cellAddress t := htop
  have hl : (m.goto (p + 1)).memory.limit = m.memory.limit := rfl
  have hiff : (m.memory.limit ≤ cellAddress t ∨ m.memory.limit.toInt < 2 ^ 23 + t + (size : Int)) ↔
      (m.memory.roof ≤ t ∨ m.memory.roof < (t + size : Int)) := by
    rw [Int32.le_iff_toInt_le, Memory.toInt_limit, toInt_cellAddress ht]
    omega
  rw [show programBase + Int32.ofNat entry = cellAddress entry from rfl, call_eq hread hnn, hg, hl,
    hint, toInt_cellAddress ht]
  simp only [hiff]
  rfl

include h

theorem step_call (hone : 0 < t) (hroof : (t : Int) < m.memory.roof)
    (hfits : (t + size : Int) ≤ m.memory.roof) :
    step m = .ok .running (m.entered t size entry (p + 1)) := by
  have hroof' := m.memory.roof_lt
  rw [← status_of_pc (m := m.entered t size entry (p + 1)) rfl
    (lt_placeBound_of_le_capacity hentry)]
  apply step_of_execute h
  intro e fields hf
  have hf : fields.offset = Int32.ofNat entry := hf
  have hw1 : write (cellAddress (t - 1)) (cellAddress (p + 1)) (m.goto (p + 1)) = .ok ()
      ((m.goto (p + 1)).withMemory (m.memory.setCell (t - 1) (cellAddress (p + 1)))) :=
    write_cell (m := m.goto (p + 1)) (.inr (by show ((t - 1 : Nat) : Int) < m.memory.roof; omega)) _
  have hw2 : write (cellAddress t) m.registers.frameBase
      ((m.goto (p + 1)).withMemory (m.memory.setCell (t - 1) (cellAddress (p + 1)))) = .ok ()
      (((m.goto (p + 1)).withMemory (m.memory.setCell (t - 1) (cellAddress (p + 1)))).withMemory
        ((m.memory.setCell (t - 1) (cellAddress (p + 1))).setCell t m.registers.frameBase)) :=
    write_cell (.inr (by simpa [withMemory] using hroof)) _
  have hsum : Int32.ofInt (2 ^ 23 + t + size) = cellAddress (t + size) := by
    apply Int32.toInt.inj
    rw [toInt_cellAddress (by omega)]
    unfold placeBound at *
    rw [Int32.toInt_ofInt_of_le (by omega) (by omega)]
    push_cast
    ring
  simp only [Instruction.opcode, execute, hf]
  rw [call_entry hpos hentry hsize hsmall htop ht, if_neg (by omega)]
  simp only [bind, EStateM.bind, cellAddress_sub_one hone, hw1, hw2, hsum]
  rfl

theorem step_call_overflow (hover : m.memory.roof ≤ t ∨ m.memory.roof < (t + size : Int)) :
    step m = .error (.stackOverflow (2 ^ 23 + t + size)) (m.goto (p + 1)) := by
  apply step_of_execute_error h
  intro e fields hf
  have hf : fields.offset = Int32.ofNat entry := hf
  simp only [Instruction.opcode, execute, hf]
  rw [call_entry hpos hentry hsize hsmall htop ht, if_pos hover]

end

/-- The machine that has left the function whose frame begins at place `b`. -/
def left (m : Machine D) (b : Nat) : Machine D :=
  { m with
    registers := { m.registers with
      pc := m.memory.cell (b - 1), frameBase := m.memory.cell b, stackTop := cellAddress b }
    steps := m.steps + 1 }

theorem step_ret (h : m.At p (.nullary .ret)) {b : Nat} (hb : m.registers.frameBase = cellAddress b)
    (hpos : 0 < b) (hr : m.memory.InReach b) (hr' : m.memory.InReach (b - 1)) :
    step m = .ok (m.left b).status (m.left b) := by
  apply step_of_execute h
  intro e fields _
  simp only [Instruction.opcode, execute, ret, bind, EStateM.bind, get, getThe, MonadStateOf.get,
    EStateM.get, modifyRegisters, modify, modifyGet, MonadStateOf.modifyGet, EStateM.modifyGet]
  have hg : (m.goto (p + 1)).registers.frameBase = cellAddress b := hb
  simp only [hg, cellAddress_sub_one hpos]
  rw [read_cell (by exact hr)]
  simp only
  rw [read_cell (by exact hr')]
  rfl

end

end WordLisp.Machine
