import WordLisp.Machine.Terminal
import WordLisp.Proofs.Machine.Steps

/-!
# Instructions as transfers

What each instruction is meant to do, as a table of transfers between registers and cells. The
addresses in the table are numbers, so no sum in it wraps: a number that is not a word is the address
of no cell. `Instruction.perform` is the table.

Main statement: a step carries out the instruction that the word in front of the machine decodes to,
by the table, and a word that decodes to nothing is a fault. What the reserved bits of the word are
does not matter.
-/

namespace WordLisp

open Machine

namespace Machine

/-! ## Cells by number -/

/-- The address that a number is. -/
def locate (a : Int) : Action D Word :=
  if (Int32.ofInt a).toInt = a then return Int32.ofInt a else throw (.outOfBounds (Int32.ofInt a))

def content : Register → Action D Word
  | .left => return (← get).registers.left
  | .right => return (← get).registers.right

def assign (value : Word) : Register → Action D Unit
  | .left => modifyRegisters fun r => { r with left := value }
  | .right => modifyRegisters fun r => { r with right := value }

/-- The machine with the instruction in front of it counted and passed. -/
def advanced (m : Machine D) : Machine D :=
  { m with registers := { m.registers with pc := m.registers.pc + 1 }, steps := m.steps + 1 }

variable [Device D]

def fetchAt (a : Int) : Action D Word := do read (← locate a)

def putAt (a : Int) (value : Word) : Action D Unit := do write (← locate a) value

end Machine

/-! ## The table -/

section
variable [Device D]

-- In each part of the table the last row stands for the opcodes of the other shapes. No word decodes
-- to an instruction with one of these.

/-- The instructions with an offset from the start of the program. -/
def Opcode.performAddressed (offset : Word) : Opcode → Action D Unit
  | .load register .program false => do
    assign (← fetchAt (programBase.toInt + offset.toInt)) register
  | .load register .program true => do
    let pointer ← fetchAt (programBase.toInt + offset.toInt)
    assign (← fetchAt pointer.toInt) register
  | .store register .program false => do
    putAt (programBase.toInt + offset.toInt) (← content register)
  | .store register .program true => do
    let pointer ← fetchAt (programBase.toInt + offset.toInt)
    putAt pointer.toInt (← content register)
  | .branch register => do
    if (← content register) ≠ 0 then
      modifyRegisters fun r => { r with pc := Int32.ofInt (programBase.toInt + offset.toInt) }
  | .jump =>
    modifyRegisters fun r => { r with pc := Int32.ofInt (programBase.toInt + offset.toInt) }
  | .call => do
    let entry := programBase.toInt + offset.toInt
    let size ← fetchAt (entry - 1)
    if size < 0 then throw (.invalidFrameSize (Int32.ofInt (entry - 1)) size)
    let r := (← get).registers
    let limit := (← get).memory.limit.toInt
    let top := r.stackTop.toInt + size.toInt
    if limit ≤ r.stackTop.toInt ∨ limit < top then throw (.stackOverflow top)
    putAt (r.stackTop.toInt - 1) r.pc
    putAt r.stackTop.toInt r.frameBase
    modifyRegisters fun r => { r with frameBase := r.stackTop }
    modifyRegisters fun r => { r with stackTop := r.stackTop + size }
    modifyRegisters fun r => { r with pc := Int32.ofInt entry }
  | _ => pure ()

/-- The instructions with an offset in the frame. -/
def Opcode.performFrame (offset : Word) : Opcode → Action D Unit
  | .load register .frame false => do
    assign (← fetchAt ((← get).registers.frameBase.toInt + offset.toInt)) register
  | .load register .frame true => do
    let pointer ← fetchAt ((← get).registers.frameBase.toInt + offset.toInt)
    assign (← fetchAt pointer.toInt) register
  | .store register .frame false => do
    putAt ((← get).registers.frameBase.toInt + offset.toInt) (← content register)
  | .store register .frame true => do
    let pointer ← fetchAt ((← get).registers.frameBase.toInt + offset.toInt)
    putAt pointer.toInt (← content register)
  | _ => pure ()

/-- The instructions without an argument. -/
def Opcode.performNullary : Opcode → Action D Unit
  | .nop => pure ()
  | .swap => modifyRegisters fun r => { r with left := r.right, right := r.left }
  | .ret => do
    modifyRegisters fun r => { r with stackTop := r.frameBase }
    let frameBase ← fetchAt (← get).registers.stackTop.toInt
    modifyRegisters fun r => { r with frameBase }
    let pc ← fetchAt ((← get).registers.stackTop.toInt - 1)
    modifyRegisters fun r => { r with pc }
  | _ => pure ()

/-- What an instruction does, once it has been counted and passed. -/
def Instruction.perform : Instruction → Action D Unit
  | .addressed opcode (.offset offset) => opcode.performAddressed offset
  | .frame opcode offset => opcode.performFrame offset
  | .unary (.unary register) operator => do
    assign (operator.apply (← content register)) register
  | .binary (.binary register) operator => do
    assign (operator.apply (← content .left) (← content .right)) register
  | .nullary opcode => opcode.performNullary
  | _ => pure ()

end

namespace Machine

/-! ## Registers -/

theorem content_bind (register : Register) (k : Word → Action D α) :
    content register >>= k = get >>= fun m => k (m.registers.get register) := by
  cases register <;> rfl

theorem assign_eq (value : Word) (register : Register) :
    (assign value register : Action D Unit) = modifyRegisters fun r => r.set value register := by
  cases register <;> rfl

/-! ## Addresses -/

section
variable {offset : Word}

theorem locate_toInt (w : Word) : (locate w.toInt : Action D Word) = pure w := by
  unfold locate
  rw [Int32.ofInt_toInt, if_pos rfl]

theorem ofInt_add_toInt (a b : Word) : Int32.ofInt (a.toInt + b.toInt) = a + b := by
  rw [Int32.ofInt_add, Int32.ofInt_toInt, Int32.ofInt_toInt]

theorem ofInt_toInt_sub_one (a : Word) : Int32.ofInt (a.toInt - 1) = a - 1 := by
  rw [Int32.ofInt_sub, Int32.ofInt_toInt]
  rfl

/-- Offsets from the base of the program do not wrap. -/
theorem toInt_programBase_add (h : FitsOffset offset) :
    (programBase + offset).toInt = programBase.toInt + offset.toInt := by
  obtain ⟨hlow, hhigh⟩ := h
  rw [Int32.toInt_add, toInt_programBase]
  exact Int.bmod_eq_of_le (by omega) (by omega)

theorem frameAddress_eq (offset : Word) :
    (frameAddress offset : Action D Word) =
      get >>= fun m => locate (m.registers.frameBase.toInt + offset.toInt) := by
  unfold frameAddress locate
  simp only [ofInt_add_toInt]

/-- A look at the machine may come before an address is found. -/
theorem locate_bind_get (a : Int) (k : Word → Machine D → Action D α) :
    (locate a >>= fun address => get >>= k address) =
      get >>= fun m => locate a >>= fun address => k address m := by
  funext m
  unfold locate
  split <;> rfl

variable [Device D]

theorem fetchAt_toInt (w : Word) : (fetchAt w.toInt : Action D Word) = read w := by
  unfold fetchAt
  rw [locate_toInt, pure_bind]

theorem putAt_toInt (w value : Word) : (putAt w.toInt value : Action D Unit) = write w value := by
  unfold putAt
  rw [locate_toInt, pure_bind]

/-- The last address is that of no cell. -/
theorem region_of_last {w limit : Word} (h : w.toInt = 2 ^ 31 - 1) : Region.of? w limit = none := by
  have hlimit := limit.toInt_lt
  unfold Region.of?
  simp only [Int32.lt_iff_toInt_lt, h, toInt_programBase, Memory.toInt_stackBase, Int32.toInt_zero]
  rw [if_neg (by omega), if_neg (by omega), if_neg (by omega), if_neg (by omega)]

/-- The address below an address is a number, or wraps to one that is that of no cell. -/
theorem sub_one_cases (w : Word) :
    (w - 1).toInt = w.toInt - 1 ∨ ∀ limit, Region.of? (w - 1) limit = none := by
  have hlow := w.le_toInt
  have hhigh := w.toInt_lt
  have hsub : (w - 1).toInt = (w.toInt - 1).bmod (2 ^ 32) := Int32.toInt_sub w 1
  by_cases hmin : w.toInt = -2 ^ 31
  · refine .inr fun limit => region_of_last ?_
    rw [hsub, hmin]
    rfl
  · exact .inl (by rw [hsub]; exact Int.bmod_eq_of_le (by omega) (by omega))

omit [Device D] in
theorem locate_sub_one (w : Word) :
    (locate (w.toInt - 1) : Action D Word) = pure (w - 1) ∨
      (locate (w.toInt - 1) : Action D Word) = throw (.outOfBounds (w - 1)) ∧
        ∀ limit, Region.of? (w - 1) limit = none := by
  rcases sub_one_cases w with h | h
  · exact .inl (by rw [← h, locate_toInt])
  · unfold locate
    rw [ofInt_toInt_sub_one]
    split
    · exact .inl rfl
    · exact .inr ⟨rfl, h⟩

theorem fetchAt_sub_one (w : Word) : (fetchAt (w.toInt - 1) : Action D Word) = read (w - 1) := by
  unfold fetchAt
  rcases locate_sub_one (D := D) w with h | ⟨h, hnone⟩
  · rw [h, pure_bind]
  · funext m
    rw [h]
    simp only [read, access, Memory.read, hnone]
    rfl

theorem putAt_sub_one (w value : Word) :
    (putAt (w.toInt - 1) value : Action D Unit) = write (w - 1) value := by
  unfold putAt
  rcases locate_sub_one (D := D) w with h | ⟨h, hnone⟩
  · rw [h, pure_bind]
  · funext m
    rw [h]
    simp only [write, access, Memory.write, hnone]
    rfl

theorem fetchAt_programBase (h : FitsOffset offset) :
    (fetchAt (programBase.toInt + offset.toInt) : Action D Word) = read (programBase + offset) := by
  rw [← toInt_programBase_add h, fetchAt_toInt]

theorem putAt_programBase (h : FitsOffset offset) (value : Word) :
    (putAt (programBase.toInt + offset.toInt) value : Action D Unit) =
      write (programBase + offset) value := by
  rw [← toInt_programBase_add h, putAt_toInt]

end

/-! ## The table and the fields of a word -/

section
variable [Device D] {offset : Word}

omit [Device D] in
/-- What follows an access finds the registers as they were. -/
theorem access_bind_congr {a : Memory.Access D α} {k k' : α → Action D β} {m : Machine D}
    (h : ∀ x m', m'.registers = m.registers → k x m' = k' x m') :
    (access a >>= k) m = (access a >>= k') m := by
  obtain ⟨mem, registers, steps, sliceSteps⟩ := m
  simp only [bind, EStateM.bind, access]
  cases a mem with
  | ok x mem' => exact h x _ rfl
  | error e mem' => rfl

theorem call_eq_perform (h : FitsOffset offset) :
    (call (programBase + offset) : Action D Unit) = Opcode.call.performAddressed offset := by
  have hentry := toInt_programBase_add h
  unfold call Opcode.performAddressed
  simp only [← hentry, fetchAt_sub_one, putAt_sub_one, putAt_toInt, ofInt_toInt_sub_one,
    Int32.ofInt_toInt, Int32.le_iff_toInt_le, ofInt_add_toInt]
  funext m
  refine access_bind_congr fun size m₁ _ => ?_
  split
  · rfl
  · simp only [bind, EStateM.bind, get, getThe, MonadStateOf.get, EStateM.get]
    split
    · rfl
    · refine access_bind_congr fun _ m₂ h₂ => access_bind_congr fun _ m₃ h₃ => ?_
      show EStateM.Result.ok () _ = EStateM.Result.ok () _
      simp only [h₃, h₂]

theorem ret_eq_perform : (ret : Action D Unit) = Opcode.ret.performNullary := by
  unfold ret Opcode.performNullary
  simp only [fetchAt_sub_one, fetchAt_toInt]
  funext m
  let popped := { m with registers := { m.registers with stackTop := m.registers.frameBase } }
  refine access_bind_congr (m := popped) fun frameBase m₁ h₁ => ?_
  have htop : m₁.registers.stackTop = m.registers.frameBase := by rw [h₁]
  show (read (m.registers.frameBase - 1) >>= _) _ = (read (m₁.registers.stackTop - 1) >>= _) _
  rw [htop]

section
variable {opcode : Opcode} {fields : Fields}

theorem execute_addressed (unsupported : Fault) (hshape : opcode.shape = .addressed)
    (hoffset : FitsOffset fields.offset) :
    (execute unsupported opcode fields : Action D Unit) =
      opcode.performAddressed fields.offset := by
  cases opcode with
  | load register base indirect =>
    cases base with
    | frame => cases hshape
    | program =>
      cases indirect <;> simp only [Opcode.performAddressed, fetchAt_programBase hoffset, fetchAt_toInt,
        assign_eq] <;> rfl
  | store register base indirect =>
    cases base with
    | frame => cases hshape
    | program =>
      cases indirect <;> simp only [Opcode.performAddressed, fetchAt_programBase hoffset,
        putAt_programBase hoffset, putAt_toInt, content_bind] <;> rfl
  | branch register =>
    simp only [Opcode.performAddressed, content_bind]
    funext m
    show EStateM.Result.ok () { m with registers := if m.registers.get register = 0 then _ else _ } =
      (if m.registers.get register ≠ 0 then modifyRegisters _ else pure ()) m
    rw [ofInt_add_toInt]
    by_cases hzero : m.registers.get register = 0
    · rw [if_pos hzero, if_neg (not_not.mpr hzero)]
      rfl
    · rw [if_neg hzero, if_pos hzero]
      rfl
  | jump => simp only [execute, Opcode.performAddressed, ofInt_add_toInt]
  | call => exact call_eq_perform hoffset
  | _ => cases hshape

theorem execute_frame (unsupported : Fault) (hshape : opcode.shape = .frame) :
    (execute unsupported opcode fields : Action D Unit) = opcode.performFrame fields.offset := by
  cases opcode with
  | load register base indirect =>
    cases base with
    | program => cases hshape
    | frame =>
      cases indirect with
      | false =>
        simp only [execute, Opcode.performFrame, operandAddress, frameAddress_eq, fetchAt, bind_assoc,
          assign_eq]
        rfl
      | true =>
        simp only [execute, Opcode.performFrame, operandAddress, frameAddress_eq, fetchAt_toInt,
          assign_eq]
        simp only [fetchAt, bind_assoc]
        rfl
  | store register base indirect =>
    cases base with
    | program => cases hshape
    | frame =>
      cases indirect with
      | false =>
        simp only [execute, Opcode.performFrame, operandAddress, frameAddress_eq, putAt, bind_assoc,
          Bool.false_eq_true, if_false, pure_bind, locate_bind_get, content_bind]
      | true =>
        simp only [execute, Opcode.performFrame, operandAddress, frameAddress_eq, putAt_toInt,
          content_bind]
        simp only [fetchAt, bind_assoc]
        rfl
  | _ => cases hshape

theorem execute_nullary (unsupported : Fault) (hshape : opcode.shape = .nullary) :
    (execute unsupported opcode fields : Action D Unit) = opcode.performNullary := by
  cases opcode with
  | nop | swap => rfl
  | ret => exact ret_eq_perform
  | load r b i | store r b i => cases b <;> cases hshape
  | _ => cases hshape

/-- What the fields of a word lead to is what the table says of its instruction. -/
theorem execute_eq_perform {i : Instruction} (unsupported : Fault) (hshape : i.WellShaped)
    (hoffset : FitsOffset fields.offset) (hfields : FieldsOf fields i) :
    (execute unsupported i.opcode fields : Action D Unit) = i.perform := by
  cases i with
  | addressed opcode target =>
    cases target with
    | tag name => exact hfields.elim
    | offset offset =>
      cases hfields
      exact execute_addressed unsupported hshape hoffset
  | frame opcode offset =>
    cases hfields
    exact execute_frame unsupported hshape
  | unary opcode operator =>
    have hoperator : UnaryOp.ofCode? fields.operator = some operator := hfields
    cases opcode with
    | unary register =>
      simp only [Instruction.opcode, execute, hoperator, Instruction.perform, content_bind, assign_eq]
      rfl
    | load r b i | store r b i => cases b <;> cases hshape
    | _ => cases hshape
  | binary opcode operator =>
    have hoperator : BinaryOp.ofCode? fields.operator = some operator := hfields
    cases opcode with
    | binary register =>
      simp only [Instruction.opcode, execute, hoperator, Instruction.perform, content_bind, assign_eq]
      rfl
    | load r b i | store r b i => cases b <;> cases hshape
    | _ => cases hshape
  | nullary opcode => exact execute_nullary unsupported hshape

end

end

/-! ## Faults of the table -/

/-- The action does not end with an instruction that is not supported. -/
def Supported (a : Action D α) : Prop :=
  ∀ m address word m', a m ≠ .error (.unsupported address word) m'

namespace Supported

theorem pure (x : α) : Supported (Pure.pure x : Action D α) := fun _ _ _ _ h => nomatch h

theorem throw {e : Fault} (h : ∀ address word, e ≠ .unsupported address word) :
    Supported (throw e : Action D α) := by
  intro m address word m' he
  cases he
  exact h address word rfl

theorem bind {a : Action D α} {k : α → Action D β} (ha : Supported a) (hk : ∀ x, Supported (k x)) :
    Supported (a >>= k) := by
  intro m address word m' h
  have h : EStateM.bind a k m = _ := h
  unfold EStateM.bind at h
  cases hr : a m with
  | ok x m₁ =>
    rw [hr] at h
    exact hk x m₁ _ _ _ h
  | error e m₁ =>
    rw [hr] at h
    cases h
    exact ha m _ _ _ hr

theorem ite {c : Prop} [Decidable c] {a b : Action D α} (ha : Supported a) (hb : Supported b) :
    Supported (if c then a else b) := by
  split
  · exact ha
  · exact hb

/-- A check whose fault is another one. -/
theorem check {c : Prop} [Decidable c] {e : Fault} {k : PUnit → Action D α} {a : Action D α}
    (he : ∀ address word, e ≠ .unsupported address word) (ha : Supported a) :
    Supported (if c then MonadExcept.throw e >>= k else a) := by
  refine ite (fun m address word m' h => ?_) ha
  cases h
  exact he address word rfl

theorem get : Supported (get : Action D (Machine D)) := fun _ _ _ _ h => nomatch h

theorem modifyRegisters (f : Registers → Registers) :
    Supported (Machine.modifyRegisters f : Action D Unit) := fun _ _ _ _ h => nomatch h

theorem content (register : Register) : Supported (Machine.content register : Action D Word) := by
  cases register <;> exact get.bind fun _ => pure _

theorem assign (value : Word) (register : Register) :
    Supported (Machine.assign value register : Action D Unit) := by
  rw [assign_eq]
  exact modifyRegisters _

theorem locate (a : Int) : Supported (Machine.locate a : Action D Word) :=
  ite (pure _) (throw (by simp))

variable [Device D]

theorem read (address : Word) : Supported (Machine.read address : Action D Word) := by
  intro m _ _ m' h
  simp only [Machine.read, access, Memory.read] at h
  split at h
  · cases h
  · next h' =>
    split at h' <;> cases h'
    cases h

theorem write (address value : Word) : Supported (Machine.write address value : Action D Unit) := by
  intro m _ _ m' h
  simp only [Machine.write, access, Memory.write] at h
  split at h
  · cases h
  · next h' =>
    split at h' <;> cases h'
    cases h

theorem fetchAt (a : Int) : Supported (Machine.fetchAt a : Action D Word) := (locate a).bind read

theorem putAt (a : Int) (value : Word) : Supported (Machine.putAt a value : Action D Unit) :=
  (locate a).bind fun address => write address value

theorem performAddressed (offset : Word) (opcode : Opcode) :
    Supported (opcode.performAddressed offset : Action D Unit) := by
  unfold Opcode.performAddressed
  split
  · exact (fetchAt _).bind fun _ => assign _ _
  · exact (fetchAt _).bind fun _ => (fetchAt _).bind fun _ => assign _ _
  · exact (content _).bind fun _ => putAt _ _
  · exact (fetchAt _).bind fun _ => (content _).bind fun _ => putAt _ _
  · exact (content _).bind fun _ => ite (modifyRegisters _) (pure _)
  · exact modifyRegisters _
  · exact (fetchAt _).bind fun _ => check (by simp) <| get.bind fun _ => get.bind fun _ =>
      check (by simp) <| (putAt _ _).bind fun _ => (putAt _ _).bind fun _ =>
        (modifyRegisters _).bind fun _ => (modifyRegisters _).bind fun _ => modifyRegisters _
  · exact pure _

theorem performFrame (offset : Word) (opcode : Opcode) :
    Supported (opcode.performFrame offset : Action D Unit) := by
  unfold Opcode.performFrame
  split
  · exact get.bind fun _ => (fetchAt _).bind fun _ => assign _ _
  · exact get.bind fun _ => (fetchAt _).bind fun _ => (fetchAt _).bind fun _ => assign _ _
  · exact get.bind fun _ => (content _).bind fun _ => putAt _ _
  · exact get.bind fun _ => (fetchAt _).bind fun _ => (content _).bind fun _ => putAt _ _
  · exact pure _

theorem performNullary (opcode : Opcode) : Supported (opcode.performNullary : Action D Unit) := by
  unfold Opcode.performNullary
  split
  · exact pure _
  · exact modifyRegisters _
  · exact (modifyRegisters _).bind fun _ => get.bind fun _ => (fetchAt _).bind fun _ =>
      (modifyRegisters _).bind fun _ => get.bind fun _ => (fetchAt _).bind fun _ => modifyRegisters _
  · exact pure _

theorem perform (i : Instruction) : Supported (i.perform : Action D Unit) := by
  unfold Instruction.perform
  split
  · exact performAddressed _ _
  · exact performFrame _ _
  · exact (content _).bind fun _ => assign _ _
  · exact (content _).bind fun _ => (content _).bind fun _ => assign _ _
  · exact performNullary _
  · exact pure _

end Supported

/-! ## Steps -/

section
variable [Device D] {m : Machine D} {w : Word}

/-- An instruction of a running machine is fetched from a cell. -/
theorem read_of_running {memory : Memory D} (hrunning : m.status = .running)
    (hfetch : Memory.read m.registers.pc m.memory = .ok w memory) : memory = m.memory := by
  have hpc : ¬ m.registers.pc < programBase := by
    intro hlt
    unfold status at hrunning
    rw [if_pos hlt] at hrunning
    cases hrunning
  unfold Memory.read at hfetch
  split at hfetch
  · next hdevice =>
    unfold Region.of? at hdevice
    rw [if_neg hpc] at hdevice
    split at hdevice
    · cases hdevice
    · split at hdevice
      · cases hdevice
      · split at hdevice <;> cases hdevice
  · cases hfetch
    rfl
  · cases hfetch

theorem step_of_fetch {memory : Memory D} (hrunning : m.status = .running)
    (hfetch : Memory.read m.registers.pc m.memory = .ok w memory) :
    step m = match Opcode.ofCode? (Fields.ofWord w).opcode with
      | none => .error (.unsupported m.registers.pc w) m
      | some opcode =>
        (do
          execute (.unsupported m.registers.pc w) opcode (Fields.ofWord w)
          return (← get).status : Action D Status) m.advanced := by
  have hread : read m.registers.pc m = .ok w m := by
    simp only [read, access, hfetch, read_of_running hrunning hfetch]
  unfold step
  simp only [bind, EStateM.bind, get, getThe, MonadStateOf.get, EStateM.get, hrunning, hread]
  cases Opcode.ofCode? (Fields.ofWord w).opcode <;> rfl

/-- A word with an opcode that decodes to nothing has no operator. -/
theorem execute_of_decode?_none {opcode : Opcode} (h : Instruction.decode? w = none)
    (hop : Opcode.ofCode? (Fields.ofWord w).opcode = some opcode) (unsupported : Fault) :
    (execute unsupported opcode (Fields.ofWord w) : Action D Unit) = throw unsupported := by
  unfold Instruction.decode? at h
  simp only [hop] at h
  cases opcode with
  | unary register =>
    have hnone := Option.map_eq_none_iff.mp h
    simp only [execute, hnone]
  | binary register =>
    have hnone := Option.map_eq_none_iff.mp h
    simp only [execute, hnone]
  | load r b i | store r b i => cases b <;> cases h
  | _ => cases h

end

end Machine

/-- A running machine that finds the word `w` in front of it does what the table says of the
instruction that `w` decodes to, and a word that decodes to nothing is reported as such. -/
theorem step_eq_perform [Device D] {m : Machine D} {w : Word} {memory : Memory D}
    (hrunning : m.status = .running)
    (hfetch : Memory.read m.registers.pc m.memory = .ok w memory) :
    (Instruction.decode? w = none → ∃ m', step m = .error (.unsupported m.registers.pc w) m' ∧
      (m' = m ∨ m' = m.advanced)) ∧
    ∀ i, Instruction.decode? w = some i →
      step m = (do i.perform; return (← get).status : Action D Status) m.advanced ∧
      (∀ address word m', step m ≠ .error (.unsupported address word) m') ∧
      ∀ w', Word.bits w' / 2 ^ i.reservedBits = Word.bits w / 2 ^ i.reservedBits →
        Instruction.decode? w' = some i := by
  have hstep := step_of_fetch hrunning hfetch
  refine ⟨fun hnone => ?_, fun i hi => ?_⟩
  · cases hop : Opcode.ofCode? (Fields.ofWord w).opcode with
    | none =>
      rw [hop] at hstep
      exact ⟨m, hstep, .inl rfl⟩
    | some opcode =>
      rw [hop] at hstep
      refine ⟨m.advanced, ?_, .inr rfl⟩
      rw [hstep]
      simp only [execute_of_decode?_none hnone hop]
      rfl
  · obtain ⟨hop, hfields⟩ := fieldsOf_decode hi
    rw [hop] at hstep
    simp only [execute_eq_perform _ (Instruction.wellShaped_of_decode? hi) (fitsOffset_ofWord w)
      hfields] at hstep
    refine ⟨hstep, fun address word m' => ?_, fun w' => Instruction.decode?_congr hi⟩
    rw [hstep]
    exact ((Supported.perform i).bind fun _ => Supported.get.bind fun _ => Supported.pure _) _ _ _ _

/-- A return with reserved bits that are not clear. -/
theorem step_eq_perform_ret :
    ∃ m : Machine Terminal,
      (Machine.new { width := 0, height := 0 } { stackWords := 3 }).load [0x44ABCDEF] = .ok () m ∧
      m.status = .running ∧ Memory.read m.registers.pc m.memory = .ok 0x44ABCDEF m.memory ∧
      step m = (do (Instruction.nullary .ret).perform; return (← get).status : Action _ _) m.advanced ∧
      Instruction.decode? 0x44000000 = some (.nullary .ret) := by
  obtain ⟨m, hload, hregisters, -, hcell⟩ := Machine.load_eq [0x44ABCDEF] (by decide)
    (Machine.new ({ width := 0, height := 0 } : Terminal) { stackWords := 3 })
  have hpc : m.registers.pc = cellAddress 0 := by
    rw [hregisters]
    decide
  have hfetch : Memory.read m.registers.pc m.memory = .ok 0x44ABCDEF m.memory := by
    rw [hpc, Memory.read_cell (.inl (by decide)), hcell]
    rfl
  have hrunning : m.status = .running := status_of_pc hpc (by decide)
  have hdecode : Instruction.decode? 0x44ABCDEF = some (.nullary .ret) := by decide
  obtain ⟨-, hsome⟩ := step_eq_perform hrunning hfetch
  obtain ⟨hstep, -, hreserved⟩ := hsome _ hdecode
  exact ⟨m, hload, hrunning, hfetch, hstep, hreserved 0x44000000 (by decide)⟩

end WordLisp
