import WordLisp.Instruction.Encoding
import WordLisp.Machine.State

/-!
# Execution

One instruction at a time, then in slices of several, then until the program halts. An action
yields its result together with the machine that it leaves, also when it faults, because a
machine that has faulted can still be looked at and even be driven on.

A fault in fetching an instruction, or an opcode that does not exist, leaves the machine as it
was. Any later fault finds the program counter and the count of steps already advanced.
-/

namespace WordLisp.Machine

/-- What a machine does in a moment. -/
abbrev Action (D : Type) := EStateM Fault (Machine D)

/-! ## Parts of instructions -/

/-- An access to the memory of the machine. -/
@[inline] def access (a : Memory.Access D α) : Action D α := fun m =>
  let ⟨memory, registers, steps, sliceSteps⟩ := m
  match a memory with
  | .ok value memory => .ok value ⟨memory, registers, steps, sliceSteps⟩
  | .error fault memory => .error fault ⟨memory, registers, steps, sliceSteps⟩

@[inline] def modifyRegisters (f : Registers → Registers) : Action D Unit :=
  modify fun m => { m with registers := f m.registers }

/-- Puts a program into memory and starts over. -/
def load (words : List Word) : Action D Unit := do
  access (Memory.load words)
  modify fun m => { m with registers := {}, steps := 0 }

/-- Counts an instruction and moves on to the next. -/
def advance : Action D Unit :=
  modify fun m =>
    { m with registers := { m.registers with pc := m.registers.pc + 1 }, steps := m.steps + 1 }

/-- The address of a place in the current frame, which must be an address that exists as a
number of 32 bits. -/
def frameAddress (offset : Word) : Action D Word := do
  let base := (← get).registers.frameBase
  if (base + offset).toInt = base.toInt + offset.toInt then return base + offset
  else throw (.outOfBounds (base + offset))

variable [Device D]

def read (address : Word) : Action D Word := access (Memory.read address)

def write (address value : Word) : Action D Unit := access (Memory.write address value)

/-- The address that a load or a store works on. -/
def operandAddress (base : Base) (indirect : Bool) (offset : Word) : Action D Word := do
  let address ← match base with
    | .program => pure (programBase + offset)
    | .frame => frameAddress offset
  if indirect then read address else return address

/-- Enters the function at `entry`. The word in front of the function is the number of cells in
its frame, which begins at the top of the stack. The return address goes below the frame and the
base of the frame of the caller into its first cell. -/
def call (entry : Word) : Action D Unit := do
  let size ← read (entry - 1)
  if size < 0 then throw (.invalidFrameSize (entry - 1) size)
  let ⟨pc, _, _, frameBase, stackTop⟩ := (← get).registers
  let limit := (← get).memory.limit
  let top := stackTop.toInt + size.toInt
  if limit ≤ stackTop ∨ limit.toInt < top then throw (.stackOverflow top)
  write (stackTop - 1) pc
  write stackTop frameBase
  modifyRegisters fun r =>
    { r with pc := entry, frameBase := stackTop, stackTop := Int32.ofInt top }

/-- Leaves a function: gives up its frame, and goes back to the frame and the place that its
caller left in it. -/
def ret : Action D Unit := do
  let base := (← get).registers.frameBase
  modifyRegisters fun r => { r with stackTop := base }
  let frameBase ← read base
  modifyRegisters fun r => { r with frameBase }
  let pc ← read (base - 1)
  modifyRegisters fun r => { r with pc }

/-! ## Instructions -/

/-- Carries out an instruction with a known opcode. `unsupported` is the fault of an operator
that does not exist. -/
def execute (unsupported : Fault) (opcode : Opcode) (fields : Fields) : Action D Unit :=
  match opcode with
  | .nop => pure ()
  | .load register base indirect => do
    let value ← read (← operandAddress base indirect fields.offset)
    modifyRegisters fun r => r.set value register
  | .store register base indirect => do
    let address ← operandAddress base indirect fields.offset
    write address ((← get).registers.get register)
  | .unary register =>
    match UnaryOp.ofCode? fields.operator with
    | some operator => modifyRegisters fun r => r.set (operator.apply (r.get register)) register
    | none => throw unsupported
  | .binary register =>
    match BinaryOp.ofCode? fields.operator with
    | some operator => modifyRegisters fun r => r.set (operator.apply r.left r.right) register
    | none => throw unsupported
  | .swap => modifyRegisters fun r => { r with left := r.right, right := r.left }
  | .branch register =>
    modifyRegisters fun r =>
      if r.get register = 0 then r else { r with pc := programBase + fields.offset }
  | .jump => modifyRegisters fun r => { r with pc := programBase + fields.offset }
  | .call => call (programBase + fields.offset)
  | .ret => ret

/-- Carries out one instruction. A machine that has halted stays as it is. -/
def step : Action D Status := do
  match (← get).status with
  | .halted => return .halted
  | .running =>
    let address := (← get).registers.pc
    let word ← read address
    let fields := Fields.ofWord word
    match Opcode.ofCode? fields.opcode with
    | none => throw (.unsupported address word)
    | some opcode =>
      advance
      execute (.unsupported address word) opcode fields
      return (← get).status

/-! ## Runs -/

/-- Carries out `budget` instructions, fewer if the program halts. -/
def slice : (budget : Nat) → Action D Status
  | 0 => return (← get).status
  | budget + 1 => do
    match ← step with
    | .halted => return .halted
    | .running => slice budget

/-- Runs slices until the program halts, but no more than `slices` of them. The status tells
whether that was enough. -/
def run : (slices : Nat) → Action D Status
  | 0 => return (← get).status
  | slices + 1 => do
    match ← slice (← get).sliceSteps with
    | .halted => return .halted
    | .running => run slices

end WordLisp.Machine
