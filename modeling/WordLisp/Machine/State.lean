import WordLisp.Instruction.Opcode
import WordLisp.Machine.Memory

/-!
# Machine states

The registers, the memory and the settings of a machine. A machine has halted when its program
counter points below the program.
-/

namespace WordLisp

structure Registers where
  /-- The address of the next instruction. -/
  pc : Word := programBase
  left : Word := 0
  right : Word := 0
  /-- The base of the current frame. -/
  frameBase : Word := stackBase
  /-- One past the last cell of the stack in use. -/
  stackTop : Word := stackBase + entryFrameSize
  deriving DecidableEq, Repr

def Registers.get (r : Registers) : Register → Word
  | .left => r.left
  | .right => r.right

def Registers.set (r : Registers) (value : Word) : Register → Registers
  | .left => { r with left := value }
  | .right => { r with right := value }

inductive Status where
  | running | halted
  deriving DecidableEq, Repr

structure Config where
  /-- How many cells the stack has. -/
  stackWords : Nat := 0x10000
  /-- How many instructions are carried out before the host has a turn. -/
  sliceSteps : Nat := 4096
  screenWidth : Nat := 320
  screenHeight : Nat := 200
  deriving DecidableEq, Repr

structure Machine (D : Type) where
  memory : Memory D
  registers : Registers := {}
  /-- How many instructions have been carried out since the program was loaded. -/
  steps : Nat := 0
  sliceSteps : Nat

namespace Machine

/-- A machine without a program. A slice has at least one step. -/
def new (device : D) (config : Config) : Machine D where
  memory := Memory.new device config.stackWords
  sliceSteps := max config.sliceSteps 1

def status (m : Machine D) : Status :=
  if m.registers.pc < programBase then .halted else .running

/-- The value of the entry function, once the program has halted. -/
def result? (m : Machine D) : Option Word :=
  match m.status with
  | .halted => m.memory.peek? resultAddress
  | .running => none

/-- Changes the device and nothing else. -/
def mapDevice (f : D → D) (m : Machine D) : Machine D :=
  { m with memory := { m.memory with device := f m.memory.device } }

end Machine

end WordLisp
