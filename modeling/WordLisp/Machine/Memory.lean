import WordLisp.Machine.Device
import WordLisp.Machine.Fault
import WordLisp.Machine.Layout

/-!
# Memory

The cells of the program and of the stack, and the device below them. An access yields its
result together with the memory that it leaves, also when it faults: a fault leaves the memory
as it was.
-/

namespace WordLisp

structure Memory (D : Type) where
  /-- The cells from `programBase` up. -/
  ram : Array Word
  device : D
  /-- The region of the program is always complete. -/
  capacity_le : programCapacity ≤ ram.size

namespace Memory

/-- An access to memory. -/
abbrev Access (D : Type) := EStateM Fault (Memory D)

/-- A memory with a stack of `stackWords` cells, all zero. -/
def new (device : D) (stackWords : Nat) : Memory D where
  ram := Array.replicate (programCapacity + stackWords) 0
  device := device
  capacity_le := by simp

/-- One past the last address. -/
def limit (m : Memory D) : Word := programBase + Int32.ofNat m.ram.size

/-- The place among the cells of an address from `programBase` up. -/
def index (address : Word) : Nat := (address - programBase).toNatClampNeg

/-- The content of a cell, for the eye only. Addresses of the device have none. -/
def peek? (m : Memory D) (address : Word) : Option Word :=
  if programBase ≤ address ∧ address < m.limit then m.ram[index address]? else none

/-- Clears all cells and puts a program at the start. -/
def load (words : List Word) : Access D Unit := fun m =>
  if words.length ≤ programCapacity then
    .ok () { m with
      ram := words.toArray ++ Array.replicate (m.ram.size - words.length) 0
      capacity_le := by have := m.capacity_le; simp; omega }
  else .error (.programTooLarge words.length) m

variable [Device D]

def read (address : Word) : Access D Word := fun m =>
  match Region.of? address m.limit with
  | some .device =>
    let (word, device) := Device.read address m.device
    .ok word { m with device }
  | some _ => .ok (m.ram.getD (index address) 0) m
  | none => .error (.outOfBounds address) m

def write (address value : Word) : Access D Unit := fun m =>
  match Region.of? address m.limit with
  | some .device => .ok () { m with device := Device.write address value m.device }
  | some _ =>
    .ok () { m with
      ram := m.ram.setIfInBounds (index address) value
      capacity_le := by have := m.capacity_le; simpa }
  | none => .error (.outOfBounds address) m

end Memory

end WordLisp
