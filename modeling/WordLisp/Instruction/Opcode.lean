/-!
# Opcodes

What an instruction does, apart from its argument. A load or a store names one of the two
working registers, the base that its offset counts from, and whether the cell found there
holds the value or the address of the value. The three choices are also three bits of the
code and three letters of the mnemonic.
-/

namespace WordLisp

/-- The two working registers, written `L` and `R`. -/
inductive Register where
  | left | right
  deriving DecidableEq, Repr

/-- What the offset of a load or a store is added to: the base of the program, or the base of
the current frame. -/
inductive Base where
  | program | frame
  deriving DecidableEq, Repr

/-- The argument that an opcode takes. -/
inductive Shape where
  /-- An offset from the base of the program, written as a number or as a tag. -/
  | addressed
  /-- An offset from the base of the current frame. -/
  | frame
  /-- A unary operator. -/
  | unary
  /-- A binary operator. -/
  | binary
  /-- No argument. -/
  | nullary
  deriving DecidableEq, Repr

inductive Opcode where
  | nop
  | load (register : Register) (base : Base) (indirect : Bool)
  | store (register : Register) (base : Base) (indirect : Bool)
  | unary (register : Register)
  | binary (register : Register)
  | swap
  | branch (register : Register)
  | jump
  | call
  | ret
  deriving DecidableEq, Repr

namespace Register

def letter : Register → String
  | left => "L"
  | right => "R"

def bit : Register → Nat
  | left => 0
  | right => 1

end Register

namespace Base

def letter : Base → String
  | program => "S"
  | frame => "D"

def bit : Base → Nat
  | program => 0
  | frame => 4

end Base

namespace Opcode

/-- The sixteen loads and stores, in the order of their codes, between the opcode that does
nothing and those that work on registers and on control. -/
def all : List Opcode :=
  let accesses (make : Register → Base → Bool → Opcode) : List Opcode :=
    [Base.program, Base.frame].flatMap fun base =>
      [false, true].flatMap fun indirect =>
        [make .left base indirect, make .right base indirect]
  [nop] ++ accesses load ++ accesses store ++
    [unary .left, unary .right, binary .left, binary .right, swap,
      branch .left, branch .right, jump, call, ret]

/-! ## Mnemonics -/

def accessLetters (register : Register) (base : Base) (indirect : Bool) : String :=
  register.letter ++ base.letter ++ (if indirect then "I" else "")

def mnemonic : Opcode → String
  | nop => "NOP"
  | load register base indirect => "L" ++ accessLetters register base indirect
  | store register base indirect => "S" ++ accessLetters register base indirect
  | unary register => "UOP" ++ register.letter
  | binary register => "BOP" ++ register.letter
  | swap => "SWP"
  | branch register => "BR" ++ register.letter
  | jump => "JMP"
  | call => "CALL"
  | ret => "RET"

def ofMnemonic? (s : String) : Option Opcode := all.find? (·.mnemonic = s)

/-! ## Codes -/

/-- The low digit that a load shares with the store to the same place. -/
def accessBits (register : Register) (base : Base) (indirect : Bool) : Nat :=
  register.bit + (if indirect then 2 else 0) + base.bit

/-- The byte that stands for an opcode. The high digit is `1` for loads, `2` for stores, `3`
for operations on registers and `4` for control. -/
def code : Opcode → Nat
  | nop => 0x00
  | load register base indirect => 0x10 + accessBits register base indirect
  | store register base indirect => 0x20 + accessBits register base indirect
  | unary register => 0x30 + register.bit
  | binary register => 0x32 + register.bit
  | swap => 0x34
  | branch register => 0x40 + register.bit
  | jump => 0x42
  | call => 0x43
  | ret => 0x44

/-- Takes the low digit of a load or a store apart. -/
def ofAccessBits? (make : Register → Base → Bool → Opcode) (low : Nat) : Option Opcode :=
  if low < 8 then
    some (make (if low % 2 = 0 then .left else .right) (if low / 4 = 0 then .program else .frame)
      (low / 2 % 2 = 1))
  else none

def ofCode? (n : Nat) : Option Opcode :=
  match n / 16, n % 16 with
  | 0, 0 => some nop
  | 1, low => ofAccessBits? load low
  | 2, low => ofAccessBits? store low
  | 3, 0 => some (unary .left)
  | 3, 1 => some (unary .right)
  | 3, 2 => some (binary .left)
  | 3, 3 => some (binary .right)
  | 3, 4 => some swap
  | 4, 0 => some (branch .left)
  | 4, 1 => some (branch .right)
  | 4, 2 => some jump
  | 4, 3 => some call
  | 4, 4 => some ret
  | _, _ => none

/-! ## Properties -/

def shape : Opcode → Shape
  | load _ .program _ | store _ .program _ | branch _ | jump | call => .addressed
  | load _ .frame _ | store _ .frame _ => .frame
  | unary _ => .unary
  | binary _ => .binary
  | nop | swap | ret => .nullary

def isStore : Opcode → Bool
  | store .. => true
  | _ => false

/-- For a store, the load of the same register from the same place. -/
def loadFor? : Opcode → Option Opcode
  | store register base indirect => some (load register base indirect)
  | _ => none

end Opcode

end WordLisp
