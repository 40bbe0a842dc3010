import WordLisp.Word

/-!
# The address space

Addresses are words. Below `programBase` lies the device, from there up to `stackBase` the
program, and from there up to the limit of the memory the stack, which grows upward.
-/

namespace WordLisp

/-- Where programs are loaded. -/
def programBase : Word := 0x800000

/-- Where the stack begins. -/
def stackBase : Word := 0x810000

/-- The most words that a program can have. -/
def programCapacity : Nat := 0x10000

/-- The words at the bottom of the stack that belong to no function. The second of them receives
the value of the entry function and the third holds the address that it returns to. -/
def entryFrameSize : Word := 3

/-- Where the value of the entry function is found when the program has halted. -/
def resultAddress : Word := stackBase + 1

/-- The parts of the address space. -/
inductive Region where
  | device | program | stack
  deriving DecidableEq, Repr

/-- The region of an address, in a memory that ends in front of `limit`. -/
def Region.of? (address limit : Word) : Option Region :=
  if address < 0 then none
  else if address < programBase then some .device
  else if address < stackBase then some .program
  else if address < limit then some .stack
  else none

def Region.name : Region → String
  | device => "DEVICE"
  | program => "PROGRAM"
  | stack => "STACK"

end WordLisp
