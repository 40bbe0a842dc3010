import WordLisp.Instruction.Opcode
import WordLisp.Numeral
import WordLisp.Operator

/-!
# Instructions

An instruction is an opcode with an argument. Nothing in the type makes the argument one that
the opcode takes: `Instruction.WellShaped` says that it is, and only such instructions can be
encoded.
-/

namespace WordLisp

/-- The operand of an addressed instruction: a number, or the name of a place that the
assembler knows the number of. -/
inductive Target where
  | offset (value : Word)
  | tag (name : String)
  deriving DecidableEq, Repr

def Target.text : Target → String
  | .offset value => Word.text value
  | .tag name => name

inductive Instruction where
  | addressed (opcode : Opcode) (target : Target)
  | frame (opcode : Opcode) (offset : Word)
  | unary (opcode : Opcode) (operator : UnaryOp)
  | binary (opcode : Opcode) (operator : BinaryOp)
  | nullary (opcode : Opcode)
  deriving DecidableEq, Repr

namespace Instruction

def opcode : Instruction → Opcode
  | addressed opcode _ | frame opcode _ | unary opcode _ | binary opcode _ | nullary opcode =>
    opcode

/-- The kind of argument that the instruction has. -/
def shape : Instruction → Shape
  | addressed .. => .addressed
  | frame .. => .frame
  | unary .. => .unary
  | binary .. => .binary
  | nullary .. => .nullary

/-- The argument is of the kind that the opcode takes. -/
def WellShaped (i : Instruction) : Prop := i.opcode.shape = i.shape

instance : DecidablePred WellShaped := fun i => inferInstanceAs (Decidable (_ = i.shape))

/-- The mnemonic, followed by the argument if there is one. -/
def text : Instruction → String
  | addressed opcode target => opcode.mnemonic ++ " " ++ target.text
  | frame opcode offset => opcode.mnemonic ++ " " ++ Word.text offset
  | unary opcode operator => opcode.mnemonic ++ " " ++ operator.symbol
  | binary opcode operator => opcode.mnemonic ++ " " ++ operator.symbol
  | nullary opcode => opcode.mnemonic

end Instruction

end WordLisp
