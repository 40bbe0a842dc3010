import WordLisp.Instruction.Basic

/-!
# Errors of listings

Why a listing cannot be read or assembled, and the sentence that tells the user.
-/

namespace WordLisp

/-- What is wrong with one line of a listing. -/
inductive LineError where
  /-- The line is none of a tag, a data word and an operation. -/
  | unreadable (text : String)
  | notWord (text : String)
  | notOperation (mnemonic : String)
  | notTag (text : String)
  | notFrameOffset (opcode : Opcode) (text : String)
  | notUnaryOp (text : String)
  | notBinaryOp (text : String)
  | unwantedArgument (opcode : Opcode) (text : String)
  | missingArgument (opcode : Opcode)
  deriving DecidableEq, Repr

def LineError.message : LineError → String
  | unreadable text => s!"cannot read `{text}`"
  | notWord text => s!"`{text}` is not a word"
  | notOperation mnemonic => s!"{mnemonic} is not an operation"
  | notTag text => s!"`{text}` is not a tag"
  | notFrameOffset opcode text =>
    s!"{opcode.mnemonic} requires a numeric frame offset, found `{text}`"
  | notUnaryOp text => s!"`{text}` is not a unary operator"
  | notBinaryOp text => s!"`{text}` is not a binary operator"
  | unwantedArgument opcode text =>
    s!"{opcode.mnemonic} takes no argument but was given `{text}`"
  | missingArgument opcode => s!"{opcode.mnemonic} requires an argument"

/-- Why no program comes out of a listing or of a binary. -/
inductive AssemblyError where
  | undefinedTag (name : String)
  | duplicateTag (name : String)
  /-- The argument is not of the kind that the opcode takes. -/
  | unsupported (instruction : Instruction)
  | offsetOutOfRange (instruction : Instruction) (offset : Word)
  | badLine (line : Nat) (error : LineError)
  /-- A binary is a row of words of four bytes. -/
  | truncated (bytes : Nat)
  deriving DecidableEq, Repr

def AssemblyError.message : AssemblyError → String
  | undefinedTag name => s!"undefined tag `{name}`"
  | duplicateTag name => s!"tag `{name}` is defined more than once"
  | unsupported instruction => s!"unsupported instruction `{instruction.text}`"
  | offsetOutOfRange instruction offset =>
    s!"offset {Word.text offset} of `{instruction.text}` does not fit in 24 bits"
  | badLine line error => s!"line {Numeral.natural line}: {error.message}"
  | truncated bytes =>
    s!"binary of {Numeral.natural bytes} bytes is not a whole number of words"

end WordLisp
