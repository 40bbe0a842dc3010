import WordLisp.Listing.Error

/-!
# Encoding of instructions

An instruction is one word. Its top byte is the opcode. The remaining 24 bits are a signed
offset, or an operator in the upper 8 of them with 16 reserved bits below, or all reserved.
Encoding clears the reserved bits and decoding ignores them.
-/

namespace WordLisp

/-- How many bits of an instruction hold an offset. -/
def offsetBits : Nat := 24

/-- The bits of an instruction that hold an offset. -/
def offsetMask : Nat := 1 <<< offsetBits - 1

/-- The offsets that an instruction can hold. -/
def FitsOffset (offset : Word) : Prop :=
  -0x800000 ≤ offset.toInt ∧ offset.toInt < 0x800000

instance : DecidablePred FitsOffset := fun offset =>
  inferInstanceAs (Decidable (_ ≤ offset.toInt ∧ offset.toInt < _))

/-- The parts of a word that an instruction is read from. -/
structure Fields where
  opcode : Nat
  /-- The low 24 bits as a signed number. -/
  offset : Word
  operator : Nat
  deriving DecidableEq, Repr

def Fields.ofWord (w : Word) : Fields where
  opcode := Word.bits w / 0x1000000
  offset := Int32.ofInt (Int.bmod (Word.bits w) 0x1000000)
  operator := Word.bits w / 0x10000 % 0x100

namespace Instruction

/-- A word with an opcode in its top byte and `low` in the rest. -/
def pack (opcode : Opcode) (low : Nat) : Word := Word.ofBits (opcode.code * 0x1000000 + low)

/-- Packs an offset that fits, and refuses any other on behalf of `i`. -/
def packOffset (i : Instruction) (offset : Word) : Except AssemblyError Word :=
  if FitsOffset offset then .ok (pack i.opcode (Word.bits offset % 0x1000000))
  else .error (.offsetOutOfRange i offset)

def encode (i : Instruction) : Except AssemblyError Word :=
  if i.WellShaped then
    match i with
    | addressed _ (.tag name) => .error (.undefinedTag name)
    | addressed _ (.offset offset) => packOffset i offset
    | frame _ offset => packOffset i offset
    | unary opcode operator => .ok (pack opcode (operator.code * 0x10000))
    | binary opcode operator => .ok (pack opcode (operator.code * 0x10000))
    | nullary opcode => .ok (pack opcode 0)
  else .error (.unsupported i)

/-- The instruction that a word encodes, unless its opcode or its operator does not exist. -/
def decode? (w : Word) : Option Instruction :=
  let fields := Fields.ofWord w
  match Opcode.ofCode? fields.opcode with
  | none => none
  | some opcode =>
    match opcode.shape with
    | .addressed => some (addressed opcode (.offset fields.offset))
    | .frame => some (frame opcode fields.offset)
    | .unary => (UnaryOp.ofCode? fields.operator).map (unary opcode)
    | .binary => (BinaryOp.ofCode? fields.operator).map (binary opcode)
    | .nullary => some (nullary opcode)

end Instruction

end WordLisp
