import WordLisp.Word

/-!
# Operators

The unary and binary operators on words, with the symbol that names each in text and the
code that names it in an instruction. Arithmetic is that of the integers wrapped to 32 bits.
A shift takes its distance modulo 32, division and remainder truncate toward zero and yield
`0` when the divisor is `0`, and a comparison yields `1` or `0`.
-/

namespace WordLisp

inductive UnaryOp where
  /-- Every bit inverted. -/
  | complement
  /-- `1` for zero and `0` for any other word. -/
  | not
  deriving DecidableEq, Repr

namespace UnaryOp

def all : List UnaryOp := [complement, not]

def symbol : UnaryOp → String
  | complement => "~"
  | not => "!"

def code : UnaryOp → Nat
  | complement => 0x00
  | not => 0x01

def ofSymbol? (s : String) : Option UnaryOp := all.find? (·.symbol = s)

def ofCode? (n : Nat) : Option UnaryOp := all.find? (·.code = n)

def apply : UnaryOp → Word → Word
  | complement, w => ~~~w
  | not, w => Word.ofBool (w = 0)

end UnaryOp

inductive BinaryOp where
  | shiftRight | shiftLeft | bitAnd | bitOr | bitXor
  | eq | ne | le | ge | lt | gt | and | or
  | add | sub | mul | div | rem | pow
  deriving DecidableEq, Repr

namespace BinaryOp

def all : List BinaryOp :=
  [shiftRight, shiftLeft, bitAnd, bitOr, bitXor, eq, ne, le, ge, lt, gt, and, or, add, sub, mul,
    div, rem, pow]

def symbol : BinaryOp → String
  | shiftRight => ">>"
  | shiftLeft => "<<"
  | bitAnd => "&"
  | bitOr => "|"
  | bitXor => "^"
  | eq => "=="
  | ne => "!="
  | le => "<="
  | ge => ">="
  | lt => "<"
  | gt => ">"
  | and => "&&"
  | or => "||"
  | add => "+"
  | sub => "-"
  | mul => "*"
  | div => "/"
  | rem => "%"
  | pow => "**"

/-- The high digit tells bit patterns, relations and arithmetic apart. -/
def code : BinaryOp → Nat
  | shiftRight => 0x10
  | shiftLeft => 0x11
  | bitAnd => 0x12
  | bitOr => 0x13
  | bitXor => 0x14
  | eq => 0x20
  | ne => 0x21
  | le => 0x22
  | ge => 0x23
  | lt => 0x24
  | gt => 0x25
  | and => 0x26
  | or => 0x27
  | add => 0x30
  | sub => 0x31
  | mul => 0x32
  | div => 0x33
  | rem => 0x34
  | pow => 0x35

def ofSymbol? (s : String) : Option BinaryOp := all.find? (·.symbol = s)

def ofCode? (n : Nat) : Option BinaryOp := all.find? (·.code = n)

def apply : BinaryOp → Word → Word → Word
  | shiftRight, x, y => x >>> y
  | shiftLeft, x, y => x <<< y
  | bitAnd, x, y => x &&& y
  | bitOr, x, y => x ||| y
  | bitXor, x, y => x ^^^ y
  | eq, x, y => Word.ofBool (x = y)
  | ne, x, y => Word.ofBool (x ≠ y)
  | le, x, y => Word.ofBool (x ≤ y)
  | ge, x, y => Word.ofBool (y ≤ x)
  | lt, x, y => Word.ofBool (x < y)
  | gt, x, y => Word.ofBool (y < x)
  | and, x, y => Word.ofBool (x ≠ 0 ∧ y ≠ 0)
  | or, x, y => Word.ofBool (x ≠ 0 ∨ y ≠ 0)
  | add, x, y => x + y
  | sub, x, y => x - y
  | mul, x, y => x * y
  | div, x, y => if y = 0 then 0 else x / y
  | rem, x, y => if y = 0 then 0 else x % y
  | pow, x, y => Word.power x y

end BinaryOp

end WordLisp
