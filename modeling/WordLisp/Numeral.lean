import WordLisp.Word

/-!
# Numerals

How words are written and read. A word is written in decimal with a leading `-` when it is
negative; addresses are written in hexadecimal. `Word.parse?` reads an optional `-` followed
by decimal digits, or by `0x` and hexadecimal digits. Every value from `-2 ^ 31` up to
`2 ^ 32 - 1` is accepted, so that a number may be given either as a signed word or as a
pattern of 32 bits.
-/

namespace WordLisp

namespace Numeral

/-! ## Writing -/

/-- The decimal digits of `n`. -/
def natural (n : Nat) : String := String.ofList (Nat.toDigits 10 n)

/-- Decimal digits with a leading `-` for a negative number. -/
def integer : Int → String
  | .ofNat n => natural n
  | .negSucc n => "-" ++ natural (n + 1)

/-- The hexadecimal digits of `n`, in lower case. -/
def hex (n : Nat) : String := String.ofList (Nat.toDigits 16 n)

/-- Hexadecimal digits, filled up with zeros to `width`. -/
def hexPadded (width n : Nat) : String :=
  let digits := Nat.toDigits 16 n
  String.ofList (List.replicate (width - digits.length) '0' ++ digits)

/-! ## Reading -/

/-- The value of a hexadecimal digit of either case; of a decimal digit in particular. -/
def digitValue (c : Char) : Nat :=
  if c.isDigit then c.toNat - '0'.toNat
  else if 'a' ≤ c ∧ c ≤ 'f' then c.toNat - 'a'.toNat + 10
  else c.toNat - 'A'.toNat + 10

/-- `0` to `9`, and `a` to `f` in either case. -/
def isHexDigit (c : Char) : Bool :=
  c.isDigit || ('a' ≤ c && c ≤ 'f') || ('A' ≤ c && c ≤ 'F')

/-- The number that a row of digits stands for, most significant digit first. -/
def value (base : Nat) (digits : List Char) : Nat :=
  digits.foldl (fun n c => n * base + digitValue c) 0

/-- Decimal digits, at least one of them. -/
def decimal? (cs : List Char) : Option Nat :=
  if !cs.isEmpty && cs.all Char.isDigit then some (value 10 cs) else none

/-- Hexadecimal digits, at least one of them. -/
def hex? (cs : List Char) : Option Nat :=
  if !cs.isEmpty && cs.all isHexDigit then some (value 16 cs) else none

/-- A number without a sign: hexadecimal behind `0x` or `0X`, decimal otherwise. -/
def magnitude? : List Char → Option Nat
  | '0' :: 'x' :: cs => hex? cs
  | '0' :: 'X' :: cs => hex? cs
  | cs => decimal? cs

/-- A number with an optional `-`. -/
def signed? : List Char → Option Int
  | '-' :: cs => (magnitude? cs).map fun n => -(n : Int)
  | cs => (magnitude? cs).map fun n => (n : Int)

end Numeral

namespace Word

/-- The decimal text of a word. -/
def text (w : Word) : String := Numeral.integer w.toInt

/-- An address as `0x` and the hexadecimal digits of its pattern. -/
def addressText (w : Word) : String := "0x" ++ Numeral.hex (bits w)

/-- A word as `0x` and eight hexadecimal digits. -/
def patternText (w : Word) : String := "0x" ++ Numeral.hexPadded 8 (bits w)

/-- The word for an integer that fits 32 bits, with or without a sign. -/
def ofInt? (i : Int) : Option Word :=
  if -0x80000000 ≤ i ∧ i < 0x100000000 then some (Int32.ofInt i) else none

/-- Reads a word from characters. -/
def ofChars? (cs : List Char) : Option Word := (Numeral.signed? cs).bind ofInt?

/-- Reads a word from text. -/
def parse? (text : String) : Option Word := ofChars? text.toList

end Word

end WordLisp
