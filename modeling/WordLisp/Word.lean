/-!
# Machine words

Registers, memory cells, addresses and encoded instructions are all words: signed 32-bit
integers. `Word.bits` and `Word.ofBits` pass between a word and the natural number whose
binary digits are its two's complement pattern, which is the view that encodings use.
-/

namespace WordLisp

/-- A signed 32-bit integer. -/
abbrev Word := Int32

namespace Word

/-- The two's complement pattern of a word, a number below `2 ^ 32`. -/
def bits (w : Word) : Nat := w.toUInt32.toNat

/-- The word with the pattern of `n`; digits from position 32 on are dropped. -/
def ofBits (n : Nat) : Word := (UInt32.ofNat n).toInt32

/-- The word that stands for a truth value. -/
def ofBool (b : Bool) : Word := if b then 1 else 0

/-- `base` multiplied `n` times with itself, wrapped, by repeated squaring. -/
def pow (base : Word) (n : Nat) : Word :=
  if n = 0 then 1
  else if n % 2 = 0 then pow (base * base) (n / 2)
  else base * pow (base * base) (n / 2)
termination_by n
decreasing_by all_goals omega

/-- The integer part of `base` raised to `exponent`: wrapped for an exponent that is not
negative, and otherwise different from zero only for the bases `1` and `-1`. -/
def power (base exponent : Word) : Word :=
  if 0 ≤ exponent then pow base exponent.toNatClampNeg
  else if base = 1 then 1
  else if base = -1 then (if exponent % 2 = 0 then 1 else -1)
  else 0

end Word

end WordLisp
