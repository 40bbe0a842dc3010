import WordLisp.Numeral

/-!
# Faults

Why a program cannot be loaded or cannot go on.
-/

namespace WordLisp

inductive Fault where
  /-- The word at an address has no known opcode, or no known operator. -/
  | unsupported (address word : Word)
  /-- No cell has this address. -/
  | outOfBounds (address : Word)
  /-- A call would have moved the top of the stack to `top`. -/
  | stackOverflow (top : Int)
  /-- The word in front of a function does not count the cells of a frame. -/
  | invalidFrameSize (address size : Word)
  | programTooLarge (words : Nat)
  deriving DecidableEq, Repr

def Fault.message : Fault → String
  | unsupported address word =>
    s!"unsupported instruction {Word.patternText word} at {Word.addressText address}"
  | outOfBounds address => s!"address {Word.addressText address} is outside addressable memory"
  | stackOverflow top =>
    s!"stack overflow: SPR would move to 0x{Numeral.hex (top % 0x10000000000000000).toNat}"
  | invalidFrameSize address size =>
    s!"invalid frame size {Word.text size} read from {Word.addressText address}"
  | programTooLarge words =>
    s!"program of {Numeral.natural words} words does not fit below the stack"

end WordLisp
