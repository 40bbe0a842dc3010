import WordLisp.Source.Error
import WordLisp.Source.Expr

/-!
# Frames

The layout of the cells that a function has on the stack while it runs. Slots are numbered from
the base of the frame:

    0                  the base of the frame of the caller
    1 …                parameters, then locals in the order of their declaration
    tempStart …        intermediate values
    returnSlot         what a called function returns
    returnSlot + 1     the address that a called function returns to

The frame of a called function begins at slot `size`, and its parameters from slot `size + 1` on.

Slots are counted with natural numbers. The code holds them as words, which are the same numbers for
frames of fewer than 2^31 names and intermediate values.
-/

namespace WordLisp

/-! ## Intermediate values -/

mutual

/-- How many slots for intermediate values an expression needs. A binary operation keeps its left
operand while the right one is evaluated; an application keeps every argument while the later
ones are evaluated. -/
def Expr.temporaries : Expr → Nat
  | .literal _ | .symbol _ | .reference _ _ => 0
  | .declare _ value => value.temporaries
  | .assign _ _ value => value.temporaries
  | .cond test yes no =>
    max test.temporaries (max (Expr.rowTemporaries yes) (Expr.rowTemporaries no))
  | .loop test body => max test.temporaries (Expr.rowTemporaries body)
  | .unary _ operand => operand.temporaries
  | .binary _ left right => max left.temporaries (1 + right.temporaries)
  | .apply _ arguments => Expr.argumentTemporaries 0 arguments

/-- The slots for expressions that are evaluated one after the other. -/
def Expr.rowTemporaries : List Expr → Nat
  | [] => 0
  | e :: es => max e.temporaries (Expr.rowTemporaries es)

/-- The slots for arguments of which the first `kept` are already there. -/
def Expr.argumentTemporaries (kept : Nat) : List Expr → Nat
  | [] => 0
  | e :: es => max (kept + max e.temporaries 1) (Expr.argumentTemporaries (kept + 1) es)

end

/-! ## Layout -/

structure Frame where
  /-- Parameters and locals. -/
  names : List String
  temporaries : Nat
  deriving DecidableEq, Repr

/-- The first name that stands among `seen` or repeats an earlier one. -/
def firstRepeat? (seen : List String) : List String → Option String
  | [] => none
  | name :: names => if name ∈ seen then some name else firstRepeat? (name :: seen) names

namespace Frame

/-- Gives every parameter and every name that the body declares a slot. -/
def allocate (f : Function) : Except SourceError Frame :=
  let names := f.parameters ++ Expr.declaredAll f.body
  match firstRepeat? [] names with
  | some name => .error (.redeclared name)
  | none => .ok ⟨names, Expr.rowTemporaries f.body⟩

def slot? (frame : Frame) (name : String) : Option Nat :=
  (frame.names.idxOf? name).map (· + 1)

def tempStart (frame : Frame) : Nat := 1 + frame.names.length

def returnSlot (frame : Frame) : Nat := frame.tempStart + frame.temporaries

def size (frame : Frame) : Nat := frame.returnSlot + 2

/-- Where argument `i` is put for a function that is about to be called. -/
def argumentSlot (frame : Frame) (i : Nat) : Nat := frame.size + 1 + i

end Frame

end WordLisp
