import WordLisp.Word

/-!
# Symbols

A symbol is a constant that stands for its own name. The pool numbers the names in the order of
their first use.
-/

namespace WordLisp

/-- The number of the first symbol, far above the literals of most programs. -/
def symbolBase : Word := 0x40000000

structure SymbolPool where
  /-- The names in the order of their numbers. -/
  names : List String := []
  deriving DecidableEq, Repr

namespace SymbolPool

/-- The number of the symbol at a place of the pool. -/
def number (i : Nat) : Word := symbolBase + Int32.ofNat i

/-- The number of a name, whether it is new, and the pool that knows the name. -/
def intern (pool : SymbolPool) (name : String) : (Word × Bool) × SymbolPool :=
  match pool.names.idxOf? name with
  | some i => ((number i, false), pool)
  | none => ((number pool.names.length, true), ⟨pool.names ++ [name]⟩)

def size (pool : SymbolPool) : Nat := pool.names.length

/-- The name with a number. -/
def name? (pool : SymbolPool) (id : Word) : Option String :=
  if symbolBase ≤ id then pool.names[(id - symbolBase).toNatClampNeg]? else none

/-- The numbers and names of all symbols, in order. -/
def toList (pool : SymbolPool) : List (Word × String) :=
  pool.names.mapIdx fun i name => (number i, name)

end SymbolPool

end WordLisp
