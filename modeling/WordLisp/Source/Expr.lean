import WordLisp.Numeral
import WordLisp.Operator

/-!
# Expressions and items

The abstract syntax of the language, and its text. A program is a list of items; each is a
function or the declaration of a global.
-/

namespace WordLisp

inductive Expr where
  | literal (value : Word)
  /-- A constant that no other symbol has. -/
  | symbol (name : String)
  /-- The value of a variable, or of the cell whose address the variable holds. -/
  | reference (name : String) (indirect : Bool)
  | declare (name : String) (value : Expr)
  | assign (name : String) (indirect : Bool) (value : Expr)
  | cond (test : Expr) (yes no : List Expr)
  | loop (test : Expr) (body : List Expr)
  | unary (operator : UnaryOp) (operand : Expr)
  | binary (operator : BinaryOp) (left right : Expr)
  | apply (function : String) (arguments : List Expr)
  deriving Repr

structure Function where
  name : String
  parameters : List String
  body : List Expr
  deriving Repr

inductive Item where
  | global (name : String) (value : Expr)
  | function (value : Function)
  deriving Repr

/-! ## Text -/

/-- The mark of an access through a pointer. -/
def star (indirect : Bool) : String := if indirect then "*" else ""

mutual

def Expr.text : Expr → String
  | .literal value => Word.text value
  | .symbol name => "@" ++ name
  | .reference name indirect => star indirect ++ name
  | .declare name value => "(INIT " ++ name ++ " " ++ value.text ++ ")"
  | .assign name indirect value =>
    "(SET " ++ star indirect ++ name ++ " " ++ value.text ++ ")"
  | .cond test yes no =>
    "(IF " ++ test.text ++ " (" ++ Expr.rowText yes ++ ") (" ++ Expr.rowText no ++ "))"
  | .loop test body => "(WHILE " ++ test.text ++ Expr.tailText body ++ ")"
  | .unary operator operand => "(" ++ operator.symbol ++ " " ++ operand.text ++ ")"
  | .binary operator left right =>
    "(" ++ operator.symbol ++ " " ++ left.text ++ " " ++ right.text ++ ")"
  | .apply function arguments => "(" ++ function ++ Expr.tailText arguments ++ ")"

/-- Expressions with a space between two of them. -/
def Expr.rowText : List Expr → String
  | [] => ""
  | e :: es => e.text ++ Expr.tailText es

/-- Expressions with a space in front of each. -/
def Expr.tailText : List Expr → String
  | [] => ""
  | e :: es => " " ++ e.text ++ Expr.tailText es

end

def Function.text (f : Function) : String :=
  "(FUNC " ++ f.name ++ " (" ++ String.intercalate " " f.parameters ++ ")" ++
    Expr.tailText f.body ++ ")"

/-- A function is written by its name and the number of its parameters. -/
def Function.signature (f : Function) : String :=
  f.name ++ "/" ++ Numeral.natural f.parameters.length

def Item.text : Item → String
  | global name value => "(INIT " ++ name ++ " " ++ value.text ++ ")"
  | function value => value.text

/-! ## Declared names -/

mutual

/-- The names that an expression declares, each in front of those that its value declares. -/
def Expr.declared : Expr → List String
  | .literal _ | .symbol _ | .reference _ _ => []
  | .declare name value => name :: value.declared
  | .assign _ _ value => value.declared
  | .cond test yes no => test.declared ++ Expr.declaredAll yes ++ Expr.declaredAll no
  | .loop test body => test.declared ++ Expr.declaredAll body
  | .unary _ operand => operand.declared
  | .binary _ left right => left.declared ++ right.declared
  | .apply _ arguments => Expr.declaredAll arguments

def Expr.declaredAll : List Expr → List String
  | [] => []
  | e :: es => e.declared ++ Expr.declaredAll es

end

end WordLisp
