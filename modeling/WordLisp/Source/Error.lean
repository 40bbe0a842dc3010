import WordLisp.Source.Token

/-!
# Errors of source text

Why no program comes out of a source text, and the sentence that tells the user.
-/

namespace WordLisp

/-- The forms of the language that can be malformed. -/
inductive Form where
  | function | declaration | assignment | conditional | loop | operation | application
  deriving DecidableEq, Repr

def Form.name : Form → String
  | function => "FUNC"
  | declaration => "INIT"
  | assignment => "SET"
  | conditional => "IF"
  | loop => "WHILE"
  | operation => "operation"
  | application => "application"

/-- What would have been right instead. -/
inductive Expected where
  | token (value : Token)
  | name
  | expression
  | item
  deriving DecidableEq, Repr

def Expected.phrase : Expected → String
  | token value => s!"`{value.text}`"
  | name => "a name"
  | expression => "an expression"
  | item => "a function or a declaration"

/-- The token that was found, or the end of the input. -/
def foundPhrase : Option Token → String
  | some token => s!"`{token.text}`"
  | none => "end of input"

/-- A position is the number of tokens in front of the place. -/
inductive SourceError where
  | stray (position : Nat) (char : Char)
  | unexpected (position : Nat) (expected : Expected) (found : Option Token)
  | malformed (form : Form) (position : Nat) (expected : Expected) (found : Option Token)
  | operatorArity (operator : String) (expected given : Nat)
  | redeclared (name : String)
  | nestedFunction (name : String)
  | undeclared (name : String)
  | undeclaredFunction (name : String)
  | callArity (function : String) (expected given : Nat)
  /-- A global must start with a known value. -/
  | nonConstantGlobal (name : String)
  /-- Nobody could give arguments to the entry function. -/
  | entryArity (parameters : Nat)
  deriving DecidableEq, Repr

def SourceError.message : SourceError → String
  | stray position char =>
    s!"syntax error at token {Numeral.natural position}: unexpected character `{char.toString}`"
  | unexpected position expected found =>
    s!"syntax error at token {Numeral.natural position}: " ++
      s!"expected {expected.phrase}, found {foundPhrase found}"
  | malformed form position expected found =>
    s!"malformed {form.name} at token {Numeral.natural position}: " ++
      s!"expected {expected.phrase}, found {foundPhrase found}"
  | operatorArity operator expected given =>
    s!"operator `{operator}` takes {Numeral.natural expected} operand(s) " ++
      s!"but was given {Numeral.natural given}"
  | redeclared name => s!"`{name}` is already declared"
  | nestedFunction name => s!"function `{name}` is declared inside another function"
  | undeclared name => s!"`{name}` is not declared"
  | undeclaredFunction name => s!"function `{name}` is not declared"
  | callArity function expected given =>
    s!"function `{function}` takes {Numeral.natural expected} argument(s) " ++
      s!"but was given {Numeral.natural given}"
  | nonConstantGlobal name => s!"global `{name}` must be initialized with an integer literal"
  | entryArity parameters =>
    s!"`main` must take no parameters but declares {Numeral.natural parameters}"

end WordLisp
