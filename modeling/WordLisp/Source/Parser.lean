import WordLisp.Source.Error
import WordLisp.Source.Expr
import WordLisp.Source.Name

/-!
# Parsing

From tokens to items, by recursive descent. The grammar is

    program      ::=  item*
    item         ::=  function | declaration
    function     ::=  '(' 'FUNC' name '(' name* ')' expression* ')'
    declaration  ::=  '(' ('INIT' | 'VAR') name expression ')'
    expression   ::=  integer | '@' name | '*'? name
                   |  declaration
                   |  '(' 'SET' '*'? name expression ')'
                   |  '(' 'IF' expression block block ')'
                   |  '(' 'WHILE' expression expression* ')'
                   |  '(' operator expression+ ')'
                   |  '(' name expression* ')'
    block        ::=  '(' expression* ')'

Where a production may be absent its parser returns `none` if the tokens do not start it. The
head of a form decides which form it is, and from there on a mismatch is an error. What is read
comes with the cursor behind it and a proof that this cursor has fewer tokens left, which is why
the recursion ends.
-/

namespace WordLisp

namespace Parser

/-- A place in a row of tokens: the tokens from there on, and the number of those in front. -/
structure Cursor where
  position : Nat
  tokens : List Token
  deriving DecidableEq, Repr

namespace Cursor

/-- How many tokens are left. -/
def size (c : Cursor) : Nat := c.tokens.length

def unexpected (c : Cursor) (expected : Expected) : SourceError :=
  .unexpected c.position expected c.tokens.head?

def malformed (c : Cursor) (form : Form) (expected : Expected) : SourceError :=
  .malformed form c.position expected c.tokens.head?

end Cursor

/-- A value that was read, with the cursor behind it. Fewer than `bound` tokens are left. -/
structure Parsed (α : Type) (bound : Nat) where
  value : α
  rest : Cursor
  size_lt : rest.size < bound

/-- What was read from within a text was also read from the text. -/
def Parsed.weaken (p : Parsed α n) (h : n ≤ m) : Parsed α m :=
  ⟨p.value, p.rest, Nat.lt_of_lt_of_le p.size_lt h⟩

/-! ## Single tokens -/

def expect (form : Form) (token : Token) (c : Cursor) : Except SourceError (Parsed Unit c.size) :=
  match h : c.tokens with
  | [] => .error (c.malformed form (.token token))
  | t :: ts =>
    if t = token then .ok ⟨(), ⟨c.position + 1, ts⟩, by simp [Cursor.size, h]⟩
    else .error (c.malformed form (.token token))

def expectName (form : Form) (c : Cursor) : Except SourceError (Parsed String c.size) :=
  match h : c.tokens with
  | .atom text :: ts =>
    if isName text then .ok ⟨text, ⟨c.position + 1, ts⟩, by simp [Cursor.size, h]⟩
    else .error (c.malformed form .name)
  | _ => .error (c.malformed form .name)

/-- The name behind a mark, as in `*name`. -/
def markedName? (mark : Char) (text : String) : Option String :=
  match text.toList with
  | [] => none
  | c :: cs => if c = mark ∧ isName (String.ofList cs) then some (String.ofList cs) else none

/-- A name, or a name behind a `*`, with a flag for the latter. -/
def expectTarget (form : Form) (c : Cursor) :
    Except SourceError (Parsed (String × Bool) c.size) :=
  match h : c.tokens with
  | .atom text :: ts =>
    match markedName? '*' text with
    | some name => .ok ⟨(name, true), ⟨c.position + 1, ts⟩, by simp [Cursor.size, h]⟩
    | none =>
      if isName text then
        .ok ⟨(text, false), ⟨c.position + 1, ts⟩, by simp [Cursor.size, h]⟩
      else .error (c.malformed form .name)
  | _ => .error (c.malformed form .name)

/-- As many names as there are. -/
def names (position : Nat) (tokens : List Token) : Parsed (List String) (tokens.length + 1) :=
  match tokens with
  | .atom text :: ts =>
    if isName text then
      let ⟨rest, c, h⟩ := names (position + 1) ts
      ⟨text :: rest, c, by simp only [List.length_cons]; omega⟩
    else ⟨[], ⟨position, .atom text :: ts⟩, by simp [Cursor.size]⟩
  | ts => ⟨[], ⟨position, ts⟩, by simp [Cursor.size]⟩

/-- The expression that an atom stands for. -/
def atomExpr? (text : String) : Option Expr :=
  match markedName? '@' text, markedName? '*' text with
  | some name, _ => some (.symbol name)
  | _, some name => some (.reference name true)
  | _, _ => if isName text then some (.reference text false) else none

/-! ## Expressions -/

/-- What the atom at the head of a form makes of it. -/
inductive Head where
  | function
  | declaration
  | assignment
  | conditional
  | loop
  | operation (symbol : String)
  | application (name : String)
  deriving DecidableEq, Repr

def Head.of? (text : String) : Option Head :=
  if text = "FUNC" then some function
  else if text = "INIT" ∨ text = "VAR" then some declaration
  else if text = "SET" then some assignment
  else if text = "IF" then some conditional
  else if text = "WHILE" then some loop
  else if (UnaryOp.ofSymbol? text).isSome ∨ (BinaryOp.ofSymbol? text).isSome then
    some (operation text)
  else if isName text then some (application text)
  else none

/-- The operation with a given symbol on given operands. -/
def operation (symbol : String) (operands : List Expr) : Except SourceError Expr :=
  match UnaryOp.ofSymbol? symbol, BinaryOp.ofSymbol? symbol, operands with
  | some operator, _, [operand] => .ok (.unary operator operand)
  | some _, _, _ => .error (.operatorArity symbol 1 operands.length)
  | none, some operator, [left, right] => .ok (.binary operator left right)
  | none, _, _ => .error (.operatorArity symbol 2 operands.length)

/-- The name to blame for a function that begins among expressions. -/
def nestedName : List Token → String
  | .atom text :: _ => text
  | _ => "FUNC"

mutual

def expression? (c : Cursor) : Except SourceError (Option (Parsed Expr c.size)) :=
  match h : c.tokens with
  | .integer value :: ts =>
    .ok (some ⟨.literal value, ⟨c.position + 1, ts⟩, by simp [Cursor.size, h]⟩)
  | .atom text :: ts =>
    .ok ((atomExpr? text).map fun e => ⟨e, ⟨c.position + 1, ts⟩, by simp [Cursor.size, h]⟩)
  | .lparen :: .atom text :: ts =>
    match Head.of? text with
    | none => .ok none
    | some head => do
      have : ts.length < c.size := by simp only [Cursor.size, h, List.length_cons]; omega
      return some ((← form head ⟨c.position + 2, ts⟩).weaken (Nat.le_of_lt this))
  | _ => .ok none
termination_by (c.size, 0)

/-- The rest of a form behind its head, with the parenthesis that closes it. -/
def form (head : Head) (c : Cursor) : Except SourceError (Parsed Expr c.size) :=
  match head with
  | .function => .error (.nestedFunction (nestedName c.tokens))
  | .declaration => do
    let p ← declaration c
    return ⟨.declare p.value.1 p.value.2, p.rest, p.size_lt⟩
  | .assignment => do
    let ⟨(name, indirect), c₁, h₁⟩ ← expectTarget .assignment c
    let ⟨value, c₂, h₂⟩ ← expression .assignment c₁
    let ⟨_, c₃, h₃⟩ ← expect .assignment .rparen c₂
    return ⟨.assign name indirect value, c₃, by omega⟩
  | .conditional => do
    let ⟨test, c₁, h₁⟩ ← expression .conditional c
    let ⟨yes, c₂, h₂⟩ ← block .conditional c₁
    let ⟨no, c₃, h₃⟩ ← block .conditional c₂
    let ⟨_, c₄, h₄⟩ ← expect .conditional .rparen c₃
    return ⟨.cond test yes no, c₄, by omega⟩
  | .loop => do
    let ⟨test, c₁, h₁⟩ ← expression .loop c
    let ⟨body, c₂, h₂⟩ ← sequence c₁
    let ⟨_, c₃, h₃⟩ ← expect .loop .rparen c₂
    return ⟨.loop test body, c₃, by omega⟩
  | .operation symbol => do
    let ⟨operands, c₁, h₁⟩ ← sequence c
    let ⟨_, c₂, h₂⟩ ← expect .operation .rparen c₁
    return ⟨← operation symbol operands, c₂, by omega⟩
  | .application function => do
    let ⟨arguments, c₁, h₁⟩ ← sequence c
    let ⟨_, c₂, h₂⟩ ← expect .application .rparen c₁
    return ⟨.apply function arguments, c₂, by omega⟩
termination_by (c.size, 3)

/-- The rest of a declaration behind its keyword. -/
def declaration (c : Cursor) : Except SourceError (Parsed (String × Expr) c.size) := do
  let ⟨name, c₁, h₁⟩ ← expectName .declaration c
  let ⟨value, c₂, h₂⟩ ← expression .declaration c₁
  let ⟨_, c₃, h₃⟩ ← expect .declaration .rparen c₂
  return ⟨(name, value), c₃, by omega⟩
termination_by (c.size, 2)

/-- An expression that a form needs. -/
def expression (needed : Form) (c : Cursor) : Except SourceError (Parsed Expr c.size) := do
  match ← expression? c with
  | some p => return p
  | none => throw (c.malformed needed .expression)
termination_by (c.size, 1)

/-- As many expressions as there are. -/
def sequence (c : Cursor) : Except SourceError (Parsed (List Expr) (c.size + 1)) := do
  match ← expression? c with
  | none => return ⟨[], c, by omega⟩
  | some ⟨e, c₁, h₁⟩ =>
    let ⟨es, c₂, h₂⟩ ← sequence c₁
    return ⟨e :: es, c₂, by omega⟩
termination_by (c.size, 1)

/-- Expressions in parentheses. -/
def block (within : Form) (c : Cursor) : Except SourceError (Parsed (List Expr) c.size) := do
  let ⟨_, c₁, h₁⟩ ← expect within .lparen c
  let ⟨es, c₂, h₂⟩ ← sequence c₁
  let ⟨_, c₃, h₃⟩ ← expect within .rparen c₂
  return ⟨es, c₃, by omega⟩
termination_by (c.size, 0)

end

/-! ## Items -/

/-- The rest of a function behind its keyword. -/
def function (c : Cursor) : Except SourceError (Parsed Function c.size) := do
  let ⟨name, c₁, h₁⟩ ← expectName .function c
  let ⟨_, c₂, h₂⟩ ← expect .function .lparen c₁
  let ⟨parameters, c₃, h₃⟩ := names c₂.position c₂.tokens
  let ⟨_, c₄, h₄⟩ ← expect .function .rparen c₃
  let ⟨body, c₅, h₅⟩ ← sequence c₄
  let ⟨_, c₆, h₆⟩ ← expect .function .rparen c₅
  return ⟨⟨name, parameters, body⟩, c₆, by simp only [Cursor.size] at *; omega⟩

def item? (c : Cursor) : Except SourceError (Option (Parsed Item c.size)) :=
  match h : c.tokens with
  | .lparen :: .atom text :: ts =>
    have : ts.length ≤ c.size := by simp only [Cursor.size, h, List.length_cons]; omega
    match Head.of? text with
    | some .function => do
      let p ← function ⟨c.position + 2, ts⟩
      return some (Parsed.weaken ⟨.function p.value, p.rest, p.size_lt⟩ this)
    | some .declaration => do
      let p ← declaration ⟨c.position + 2, ts⟩
      return some (Parsed.weaken ⟨.global p.value.1 p.value.2, p.rest, p.size_lt⟩ this)
    | _ => .ok none
  | _ => .ok none

/-- Items up to the end of the tokens. -/
def program (c : Cursor) : Except SourceError (List Item) :=
  if c.tokens.isEmpty then .ok []
  else do
    match ← item? c with
    | none => throw (c.unexpected .item)
    | some ⟨item, c₁, _⟩ => return item :: (← program c₁)
termination_by c.size

/-- An expression up to the end of the tokens. -/
def single (c : Cursor) : Except SourceError Expr := do
  match ← expression? c with
  | some p =>
    if p.rest.tokens.isEmpty then return p.value
    else throw (p.rest.unexpected .expression)
  | none => throw (c.unexpected .expression)

end Parser

/-! ## Texts -/

/-- The tokens of a text. -/
def Token.ofSource (source : String) : Except SourceError (List Token) :=
  match Token.scan source with
  | .ok tokens => .ok tokens
  | .error stray => .error (.stray stray.position stray.char)

/-- The items of a program text. -/
def Item.parse (source : String) : Except SourceError (List Item) := do
  Parser.program ⟨0, ← Token.ofSource source⟩

/-- A single expression that is all of the text. -/
def Expr.parse (source : String) : Except SourceError Expr := do
  Parser.single ⟨0, ← Token.ofSource source⟩

end WordLisp
