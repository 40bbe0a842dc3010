import Mathlib
import WordLisp.Source.Parser

/-!
# The grammar

The grammar of the language as relations between rows of tokens and what they stand for, one
constructor for each alternative of a production:

    program      ::=  item*
    item         ::=  function | declaration
    function     ::=  '(' 'FUNC' name '(' name* ')' expression* ')'
    declaration  ::=  '(' ('INIT' | 'VAR') name expression ')'
    expression   ::=  integer | '@' name | '*'? name
                   |  declaration
                   |  '(' 'SET' '*'? name expression ')'
                   |  '(' 'IF' expression block block ')'
                   |  '(' 'WHILE' expression expression* ')'
                   |  '(' operator expression+ ')'
                   |  '(' name expression* ')'
    block        ::=  '(' expression* ')'

An operator takes one operand if it is unary and two if it is binary.
-/

namespace WordLisp.Grammar

/-- A name, or a name behind a `*`. -/
inductive Target : String → String → Bool → Prop where
  | direct {name : String} : isName name → Target name name false
  | indirect {name : String} : isName name → Target ("*" ++ name) name true

inductive Names : List Token → List String → Prop where
  | nil : Names [] []
  | cons {name : String} {names : List String} {ts : List Token} : isName name → Names ts names →
    Names (.atom name :: ts) (name :: names)

mutual

inductive Expression : List Token → Expr → Prop where
  | integer {value : Word} : Expression [.integer value] (.literal value)
  | symbol {name : String} : isName name → Expression [.atom ("@" ++ name)] (.symbol name)
  | reference {text name : String} {indirect : Bool} : Target text name indirect →
    Expression [.atom text] (.reference name indirect)
  | declaration {ts : List Token} {name : String} {value : Expr} : Declaration ts name value →
    Expression ts (.declare name value)
  | assignment {text name : String} {indirect : Bool} {ts : List Token} {value : Expr} :
    Target text name indirect → Expression ts value →
    Expression (.lparen :: .atom "SET" :: .atom text :: (ts ++ [.rparen])) (.assign name indirect value)
  | conditional {ts us vs : List Token} {test : Expr} {yes no : List Expr} :
    Expression ts test → Block us yes → Block vs no →
    Expression (.lparen :: .atom "IF" :: (ts ++ (us ++ (vs ++ [.rparen])))) (.cond test yes no)
  | loop {ts us : List Token} {test : Expr} {body : List Expr} : Expression ts test → Row us body →
    Expression (.lparen :: .atom "WHILE" :: (ts ++ (us ++ [.rparen]))) (.loop test body)
  | unary {operator : UnaryOp} {ts : List Token} {operand : Expr} : Expression ts operand →
    Expression (.lparen :: .atom operator.symbol :: (ts ++ [.rparen])) (.unary operator operand)
  | binary {operator : BinaryOp} {ts us : List Token} {left right : Expr} :
    Expression ts left → Expression us right →
    Expression (.lparen :: .atom operator.symbol :: (ts ++ (us ++ [.rparen])))
      (.binary operator left right)
  | application {name : String} {ts : List Token} {arguments : List Expr} :
    isName name → Row ts arguments →
    Expression (.lparen :: .atom name :: (ts ++ [.rparen])) (.apply name arguments)

inductive Declaration : List Token → String → Expr → Prop where
  | intro {keyword name : String} {ts : List Token} {value : Expr} :
    keyword = "INIT" ∨ keyword = "VAR" → isName name → Expression ts value →
    Declaration (.lparen :: .atom keyword :: .atom name :: (ts ++ [.rparen])) name value

/-- As many expressions as one likes. -/
inductive Row : List Token → List Expr → Prop where
  | nil : Row [] []
  | cons {ts us : List Token} {e : Expr} {es : List Expr} : Expression ts e → Row us es →
    Row (ts ++ us) (e :: es)

inductive Block : List Token → List Expr → Prop where
  | intro {ts : List Token} {es : List Expr} : Row ts es → Block (.lparen :: (ts ++ [.rparen])) es

end

inductive TopLevel : List Token → Item → Prop where
  | function {name : String} {parameters : List String} {body : List Expr} {ts us : List Token} :
    isName name → Names ts parameters → Row us body →
    TopLevel (.lparen :: .atom "FUNC" :: .atom name :: .lparen :: (ts ++ (.rparen :: (us ++ [.rparen]))))
      (.function ⟨name, parameters, body⟩)
  | declaration {ts : List Token} {name : String} {value : Expr} : Declaration ts name value →
    TopLevel ts (.global name value)

inductive Program : List Token → List Item → Prop where
  | nil : Program [] []
  | cons {ts us : List Token} {item : Item} {items : List Item} : TopLevel ts item →
    Program us items → Program (ts ++ us) (item :: items)

end WordLisp.Grammar
