import WordLisp.Numeral
import WordLisp.Text.Blank

/-!
# Tokens

Source text is a row of parentheses, integers and atoms. An atom is a run of characters that are
neither blank nor one of `(`, `)` and `;`, and an atom that reads as a word is an integer.
Spaces, tabs and line endings separate tokens, and so do comments.
-/

namespace WordLisp

inductive Token where
  | lparen
  | rparen
  | integer (value : Word)
  | atom (text : String)
  deriving DecidableEq, Repr

namespace Token

def text : Token → String
  | lparen => "("
  | rparen => ")"
  | integer value => Word.text value
  | atom text => text

/-- The characters that tokens may have between them. Other blank characters may not stand
there, although they end an atom. -/
def isSeparator (c : Char) : Bool := c = ' ' || c = '\t' || c = '\r' || c = '\n'

def isAtomChar (c : Char) : Bool := !Text.isBlank c && c ≠ '(' && c ≠ ')' && c ≠ ';'

/-- The token for a run of atom characters. -/
def ofAtom (cs : List Char) : Token :=
  match Word.ofChars? cs with
  | some value => integer value
  | none => atom (String.ofList cs)

/-! ## Between tokens -/

mutual

/-- Drops separators and comments. -/
def skip : List Char → List Char
  | [] => []
  | c :: cs =>
    if isSeparator c then skip cs
    else if c = ';' then skipComment (c :: cs) cs
    else c :: cs

/-- Drops the rest of a comment and what follows it. A comment ends with the line, at a line feed
or at a carriage return in front of one. A comment that runs into any other carriage return is
none, and then the text `start` where it would have begun is what remains. -/
def skipComment (start : List Char) : List Char → List Char
  | [] => []
  | c :: cs =>
    if c = '\n' then skip cs
    else if c = '\r' then (if cs.head? = some '\n' then skip cs else start)
    else skipComment start cs

end

mutual

theorem length_skip_le : ∀ cs : List Char, (skip cs).length ≤ cs.length
  | [] => by simp [skip]
  | c :: cs => by
    have := length_skip_le cs
    have := length_skipComment_le (c :: cs) cs
    simp only [skip, List.length_cons] at *
    split
    · omega
    · split
      · omega
      · exact Nat.le_refl _

theorem length_skipComment_le (start : List Char) :
    ∀ cs : List Char, (skipComment start cs).length ≤ max start.length cs.length
  | [] => by simp [skipComment]
  | c :: cs => by
    have := length_skip_le cs
    have := length_skipComment_le start cs
    simp only [skipComment, List.length_cons]
    split
    · omega
    · split
      · split <;> omega
      · omega

end

/-! ## Scanning -/

/-- A character that begins no token, and the number of tokens in front of it. -/
structure Stray where
  position : Nat
  char : Char
  deriving DecidableEq, Repr

/-- Scans the tokens of a text that begins with none of what separates tokens. Tokens are
counted from `position`. -/
def scanFrom (position : Nat) : List Char → Except Stray (List Token)
  | [] => .ok []
  | c :: cs =>
    if c = '(' then (scanFrom (position + 1) (skip cs)).map (lparen :: ·)
    else if c = ')' then (scanFrom (position + 1) (skip cs)).map (rparen :: ·)
    else if isAtomChar c then
      (scanFrom (position + 1) (skip (cs.dropWhile isAtomChar))).map
        (ofAtom (c :: cs.takeWhile isAtomChar) :: ·)
    else .error ⟨position, c⟩
termination_by cs => cs.length
decreasing_by
  all_goals
    have := length_skip_le cs
    have := length_skip_le (cs.dropWhile isAtomChar)
    have := (List.dropWhile_sublist (p := isAtomChar) (l := cs)).length_le
    simp only [List.length_cons]
    omega

/-- The tokens of a text. -/
def scan (source : String) : Except Stray (List Token) := scanFrom 0 (skip source.toList)

end Token

end WordLisp
