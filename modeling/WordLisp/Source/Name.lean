/-!
# Names

A name starts with a letter or an underscore and goes on with letters, digits and the characters
of `_-?!`. The words that begin the special forms are not names.
-/

namespace WordLisp

/-- The words that begin the special forms. -/
def keywords : List String := ["FUNC", "INIT", "VAR", "SET", "IF", "WHILE"]

def isNameStart (c : Char) : Bool := c.isAlpha || c = '_'

def isNameChar (c : Char) : Bool := c.isAlphanum || "_-?!".toList.contains c

def isName (text : String) : Bool :=
  match text.toList with
  | [] => false
  | c :: cs => isNameStart c && cs.all isNameChar && !keywords.contains text

end WordLisp
