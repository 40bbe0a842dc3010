import WordLisp.Instruction.Basic

/-!
# Listings

A program in symbolic form: a list of records, each an instruction, a data word, or a tag
that names the place of whatever follows it. Tags take no space of their own.
-/

namespace WordLisp

inductive Record where
  | instruction (value : Instruction)
  | tag (name : String)
  | data (value : Word)
  deriving DecidableEq, Repr

abbrev Listing := List Record

/-- One line of text without its ending: a tag at the margin, all else indented by four. -/
def Record.text : Record → String
  | instruction value => "    " ++ value.text
  | tag name => name ++ ":"
  | data value => "    .word " ++ Word.text value

/-- Each record on a line of its own. -/
def Listing.text (listing : Listing) : String :=
  String.join (listing.map fun record => record.text ++ "\n")

/-- The characters that tags are made of. -/
def isTagChar (c : Char) : Bool := c.isAlphanum || "_-?!.".toList.contains c

end WordLisp
