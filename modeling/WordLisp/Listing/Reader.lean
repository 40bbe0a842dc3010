import WordLisp.Listing.Basic
import WordLisp.Listing.Error
import WordLisp.Text.Blank
import WordLisp.Text.Lines

/-!
# Reading listings

A line holds one record, with spaces or tabs around it, and a `;` starts a comment that runs to
the end of the line. A record is read in two stages. `Line.parse?` finds out which of the three
forms a line has, and `Line.record` checks the words in it against the tables of opcodes and
operators.
-/

namespace WordLisp

/-- The form of a line, with the words in it not yet checked. -/
inductive Line where
  | tag (name : List Char)
  | data (word : List Char)
  | operation (mnemonic : List Char) (argument : Option (List Char))
  deriving DecidableEq, Repr

namespace Line

/-! ## Forms

Each reader returns what it found and the characters behind it. -/

/-- A space or a tab. -/
def isSpace (c : Char) : Bool := c = ' ' || c = '\t'

/-- The longest run of characters with `p`, which may not be empty. -/
def run? (p : Char → Bool) (cs : List Char) : Option (List Char × List Char) :=
  match cs.takeWhile p with
  | [] => none
  | found => some (found, cs.dropWhile p)

/-- Space, and behind it a run of characters that are not blank. -/
def argument? (cs : List Char) : Option (List Char × List Char) :=
  match run? isSpace cs with
  | some (_, rest) => run? (fun c => !Text.isBlank c) rest
  | none => none

/-- A tag and the colon that makes it a definition. -/
def tagForm? (cs : List Char) : Option (Line × List Char) :=
  match run? isTagChar cs with
  | some (name, ':' :: rest) => some (tag name, rest)
  | _ => none

def dataForm? : List Char → Option (Line × List Char)
  | '.' :: 'w' :: 'o' :: 'r' :: 'd' :: cs =>
    (argument? cs).map fun (word, rest) => (data word, rest)
  | _ => none

def operationForm? (cs : List Char) : Option (Line × List Char) :=
  match run? Char.isAlpha cs with
  | none => none
  | some (mnemonic, rest) =>
    match argument? rest with
    | some (argument, rest) => some (operation mnemonic (some argument), rest)
    | none => some (operation mnemonic none, rest)

/-- The first form that fits decides, and then only space may follow. -/
def parse? (cs : List Char) : Option Line :=
  let cs := cs.dropWhile isSpace
  match tagForm? cs <|> dataForm? cs <|> operationForm? cs with
  | some (line, rest) => if rest.all isSpace then some line else none
  | none => none

/-! ## Records -/

/-- The target written as `cs`: a number if it reads as one, and otherwise a tag. -/
def target (cs : List Char) : Except LineError Target :=
  match Word.ofChars? cs with
  | some offset => .ok (.offset offset)
  | none =>
    if cs.all isTagChar then .ok (.tag (String.ofList cs))
    else .error (.notTag (String.ofList cs))

/-- Reads the argument that the shape of the opcode asks for. -/
def instruction (opcode : Opcode) (argument : Option (List Char)) :
    Except LineError Instruction :=
  match opcode.shape, argument with
  | .nullary, none => .ok (.nullary opcode)
  | .nullary, some cs => .error (.unwantedArgument opcode (String.ofList cs))
  | _, none => .error (.missingArgument opcode)
  | .addressed, some cs => (target cs).map (.addressed opcode)
  | .frame, some cs =>
    match Word.ofChars? cs with
    | some offset => .ok (.frame opcode offset)
    | none => .error (.notFrameOffset opcode (String.ofList cs))
  | .unary, some cs =>
    match UnaryOp.ofSymbol? (String.ofList cs) with
    | some operator => .ok (.unary opcode operator)
    | none => .error (.notUnaryOp (String.ofList cs))
  | .binary, some cs =>
    match BinaryOp.ofSymbol? (String.ofList cs) with
    | some operator => .ok (.binary opcode operator)
    | none => .error (.notBinaryOp (String.ofList cs))

def record : Line → Except LineError Record
  | tag name => .ok (.tag (String.ofList name))
  | data word =>
    match Word.ofChars? word with
    | some value => .ok (.data value)
    | none => .error (.notWord (String.ofList word))
  | operation mnemonic argument =>
    match Opcode.ofMnemonic? (String.ofList mnemonic) with
    | some opcode => (instruction opcode argument).map .instruction
    | none => .error (.notOperation (String.ofList mnemonic))

/-- The record on a line, if the line has more on it than space and a comment. -/
def readRecord? (line : List Char) : Except LineError (Option Record) :=
  let code := line.takeWhile (· ≠ ';')
  let trimmed := Text.trim code
  if trimmed.isEmpty then .ok none
  else
    match parse? code with
    | some form => form.record.map some
    | none => .error (.unreadable (String.ofList trimmed))

end Line

namespace Listing

/-- Reads lines of which the first has the number `number`. The first bad line is reported. -/
def ofLines (number : Nat) : List (List Char) → Except AssemblyError Listing
  | [] => .ok []
  | line :: lines =>
    match Line.readRecord? line with
    | .error error => .error (.badLine number error)
    | .ok none => ofLines (number + 1) lines
    | .ok (some record) => (ofLines (number + 1) lines).map (record :: ·)

/-- Reads a listing. Lines are counted from one. -/
def parse (text : String) : Except AssemblyError Listing :=
  ofLines 1 (Text.lines text.toList)

end Listing

end WordLisp
