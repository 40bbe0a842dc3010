import WordLisp.Numeral

/-!
# Command line arguments

What the user asks for. A command is followed by the name of a file and by options, in any
order. The value of a long option is the next argument or stands behind a `=`; the value of a
short option may also follow its letter directly. Behind an argument `--` there are no options.
-/

namespace WordLisp

/-- The settings of a run. -/
structure RunOptions where
  /-- The words for the input channel; without them input comes from outside. -/
  input : Option (List Word) := none
  /-- Whether the state of the machine is shown at the end. -/
  dump : Bool := false
  slice : Option Nat := none
  stackWords : Option Nat := none
  deriving DecidableEq, Repr

inductive Command where
  | version
  | run (source : String) (options : RunOptions)
  | compile (source : String) (optimize : Bool)
  | assemble (listing output : String)
  | exec (binary : String) (options : RunOptions)
  | disassemble (binary : String)
  deriving DecidableEq, Repr

namespace Arguments

/-! ## Options -/

/-- The options that commands may have. -/
inductive Name where
  | input | dump | slice | stackWords | noOptimize | output
  deriving DecidableEq, Repr

namespace Name

def long : Name → String
  | input => "input"
  | dump => "dump"
  | slice => "slice"
  | stackWords => "stack-words"
  | noOptimize => "no-optimize"
  | output => "output"

def short? : Name → Option Char
  | output => some 'o'
  | _ => none

def takesValue : Name → Bool
  | dump | noOptimize => false
  | _ => true

/-- The value may begin with a hyphen. -/
def takesHyphens : Name → Bool
  | input => true
  | _ => false

end Name

/-- An argument that has been understood. -/
inductive Part where
  | file (name : String)
  | flag (name : Name)
  | value (name : Name) (text : String)
  deriving DecidableEq, Repr

/-- What follows a hyphen is an option, but a hyphen alone is not. -/
def looksLikeOption (text : String) : Bool :=
  match text.toList with
  | '-' :: _ :: _ => true
  | _ => false

/-- Cuts a text in front of the first `=`. -/
def cutAtEquals (cs : List Char) : String × Option String :=
  let name := String.ofList (cs.takeWhile (· ≠ '='))
  match cs.dropWhile (· ≠ '=') with
  | [] => (name, none)
  | _ :: value => (name, some (String.ofList value))

/-- The option that an argument names, with a value that is attached to it. -/
def option? (allowed : List Name) (text : String) : Option (Name × Option String) :=
  match text.toList with
  | '-' :: '-' :: cs =>
    let (name, value) := cutAtEquals cs
    (allowed.find? (·.long = name)).map fun n => (n, value)
  | '-' :: c :: cs =>
    let value := match cs with
      | [] => none
      | '=' :: value => some (String.ofList value)
      | value => some (String.ofList value)
    (allowed.find? (·.short? = some c)).map fun n => (n, value)
  | _ => none

/-- Understands the arguments of a command that has the options `allowed`. -/
def parts? (allowed : List Name) : List String → Option (List Part)
  | [] => some []
  | text :: rest =>
    if text = "--" then some (rest.map .file)
    else if !looksLikeOption text then (parts? allowed rest).map (.file text :: ·)
    else
      match option? allowed text with
      | none => none
      | some (name, some value) =>
        if name.takesValue then (parts? allowed rest).map (.value name value :: ·) else none
      | some (name, none) =>
        if !name.takesValue then (parts? allowed rest).map (.flag name :: ·)
        else
          match rest with
          | [] => none
          | value :: rest =>
            if looksLikeOption value && !name.takesHyphens then none
            else (parts? allowed rest).map (.value name value :: ·)

/-! ## Values -/

/-- Decimal digits, with an optional `+`. -/
def natural? (text : String) : Option Nat :=
  match text.toList with
  | '+' :: cs => Numeral.decimal? cs
  | cs => Numeral.decimal? cs

/-- Decimal digits, with an optional `+` or `-`. -/
def integer? (text : String) : Option Int :=
  match text.toList with
  | '-' :: cs => (Numeral.decimal? cs).map fun n => -(n : Int)
  | _ => (natural? text).map fun n => (n : Int)

/-- A count that fits 64 bits. -/
def count? (text : String) : Option Nat := (natural? text).filter (· < 0x10000000000000000)

/-- A word in decimal. -/
def word? (text : String) : Option Word :=
  ((integer? text).filter fun i => -0x80000000 ≤ i ∧ i < 0x80000000).map Int32.ofInt

/-- Words with commas between them. -/
def words? (text : String) : Option (List Word) := (text.splitOn ",").mapM word?

/-! ## Commands -/

/-- The values that an option is given, in order. -/
def valuesOf (name : Name) (parts : List Part) : List String :=
  parts.filterMap fun
    | .value n text => if n = name then some text else none
    | _ => none

/-- An option that may be given once, with a way to read its value. -/
def single? (read : String → Option α) (name : Name) (parts : List Part) : Option (Option α) :=
  match valuesOf name parts with
  | [] => some none
  | [text] => (read text).map some
  | _ => none

/-- A flag that may be given once. -/
def flag? (name : Name) (parts : List Part) : Option Bool :=
  match parts.count (.flag name) with
  | 0 => some false
  | 1 => some true
  | _ => none

/-- The name of a file is not empty. -/
def path? (text : String) : Option String := if text.isEmpty then none else some text

/-- The one file that every command has. -/
def file? (parts : List Part) : Option String :=
  match parts.filterMap fun | .file name => some name | _ => none with
  | [name] => path? name
  | _ => none

/-- The input words of all occurrences of the option. -/
def input? (parts : List Part) : Option (Option (List Word)) :=
  match valuesOf .input parts with
  | [] => some none
  | texts => (texts.mapM words?).map fun lists => some lists.flatten

def runOptions? (parts : List Part) : Option RunOptions := do
  return {
    input := ← input? parts
    dump := ← flag? .dump parts
    slice := ← single? count? .slice parts
    stackWords := ← single? count? .stackWords parts }

def runNames : List Name := [.input, .dump, .slice, .stackWords]

/-- The arguments ask for the version in front of any command. -/
def asksVersion (text : String) : Bool :=
  match text.toList with
  | '-' :: 'V' :: _ => true
  | _ => text = "--version"

/-- The command for a list of arguments. There is none if the arguments make no sense. -/
def command? : List String → Option Command
  | [] => none
  | "run" :: rest => do
    let parts ← parts? runNames rest
    return .run (← file? parts) (← runOptions? parts)
  | "compile" :: rest => do
    let parts ← parts? [.noOptimize] rest
    return .compile (← file? parts) (!(← flag? .noOptimize parts))
  | "assemble" :: rest => do
    let parts ← parts? [.output] rest
    let some output ← single? path? .output parts | none
    return .assemble (← file? parts) output
  | "exec" :: rest => do
    let parts ← parts? runNames rest
    return .exec (← file? parts) (← runOptions? parts)
  | "disassemble" :: rest => do
    return .disassemble (← file? (← parts? [] rest))
  | text :: _ => if asksVersion text then some .version else none

end Arguments

end WordLisp
