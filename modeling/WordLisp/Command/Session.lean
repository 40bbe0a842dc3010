import WordLisp.Build
import WordLisp.Command.Arguments
import WordLisp.Image
import WordLisp.Listing.Reader
import WordLisp.Machine.Dump
import WordLisp.Machine.Step
import WordLisp.Machine.Terminal

/-!
# Commands at work

What a command does with the file that it reads. `Command.plan` goes as far as it can without
running a program, and `conclude` has the last word when a program has run. `Command.reply` is the
whole of it for files and input that are known beforehand.
-/

namespace WordLisp

/-- How the program calls itself. -/
def programName : String := "lispcpu"

/-- The content of a file. -/
abbrev Bytes := List UInt8

/-- The text that bytes encode. -/
def Bytes.text? (bytes : Bytes) : Option String := String.fromUTF8? ⟨bytes.toArray⟩

/-! ## Failures -/

inductive Failure where
  | unreadable (path reason : String)
  | unwritable (path reason : String)
  | source (error : SourceError)
  | assembly (error : AssemblyError)
  | fault (cause : Fault)
  deriving DecidableEq, Repr

namespace Failure

def ofBuildError : BuildError → Failure
  | .source error => source error
  | .assembly error => assembly error

/-- The sentence, with its reason below if it has one. -/
def message : Failure → String
  | unreadable path reason => s!"could not read {path}\n\nCaused by:\n    {reason}"
  | unwritable path reason => s!"could not write {path}\n\nCaused by:\n    {reason}"
  | source error => error.message
  | assembly error => error.message
  | fault cause => cause.message

def report (failure : Failure) : String := s!"Error: {failure.message}\n"

end Failure

/-! ## Input and output of programs -/

/-- The line that shows an output. -/
def Output.text : Output → String
  | console value => Word.text value ++ "\n"
  | alert value => "[ALERT] " ++ Word.text value ++ "\n"

/-- Everything from index `shown` on that a program has sent out. -/
def Terminal.outputText (t : Terminal) (shown : Nat) : String :=
  String.join ((t.output.toList.drop shown).map Output.text)

/-- The word on a line of input, which is `0` if there is none to be read. -/
def inputWord (line : String) : Word := (Word.ofChars? (Text.trim line.toList)).getD 0

/-- The word on every line of input. A line that is no text has none. -/
def inputWords (bytes : Bytes) : List Word :=
  (Text.linesWith 10 id bytes).map fun line => ((Bytes.text? line).map inputWord).getD 0

/-! ## Input on demand

Input that is not known beforehand is asked for when the program wants it. To find out, the queue
gets one more word at its end: a step that takes this word needs input that is not there yet. -/

/-- How many of the next `budget` steps leave some input in the queue, up to the first that does
not. -/
def Machine.stepsWithInput : (budget : Nat) → Machine Terminal → Nat
  | 0, _ => 0
  | budget + 1, m =>
    match m.step with
    | .ok status m =>
      if m.memory.device.input.isEmpty then 0
      else if status = .halted then 1
      else m.stepsWithInput budget + 1
    | .error _ m => if m.memory.device.input.isEmpty then 0 else 1

/-- Adds a word at the end of the queue. -/
def Terminal.addInput (t : Terminal) (word : Word) : Terminal :=
  { t with input := t.input ++ [word] }

/-- Takes the last word out of the queue again. -/
def Terminal.dropLastInput (t : Terminal) : Terminal := { t with input := t.input.dropLast }

/-! ## Plans -/

/-- What remains to be done when the file of a command has been read. -/
inductive Plan where
  | print (text : String)
  | write (path : String) (content : Bytes)
  | execute (machine : Machine Terminal) (dump : Bool)

namespace RunOptions

def config (options : RunOptions) : Config :=
  let standard : Config := {}
  { standard with
    stackWords := options.stackWords.getD standard.stackWords
    sliceSteps := options.slice.getD standard.sliceSteps }

/-- The machine with a program in it. Lines of `input` serve where the options give no words. -/
def machine (options : RunOptions) (words : List Word) (input : Bytes) :
    Except Failure (Machine Terminal) :=
  let config := options.config
  let terminal : Terminal :=
    { width := config.screenWidth
      height := config.screenHeight
      input := options.input.getD (inputWords input) }
  match Machine.load words (Machine.new terminal config) with
  | .ok _ machine => .ok machine
  | .error fault _ => .error (.fault fault)

def plan (options : RunOptions) (words : List Word) (input : Bytes) : Except Failure Plan := do
  return .execute (← options.machine words input) options.dump

end RunOptions

namespace Command

/-- The file that the command reads. -/
def file? : Command → Option String
  | version => none
  | run path _ | compile path _ | assemble path _ | exec path _ | disassemble path => some path

/-- The command takes its input from outside. -/
def readsInput : Command → Bool
  | run _ options | exec _ options => options.input.isNone
  | _ => false

/-- The text of a file that must be text. -/
def textOf (path : String) (content : Bytes) : Except Failure String :=
  match content.text? with
  | some text => .ok text
  | none => .error (.unreadable path "stream did not contain valid UTF-8")

def plan (command : Command) (content input : Bytes) : Except Failure Plan :=
  match command with
  | version => return .print s!"{programName} 0.1.0\n"
  | run path options => do
    let words ← (build (← textOf path content)).mapError .ofBuildError
    options.plan words input
  | compile path optimize => do
    return .print (← (listingText optimize (← textOf path content)).mapError .source)
  | assemble path output => do
    let listing ← (Listing.parse (← textOf path content)).mapError .assembly
    return .write output (Image.toBytes (← listing.assemble.mapError .assembly))
  | exec _ options => do
    let words ← (Image.ofBytes content).mapError .assembly
    options.plan words input
  | disassemble _ => do
    return .print (Image.disassembly (← (Image.ofBytes content).mapError .assembly))

end Command

/-! ## Replies -/

/-- What the user sees of a command. -/
structure Reply where
  exit : Nat := 0
  stdout : String := ""
  stderr : String := ""
  /-- The file that the command has written. -/
  written : Option (String × Bytes) := none

/-- The reply to a command that has failed after it had printed `stdout`. -/
def Failure.reply (failure : Failure) (stdout : String) : Reply :=
  { exit := 1, stdout, stderr := failure.report }

/-- What is said at the end of a run: the state of the machine if it is wanted, and the value of
the program if it has halted. -/
def conclude (dump : Bool) (machine : Machine Terminal) (fault : Option Fault) : Reply :=
  let state := if dump then machine.dump ++ "\n" else ""
  match fault with
  | some fault => (Failure.fault fault).reply state
  | none =>
    let value := match machine.result? with
      | some word => "main returned " ++ Word.text word ++ "\n"
      | none => ""
    { stdout := state ++ value }

/-- Runs a program for no more than `slices` slices, and shows what it sends out. -/
def Machine.session? (slices : Nat) (dump : Bool) (machine : Machine Terminal) : Option Reply :=
  match machine.run slices with
  | .ok .running _ => none
  | .ok .halted final => some (reply final none)
  | .error fault final => some (reply final (some fault))
where
  reply (final : Machine Terminal) (fault : Option Fault) : Reply :=
    let last := conclude dump final fault
    { last with stdout := final.memory.device.outputText 0 ++ last.stdout }

/-- The files that a command finds: their content, or why there is none. -/
structure Files where
  read : String → Except String Bytes
  /-- Why a file cannot be written, if it cannot. -/
  refuse? : String → Option String

/-- The reply to a command, unless a program has not halted after `slices` slices. -/
def Command.reply? (command : Command) (slices : Nat) (files : Files) (input : Bytes) :
    Option Reply :=
  let content : Except Failure Bytes := match command.file? with
    | none => .ok []
    | some path => (files.read path).mapError (.unreadable path)
  match content.bind fun bytes => command.plan bytes input with
  | .error failure => some (failure.reply "")
  | .ok (.print text) => some { stdout := text }
  | .ok (.write path bytes) =>
    match files.refuse? path with
    | some reason => some ((Failure.unwritable path reason).reply "")
    | none => some { written := some (path, bytes) }
  | .ok (.execute machine dump) => machine.session? slices dump

end WordLisp
