import WordLisp.Command.Session

/-!
# The program

Files, standard input and output, and the exit code. What a program sends out is printed slice by
slice, and standard input is read a line at a time, when the program wants a word of it.
-/

namespace WordLisp

def usage : String :=
  s!"Usage: {programName} run|compile|assemble|exec|disassemble FILE [OPTIONS]"

/-- Prints what a program has sent out since the last time. -/
def showOutput (machine : Machine Terminal) (shown : Nat) : IO Nat := do
  IO.print (machine.memory.device.outputText shown)
  (← IO.getStdout).flush
  return machine.memory.device.output.size

/-- The next line of standard input, unless there is none. -/
def nextLine? : IO (Option String) := do
  let line ← try (← IO.getStdin).getLine catch _ => pure "\n"
  return if line.isEmpty then none else some line

/-- Runs a program to its end. `asking` says that standard input is not used up, and `shown`
outputs have been printed. -/
partial def execute (dump asking : Bool) (shown : Nat) (machine : Machine Terminal) : IO Reply := do
  let ahead := if asking then machine.mapDevice (·.addInput 0) else machine
  let budget := machine.sliceSteps
  let steps := if asking then ahead.stepsWithInput budget else budget
  let behind (m : Machine Terminal) := if asking then m.mapDevice (·.dropLastInput) else m
  match ahead.slice steps with
  | .ok .halted machine =>
    let _ ← showOutput machine shown
    return conclude dump machine none
  | .error fault machine =>
    let _ ← showOutput machine shown
    return conclude dump machine (some fault)
  | .ok .running machine =>
    let machine := behind machine
    let shown ← showOutput machine shown
    if steps = budget then execute dump asking shown machine
    else
      match ← nextLine? with
      | some line => execute dump asking shown (machine.mapDevice (·.addInput (inputWord line)))
      | none => execute dump false shown machine

/-- Why the system could not use a file. -/
def reason : IO.Error → String
  | .noFileOrDirectory .. => "No such file or directory (os error 2)"
  | error => toString error

def perform (asking : Bool) : Plan → IO Reply
  | .print text => return { stdout := text }
  | .write path content =>
    try
      IO.FS.writeBinFile path ⟨content.toArray⟩
      return {}
    catch error => return (Failure.unwritable path (reason error)).reply ""
  | .execute machine dump => execute dump asking 0 machine

/-- The content of the file that a command reads. -/
def readContent (command : Command) : IO (Except Failure Bytes) :=
  match command.file? with
  | none => return .ok []
  | some path =>
    try return .ok (← IO.FS.readBinFile path).toList
    catch error => return .error (.unreadable path (reason error))

def answer (command : Command) : IO Reply := do
  match (← readContent command).bind fun content => command.plan content [] with
  | .ok plan => perform command.readsInput plan
  | .error failure => return failure.reply ""

end WordLisp

open WordLisp in
/-- Carries out the command that the arguments ask for. -/
def main (args : List String) : IO UInt32 := do
  match Arguments.command? args with
  | none =>
    IO.eprintln usage
    return 2
  | some command =>
    let reply ← answer command
    IO.print reply.stdout
    IO.eprint reply.stderr
    return reply.exit.toUInt32
