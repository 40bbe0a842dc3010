import WordLisp.Frame
import WordLisp.Listing.Basic
import WordLisp.SymbolPool

/-!
# Code generation

From items to a listing. The program begins with a call of the entry function and a jump below
the program, which halts the machine. Then come the functions, each with the size of its frame in
front, and then the data: globals, and the constants in the order of their first use.

Every expression leaves its value in the left register. An expression that is compiled at slot
`t` uses slots from `t` on for intermediate values and leaves those below alone.

A generator can be used for several programs. Its tables last, and what a program that fails
has already produced stays behind and comes out with the next program that succeeds.
-/

namespace WordLisp

/-- The name of the function that a program starts with. -/
def entryPoint : String := "main"

structure Generator where
  /-- The number for the tags of the next conditional or loop. -/
  nextTag : Nat := 0
  globals : List String := []
  /-- The functions with the number of their parameters. -/
  functions : List (String × Nat) := []
  /-- The tags of the constants that are among the data. -/
  constants : List String := []
  symbols : SymbolPool := {}
  code : Array Record := #[]
  data : Array Record := #[]

namespace Generator

/-- An action yields the generator that it leaves also when it fails. -/
abbrev Action := EStateM SourceError Generator

/-! ## Output -/

def emitRecord (record : Record) : Action Unit :=
  modify fun g => { g with code := g.code.push record }

def emit (i : Instruction) : Action Unit := emitRecord (.instruction i)

def emitTag (name : String) : Action Unit := emitRecord (.tag name)

/-- Adds a word of data with a tag of its own. -/
def emitData (tag : String) (value : Word) : Action Unit :=
  modify fun g => { g with data := (g.data.push (.tag tag)).push (.data value) }

/-- Makes sure that a constant is among the data. -/
def useConstant (tag : String) (value : Word) : Action Unit := do
  unless (← get).constants.contains tag do
    modify fun g => { g with constants := tag :: g.constants }
    emitData tag value

def freshTag : Action Nat :=
  modifyGet fun g => (g.nextTag, { g with nextTag := g.nextTag + 1 })

def internSymbol (name : String) : Action Word :=
  modifyGet fun g =>
    let ((id, _), symbols) := g.symbols.intern name
    (id, { g with symbols })

/-! ## Instructions -/

def toTag (opcode : Opcode) (name : String) : Instruction := .addressed opcode (.tag name)

def loadSlot (slot : Nat) : Instruction := .frame (.load .left .frame false) (Int32.ofNat slot)

def storeSlot (slot : Nat) : Instruction := .frame (.store .left .frame false) (Int32.ofNat slot)

/-- The instruction that loads or stores a variable: a local if the frame has it, otherwise a
global. -/
def accessVariable (make : Register → Base → Bool → Opcode) (frame : Frame) (name : String)
    (indirect : Bool) : Action Instruction := do
  match frame.slot? name with
  | some slot => return .frame (make .left .frame indirect) (Int32.ofNat slot)
  | none =>
    if (← get).globals.contains name then return toTag (make .left .program indirect) name
    else throw (.undeclared name)

/-- Moves `count` arguments from the slots from `slot` on to where the called function finds
them. The cells there belong to no frame and every call uses them, so this waits until all
arguments are known. -/
def passArguments (frame : Frame) (slot count : Nat) : Action Unit :=
  (List.range count).forM fun i => do
    emit (loadSlot (slot + i))
    emit (storeSlot (frame.argumentSlot i))

/-! ## Expressions -/

mutual

def expression (frame : Frame) (slot : Nat) : Expr → Action Unit
  | .literal value => do
    let tag := "lit." ++ Word.text value
    useConstant tag value
    emit (toTag (.load .left .program false) tag)
  | .symbol name => do
    let tag := "sym." ++ name
    useConstant tag (← internSymbol name)
    emit (toTag (.load .left .program false) tag)
  | .reference name indirect => do
    emit (← accessVariable .load frame name indirect)
  | .declare name value => do
    expression frame slot value
    emit (← accessVariable .store frame name false)
  | .assign name indirect value => do
    expression frame slot value
    emit (← accessVariable .store frame name indirect)
  | .cond test yes no => do
    let number := Numeral.natural (← freshTag)
    let thenTag := "if.then." ++ number
    let endTag := "if.end." ++ number
    expression frame slot test
    emit (toTag (.branch .left) thenTag)
    block frame slot no
    emit (toTag .jump endTag)
    emitTag thenTag
    block frame slot yes
    emitTag endTag
  | .loop test body => do
    let number := Numeral.natural (← freshTag)
    let topTag := "loop.top." ++ number
    let bodyTag := "loop.body." ++ number
    let endTag := "loop.end." ++ number
    emitTag topTag
    expression frame slot test
    emit (toTag (.branch .left) bodyTag)
    emit (toTag .jump endTag)
    emitTag bodyTag
    block frame slot body
    emit (toTag .jump topTag)
    emitTag endTag
  | .unary operator operand => do
    expression frame slot operand
    emit (.unary (.unary .left) operator)
  | .binary operator left right => do
    expression frame slot left
    emit (storeSlot slot)
    expression frame (slot + 1) right
    emit (.nullary .swap)
    emit (loadSlot slot)
    emit (.binary (.binary .left) operator)
  | .apply name args => do
    match (← get).functions.lookup name with
    | none => throw (.undeclaredFunction name)
    | some arity =>
      if arity ≠ args.length then throw (.callArity name arity args.length)
      arguments frame slot args
      passArguments frame slot args.length
      emit (toTag .call name)
      emit (loadSlot frame.returnSlot)

/-- Expressions one after the other. -/
def block (frame : Frame) (slot : Nat) : List Expr → Action Unit
  | [] => pure ()
  | e :: es => do
    expression frame slot e
    block frame slot es

/-- Expressions one after the other, each value kept in a slot of its own from `slot` on. -/
def arguments (frame : Frame) (slot : Nat) : List Expr → Action Unit
  | [] => pure ()
  | e :: es => do
    expression frame slot e
    emit (storeSlot slot)
    arguments frame (slot + 1) es

end

/-! ## Programs -/

/-- A function leaves its value below its frame, in the return slot of its caller. -/
def function (f : Function) : Action Unit := do
  match Frame.allocate f with
  | .error error => throw error
  | .ok frame =>
    emitRecord (.data (Int32.ofNat frame.size))
    emitTag f.name
    block frame frame.tempStart f.body
    emit (.frame (.store .left .frame false) (-2))
    emit (.nullary .ret)

/-- The name belongs to a global or to a function. -/
def declares (g : Generator) (name : String) : Bool :=
  g.globals.contains name || (g.functions.lookup name).isSome

/-- Makes an item known, and gives a global its cell. -/
def declare (item : Item) : Action Unit := do
  match item with
  | .global name value =>
    if (← get).declares name then throw (.redeclared name)
    match value with
    | .literal word =>
      modify fun g => { g with globals := name :: g.globals }
      emitData name word
    | _ => throw (.nonConstantGlobal name)
  | .function f =>
    if (← get).declares f.name then throw (.redeclared f.name)
    modify fun g => { g with functions := (f.name, f.parameters.length) :: g.functions }

/-- There must be an entry function without parameters. -/
def checkEntry : Action Unit := do
  match (← get).functions.lookup entryPoint with
  | none => throw (.undeclaredFunction entryPoint)
  | some 0 => return
  | some arity => throw (.entryArity arity)

/-- Takes out all code and data. -/
def drain : Action Listing :=
  modifyGet fun g => (g.code.toList ++ g.data.toList, { g with code := #[], data := #[] })

/-- Compiles a program. Every item is declared before any function is compiled, so that
functions may call those that come later. -/
def program (items : List Item) : Action Listing := do
  items.forM declare
  checkEntry
  items.forM fun item =>
    match item with
    | .function f => function f
    | .global _ _ => pure ()
  let body ← drain
  return .instruction (toTag .call entryPoint) ::
    .instruction (.addressed .jump (.offset (-1))) :: body

end Generator

end WordLisp
