import WordLisp.Machine.State
import WordLisp.Text.Table

/-!
# The dump

A picture of a machine for the user: whether it has halted, its registers, and the cells of the
current frame.
-/

namespace WordLisp

def Status.sentence : Status → String
  | halted => "Halted."
  | running => "Running."

namespace Machine

open Text (Align Cell Table)

/-- A table of names, flush right, and contents. -/
def contentsTable (title : String) (rows : List (String × String)) : Table where
  titles := [.ofText .right title, .ofText .left "Contents"]
  rows := rows.map fun (name, contents) => [.ofText .right (name ++ " ="), .ofText .left contents]

def registerTable (m : Machine D) : Table :=
  let r := m.registers
  contentsTable "Register"
    [("PC", Word.patternText r.pc), ("L", Word.text r.left), ("R", Word.text r.right),
      ("SPL", Word.patternText r.frameBase), ("SPR", Word.patternText r.stackTop),
      ("steps", Numeral.natural m.steps)]

/-- The row of cell `i` of the frame, with a mark on the base. Only cells in memory have
contents. -/
def frameRow (m : Machine D) (i : Nat) : String × String :=
  let name := "S[" ++ Numeral.natural i ++ "]"
  let contents := match m.memory.peek? (m.registers.frameBase + Int32.ofNat i) with
    | some word => Word.text word
    | none => ""
  (if i = 0 then "* --> " ++ name else name, contents)

/-- The number of cells between the base of the frame and the top of the stack. -/
def frameCells (m : Machine D) : Nat :=
  (m.registers.stackTop.toInt - m.registers.frameBase.toInt).toNat

def frameTable (m : Machine D) : Table :=
  contentsTable "Address" ((List.range m.frameCells).map m.frameRow)

def dump (m : Machine D) : String :=
  let both : Table :=
    { titles := [.ofText .left "Registers", .ofText .left "Frame"]
      rows := [[m.registerTable.toCell, m.frameTable.toCell]] }
  m.status.sentence ++ "\n" ++ both.text

end Machine

end WordLisp
