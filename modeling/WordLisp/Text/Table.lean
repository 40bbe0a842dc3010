/-!
# Tables

Columns of text under titles. A cell may have several lines, so that a table can be a cell of
another. Every line of a cell is padded to the width of its column and a short cell is filled up
with empty lines.
-/

namespace WordLisp.Text

inductive Align where
  | left | right
  deriving DecidableEq, Repr

structure Cell where
  align : Align := .left
  lines : List String

structure Table where
  titles : List Cell
  rows : List (List Cell)

namespace Cell

def ofText (align : Align) (text : String) : Cell := ⟨align, [text]⟩

def width (c : Cell) : Nat := c.lines.foldl (fun n line => max n line.length) 0

/-- A line of the cell, with one space on either side. -/
def padded (c : Cell) (width : Nat) (line : String) : String :=
  let fill := String.ofList (List.replicate (width - line.length) ' ')
  match c.align with
  | .left => " " ++ line ++ fill ++ " "
  | .right => " " ++ fill ++ line ++ " "

end Cell

namespace Table

/-- The width of each column, its title included. -/
def widths (t : Table) : List Nat :=
  t.rows.foldl (fun ws row => List.zipWith max ws (row.map Cell.width)) (t.titles.map Cell.width)

/-- The lines of one row. -/
def rowLines (widths : List Nat) (row : List Cell) : List String :=
  let height := row.foldl (fun n c => max n c.lines.length) 0
  (List.range height).map fun i =>
    let cells := List.zipWith (fun (c : Cell) w => c.padded w (c.lines.getD i "")) row widths
    " " ++ String.intercalate "│" cells ++ " "

/-- A line across all columns, with `joint` where two of them meet. -/
def rule (widths : List Nat) (joint : String) : String :=
  let dashes (w : Nat) := String.ofList (List.replicate (w + 2) '─')
  " " ++ String.intercalate joint (widths.map dashes) ++ " "

/-- The titles over a rule, the rows, and a rule below. -/
def lines (t : Table) : List String :=
  let ws := t.widths
  rowLines ws t.titles ++ [rule ws "┼"] ++ t.rows.flatMap (rowLines ws) ++ [rule ws "┴"]

/-- The table as one cell of another. -/
def toCell (t : Table) : Cell := ⟨.left, t.lines⟩

def text (t : Table) : String := String.join (t.lines.map (· ++ "\n"))

end Table

end WordLisp.Text
