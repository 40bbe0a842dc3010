/-!
# Lines of text

A line ends at a line feed, and a carriage return directly in front of the line feed belongs
to the ending. Text behind the last line feed is a line of its own unless it is empty.
-/

namespace WordLisp.Text

/-- The pieces between marks: the first piece, and those behind each mark. -/
def splitAt [DecidableEq α] (mark : α) : List α → List α × List (List α)
  | [] => ([], [])
  | c :: cs =>
    let (first, rest) := splitAt mark cs
    if c = mark then ([], first :: rest) else (c :: first, rest)

/-- The lines among the pieces of a text. Those that a mark ends are cleaned, and the last piece,
which no mark ends, is a line only if there is something in it. -/
def finishLines (clean : List α → List α) (first : List α) : List (List α) → List (List α)
  | [] => if first.isEmpty then [] else [first]
  | next :: rest => clean first :: finishLines clean next rest

/-- The lines that `mark` ends, each cleaned, and what stands behind the last mark. -/
def linesWith [DecidableEq α] (mark : α) (clean : List α → List α) (cs : List α) :
    List (List α) :=
  let (first, rest) := splitAt mark cs
  finishLines clean first rest

/-- Drops one carriage return at the end. -/
def dropReturn (cs : List Char) : List Char :=
  if cs.getLast? = some '\r' then cs.dropLast else cs

/-- The lines of a text, without their endings. -/
def lines (cs : List Char) : List (List Char) := linesWith '\n' dropReturn cs

end WordLisp.Text
