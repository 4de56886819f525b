/-!
# Lines of a text

A line ends at a line feed, and a carriage return before the line feed belongs
to the end of the line. A line feed at the very end begins no further line.
-/

namespace LuaTree.Text

/-- A line without the carriage return at its end. -/
def dropReturn (line : List Char) : List Char :=
  if line.getLast? = some '\r' then line.dropLast else line

/-- The lines of a text whose first line began with `line`, given in reverse. -/
def linesFrom (line : List Char) : List Char → List (List Char)
  | [] => if line.isEmpty then [] else [line.reverse]
  | c :: text =>
    if c = '\n' then dropReturn line.reverse :: linesFrom [] text
    else linesFrom (c :: line) text

/-- The lines of a text. -/
def lines (text : List Char) : List (List Char) :=
  linesFrom [] text

end LuaTree.Text
