import LuaTree.Explorer.Style

/-!
# Drawing on a grid of cells

A screen is a list of rows and a row is a list of cells. Texts are drawn run by
run, one cell for each character, control characters included, and cut at the
edge of their area. Only the end of a line has no cell.

A grid has at most `maxCells` cells, so that 16 bits can number them; of a
terminal with more, a part in the same proportion is used.
-/

namespace LuaTree.Explorer

/-- A text in one style. -/
structure Run where
  text : String
  style : Style
deriving DecidableEq, Repr, Inhabited

structure Cell where
  char : Char
  fg : Color
  bg : Color
  bold : Bool
deriving DecidableEq, Repr, Inhabited

namespace Cell

/-- An empty cell of an area. -/
def empty (bg : Color) : Cell :=
  ⟨' ', .reset, bg, false⟩

/-- A character drawn on an area. -/
def drawn (ground : Color) (style : Style) (c : Char) : Cell :=
  ⟨c, style.fg.getD .reset, style.bg.getD ground, style.bold⟩

def looksLike (a b : Cell) : Bool :=
  a.fg == b.fg && a.bg == b.bg && a.bold == b.bold

end Cell

/-- The characters of a text that have a cell: all but the ends of lines, which are line feeds, each
with a carriage return directly before it if there is one. -/
def drawnChars : List Char → List Char
  | [] => []
  | '\r' :: '\n' :: rest => drawnChars rest
  | c :: rest => if c = '\n' then drawnChars rest else c :: drawnChars rest

/-- The cells of some runs. -/
def cellsOf (ground : Color) (runs : List Run) : List Cell :=
  runs.flatMap fun run => (drawnChars run.text.toList).map (Cell.drawn ground run.style)

/-- The most cells that a grid can have. -/
def maxCells : Nat := 0xFFFF

/-- The width and height of the grid on a terminal of the given width and height. -/
def gridSize (width height : Nat) : Nat × Nat :=
  if width * height ≤ maxCells then (width, height)
  else
    let ratio := width.toFloat / height.toFloat
    let rows := (maxCells.toFloat / ratio).sqrt
    ((rows * ratio).toUInt16.toNat, rows.toUInt16.toNat)

/-- Cells on a row of the given width, cut or filled up on the right. -/
def fitLeft (ground : Color) (width : Nat) (cells : List Cell) : List Cell :=
  (cells ++ List.replicate (width - cells.length) (Cell.empty ground)).take width

/-- Cells at the right end of a row; those too many are cut on the right. -/
def fitRight (ground : Color) (width : Nat) (cells : List Cell) : List Cell :=
  (List.replicate (width - cells.length) (Cell.empty ground) ++ cells).take width

/-- The text inside a box, as a row between its sides. -/
def boxRow (width : Nat) (style : Style) (line : List Run) : List Cell :=
  let side := cellsOf .reset [⟨"│", style⟩]
  side ++ fitLeft .reset (width - 2) (cellsOf .reset line) ++ side

/-- A box with a title in its upper side. Its size counts the sides. -/
def box (width height : Nat) (style : Style) (title : String) (lines : List (List Run)) :
    List (List Cell) :=
  let edge (left right : String) (label : List Char) : List Cell :=
    let bar := (label ++ List.replicate (width - 2 - label.length) '─').take (width - 2)
    cellsOf .reset [⟨left, style⟩, ⟨String.ofList bar, style⟩, ⟨right, style⟩]
  let inner := (lines ++ List.replicate (height - 2 - lines.length) []).take (height - 2)
  if height = 0 then []
  else
    edge "┌" "┐" title.toList :: inner.map (boxRow width style) ++
      if height = 1 then [] else [edge "└" "┘" []]

/-- Cells in a row with equal looks. -/
structure Stretch where
  text : String
  fg : Color
  bg : Color
  bold : Bool
deriving DecidableEq, Repr

/-- A row as the longest stretches of equal looks. -/
def stretches : List Cell → List Stretch
  | [] => []
  | cell :: cells =>
    let alike := cells.takeWhile cell.looksLike
    ⟨String.ofList (cell.char :: alike.map Cell.char), cell.fg, cell.bg, cell.bold⟩ ::
      stretches (cells.dropWhile cell.looksLike)
termination_by cells => cells.length
decreasing_by
  have := (List.dropWhile_suffix cell.looksLike (l := cells)).length_le
  simp only [List.length_cons]
  omega

end LuaTree.Explorer
