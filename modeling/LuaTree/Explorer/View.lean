import LuaTree.Explorer.Highlight
import LuaTree.Explorer.State
import LuaTree.Text.Align

/-!
# The screen of the explorer

The source stands on the left, the outline on the right, and the status bar
below both. The source takes 55 of 100 columns, rounded to the nearest.
-/

namespace LuaTree.Explorer

/-- A share of the columns in percent, a half rounded up. -/
def share (percent width : Nat) : Nat :=
  (percent * width + 50) / 100

def borderStyle (focused : Bool) : Style :=
  if focused then (Style.ofColor Palette.focusedBorder).strong else .ofColor Palette.border

/-- A line of the source with its number; an arrow marks the first line of the selected node. -/
def sourceLine (selected : Option Span) (number : Nat) (line : List Char) : List Run :=
  let covered := selected.any (·.coversLine number)
  let arrow := if selected.any (·.start.line == number) then "▶" else " "
  let numberStyle :=
    if covered then (Style.ofColor Palette.spanNumber).strong else .ofColor Palette.faint
  let paint (style : Style) : Style := if covered then style.on Palette.spanGround else style
  ⟨Text.alignRight 4 (toString number) ++ arrow ++ " ", numberStyle⟩ ::
    (highlight line).map fun part => ⟨String.ofList part.text, paint part.shade.style⟩

/-- The label of a row, divided behind the name of the kind. -/
def labelParts (label : String) : String × String :=
  let chars := label.toList
  (String.ofList (chars.takeWhile (· != ' ')), String.ofList (chars.dropWhile (· != ' ')))

/-- A row of the outline. -/
def treeLine (selected : Bool) (row : OutlineRow) : List Run :=
  let paint (style : Style) : Style :=
    if selected then (style.on Palette.selectedGround).strong else style
  let (kind, detail) := labelParts row.label
  [⟨row.guide, paint (.ofColor Palette.faint)⟩,
    ⟨kind, paint (.ofColor Palette.nodeKind)⟩,
    ⟨detail, paint (.ofColor Palette.text)⟩]

def barStyle (color : Color) : Style :=
  (Style.ofColor color).on Palette.spanGround

def badge (color : Color) : Style :=
  ((Style.ofColor .black).on color).strong

def divider : Run :=
  ⟨"│", barStyle Palette.faint⟩

/-- The keys that the status bar explains. -/
def keyHelp : List Run :=
  let key (text : String) : Run := ⟨text, (Style.ofColor .black).on Palette.faint⟩
  let note (text : String) : Run := ⟨text, barStyle Palette.text⟩
  [key " ↑/↓ ", note " move ", divider, note " ", key " p ", note " parent ", divider, note " ",
    key " ⇥ ", note " focus ", divider, note " ", key "q", note " quit "]

variable (e : Explorer)

/-- What the status bar says of the selected node. -/
def nodeHelp : List Run :=
  match e.selectedNode? with
  | none => [⟨" EMPTY ", badge Palette.success⟩]
  | some id =>
    let span := e.arena.span id
    let place := if span.isSynthetic then "synthetic" else span.start.text ++ "-" ++ span.stop.text
    let parent := match e.arena.parent id with
      | some parent => "parent " ++ parent.text
      | none => "root"
    [⟨" " ++ id.text ++ " " ++ (e.arena.kind id).name ++ " ", badge Palette.accent⟩,
      ⟨" " ++ place ++ " ", barStyle Palette.text⟩, divider,
      ⟨" " ++ parent ++ " ", barStyle Palette.text⟩, divider]

def statusBar (width : Nat) : List Cell :=
  let ground := Palette.spanGround
  let left := share 50 width
  let message : Run := ⟨" " ++ e.status ++ " ", barStyle Palette.text⟩
  fitLeft ground left (cellsOf ground (e.nodeHelp ++ [message])) ++
    fitRight ground (width - left) (cellsOf ground keyHelp)

def sourcePane (width height : Nat) : List (List Cell) :=
  let shown := (e.lines.drop e.sourceScroll.offset).take (visibleRows height)
  box width height (borderStyle (e.focus == .source)) " Source " <|
    shown.mapIdx fun index line =>
      sourceLine e.selectedSpan? (e.sourceScroll.offset + index + 1) line

def treePane (width height : Nat) : List (List Cell) :=
  let shown := (e.rows.drop e.treeOffset).take (height - 2)
  let title := " Syntax Tree (" ++ toString e.rows.length ++ " nodes) "
  box width height (borderStyle (e.focus == .tree)) title <|
    shown.mapIdx fun index row => treeLine (e.treeOffset + index == e.selected) row

/-- The screen, row by row. The state must have been settled for the panes, which
are one row less high. -/
def view (width height : Nat) : List (List Cell) :=
  let left := share 55 width
  let panes := List.zipWith (· ++ ·) (e.sourcePane left (height - 1))
    (e.treePane (width - left) (height - 1))
  if height = 0 then [] else panes ++ [e.statusBar width]

end LuaTree.Explorer
