import LuaTree.Arena.Navigation
import LuaTree.Outline
import LuaTree.Text.Lines

/-!
# Exploring a program

The explorer shows a source text beside the outline of its tree. One row of the
outline is selected; the source follows the selection until it is scrolled by
hand. Keys change the state, and `settle` brings the scrolling in line with the
heights of the two panes, which is done before every drawing.
-/

namespace LuaTree

namespace Explorer

inductive Pane where
  | tree | source
deriving DecidableEq, Repr, Inhabited

def Pane.other : Pane → Pane
  | tree => source
  | source => tree

inductive Key where
  | up | down | pageUp | pageDown | home | last | tab | escape
  | char (c : Char)
  /-- A key that means nothing here. -/
  | other
deriving DecidableEq, Repr, Inhabited

/-- How many rows a page moves. -/
def page : Nat := 10

/-- The largest offset, which stands for the end of the source until the next drawing. -/
def maxOffset : Nat := 0xFFFFFFFFFFFFFFFF

structure SourceScroll where
  offset : Nat
  /-- Scrolled by hand since the selection last moved. -/
  manual : Bool
deriving DecidableEq, Repr, Inhabited

/-- The least change of `offset` that shows row `selected` in `height` rows, of which there is at
least one. -/
def follow (offset selected height : Nat) : Nat :=
  let height := max height 1
  if selected < offset then selected
  else if offset + height ≤ selected then selected + 1 - height
  else offset

/-- The rows of text in a pane, at least one. -/
def visibleRows (paneHeight : Nat) : Nat :=
  max (paneHeight - 2) 1

/-- The offset from which a line, counted from zero, is shown: the old one if it will do, else one
that shows the line a third of the way down. -/
def showLine (offset line visible : Nat) : Nat :=
  if offset ≤ line ∧ line < offset + visible then offset else line - visible / 3

end Explorer

open Explorer

structure Explorer where
  arena : Arena
  source : String
  /-- The outline of the tree. -/
  rows : List OutlineRow
  /-- The index of the selected row. -/
  selected : Nat
  focus : Pane
  sourceScroll : SourceScroll
  treeOffset : Nat
  quit : Bool
  status : String
deriving Repr

namespace Explorer

/-- An explorer of the tree at the root, if there is one. -/
def start (arena : Arena) (source : String) : Explorer where
  arena := arena
  source := source
  rows := (arena.root.map arena.outlineRows).getD []
  selected := 0
  focus := .tree
  sourceScroll := ⟨0, false⟩
  treeOffset := 0
  quit := false
  status := "Ready!"

variable (e : Explorer)

def selectedNode? : Option NodeId :=
  e.rows[e.selected]?.map OutlineRow.node

/-- The span of the selected node, if it has a place in the source. -/
def selectedSpan? : Option Span :=
  (e.selectedNode?.map e.arena.span).filter (!·.isSynthetic)

def lines : List (List Char) :=
  Text.lines e.source.toList

/-- Select a row, or the last one if there are not so many. -/
def select (index : Nat) : Explorer :=
  { e with
    selected := min index (e.rows.length - 1)
    sourceScroll := { e.sourceScroll with manual := false } }

/-- Scroll the source by hand. -/
def scrollTo (offset : Nat) : Explorer :=
  { e with sourceScroll := ⟨min offset maxOffset, true⟩ }

/-- Move in the focused pane: to a row of the tree or to a line of the source. -/
def move (row line : Nat) : Explorer :=
  match e.focus with
  | .tree => e.select row
  | .source => e.scrollTo line

def moveUp (count : Nat) : Explorer :=
  e.move (e.selected - count) (e.sourceScroll.offset - count)

def moveDown (count : Nat) : Explorer :=
  e.move (e.selected + count) (e.sourceScroll.offset + count)

/-- Select the first row that shows the parent of the selected node. -/
def selectParent : Explorer :=
  let row? := do
    let parent ← e.arena.parent (← e.selectedNode?)
    e.rows.findIdx? (·.node == parent)
  match row? with
  | some index => { e.select index with status := "Jumped to parent" }
  | none => { e with status := "Already at the root" }

def press : Key → Explorer
  | .char 'q' | .char 'Q' | .escape => { e with quit := true }
  | .tab => { e with focus := e.focus.other }
  | .up => e.moveUp 1
  | .down => e.moveDown 1
  | .pageUp => e.moveUp page
  | .pageDown => e.moveDown page
  | .home => e.move 0 0
  | .last => e.move maxOffset maxOffset
  | .char 'p' => e.selectParent
  | .char _ | .other => e

/-- The source offset for a pane of the given height: the first line of the selected node is shown
unless the source was scrolled by hand, and there is no empty space below the last line that
scrolling up could fill. -/
def settledSource (paneHeight : Nat) : Nat :=
  let visible := visibleRows paneHeight
  let offset := match e.selectedSpan?, e.sourceScroll.manual with
    | some span, false => showLine e.sourceScroll.offset (span.start.line - 1) visible
    | _, _ => e.sourceScroll.offset
  min offset (e.lines.length - visible)

/-- Bring both panes in line with their heights. -/
def settle (sourceHeight treeHeight : Nat) : Explorer :=
  { e with
    sourceScroll := { e.sourceScroll with offset := e.settledSource sourceHeight }
    treeOffset := follow e.treeOffset e.selected (treeHeight - 2) }

end Explorer

end LuaTree
