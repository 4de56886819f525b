import LuaTree.Arena.Basic

/-!
# Outlines

An outline lists the nodes of a tree, one on each row, every node before its
children and one step less deep. Guides of box-drawing characters show the
depth.
-/

namespace LuaTree

/-- A node in an outline. -/
structure OutlineRow where
  depth : Nat
  label : String
  node : NodeId
deriving DecidableEq, Repr, Inhabited

namespace OutlineRow

/-- The guide that leads to a row. -/
def guide (row : OutlineRow) : String :=
  match row.depth with
  | 0 => ""
  | depth + 1 => String.join (List.replicate depth "│ ") ++ "├──"

end OutlineRow

namespace Tree

/-- The rows of a tree whose root stands at the given depth. -/
def outlineFrom : Tree NodeId → Nat → List OutlineRow :=
  fold fun id kind depth =>
    ⟨depth, kind.label, id⟩ :: kind.children.flatMap fun rows => rows (depth + 1)

end Tree

namespace Arena

/-- The rows of the tree below a handle. -/
def outlineRows (a : Arena) (id : NodeId) : List OutlineRow :=
  (a.handles id).outlineFrom 0

/-- A row as a line, with the position of its node if that is asked for and known. -/
def outlineLine (a : Arena) (positions : Bool) (row : OutlineRow) : String :=
  let span := a.span row.node
  row.guide ++ row.label ++
    if positions && !span.isSynthetic then " @" ++ span.start.text else ""

/-- The outline of the tree below a handle as text. -/
def outline (a : Arena) (id : NodeId) (positions : Bool) : String :=
  String.join ((a.outlineRows id).map fun row => a.outlineLine positions row ++ "\n")

end Arena

end LuaTree
