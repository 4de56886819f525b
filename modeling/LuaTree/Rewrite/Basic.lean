import LuaTree.Arena.Build

/-!
# Rewriting with shared subtrees

A rewriter maps nodes to replacements. By default it rewrites the children of a
node and adds a copy of the node only if a child came back different; the copy
has the origin of the node it replaces. What is not rewritten keeps its handle
and is shared between the old tree and the new one.

A rewriter may keep a state of its own. It says for a node what becomes of it,
with a `Descent` at hand to rewrite what is below, and for a list of children
what list takes its place, where `none` leaves the list as it is.
-/

namespace LuaTree

/-- An edit with a state of type `σ`. -/
abbrev Rewriting (σ α : Type) := StateT σ (ExceptT EditError (StateM Arena)) α

/-- How a rewriter goes on below a node. -/
structure Descent (σ : Type) where
  node : NodeId → Rewriting σ NodeId
  list : List NodeId → Rewriting σ (Option (List NodeId))

namespace Rewriting

variable {σ : Type}

/-- Rewrite the elements of a list in order. -/
def walkList (visit : NodeId → Rewriting σ NodeId) (list : List NodeId) :
    Rewriting σ (Option (List NodeId)) := do
  let replaced ← list.mapM visit
  return if replaced = list then none else some replaced

end Rewriting

namespace Descent

variable {σ : Type}

/-- Rewrite a child that stands alone, and note whether it changed. -/
def one (d : Descent σ) (child : NodeId) : StateT Bool (Rewriting σ) NodeId := do
  let replaced ← d.node child
  if replaced ≠ child then
    set true
  return replaced

/-- Rewrite a list of children, and note whether it changed. -/
def many (d : Descent σ) (list : List NodeId) : StateT Bool (Rewriting σ) (List NodeId) := do
  match ← d.list list with
  | none => return list
  | some replaced =>
    set true
    return replaced

/-- Rewrite the children of a node in order, and the node if one of them changed. -/
def walk (d : Descent σ) (id : NodeId) (kind : Kind NodeId) : Rewriting σ NodeId := do
  let (replaced, changed) ← (kind.traverse d.one d.many).run false
  if changed then Edit.rebuild id replaced else return id

end Descent

structure Rewriter (σ : Type) where
  /-- What becomes of a node. -/
  node : Descent σ → NodeId → Kind NodeId → Rewriting σ NodeId := Descent.walk
  /-- What becomes of a list of children. -/
  list : (NodeId → Rewriting σ NodeId) → List NodeId → Rewriting σ (Option (List NodeId)) :=
    Rewriting.walkList

namespace Rewriter

variable {σ : Type}

/-- Rewrite the tree below a handle and give the handle of its replacement. Below a node only
smaller indices are visited. -/
def rewrite (r : Rewriter σ) (id : NodeId) : Rewriting σ NodeId := do
  let visit (child : NodeId) : Rewriting σ NodeId :=
    if child.index < id.index then r.rewrite child else return child
  r.node ⟨visit, r.list visit⟩ id ((← getThe Arena).kind id)
termination_by id.index

/-- Rewrite the tree at the root, and make its replacement the root. -/
def rewriteRoot (r : Rewriter σ) (root : NodeId) : Rewriting σ NodeId := do
  let replaced ← r.rewrite root
  modifyThe Arena (·.setRoot replaced)
  return replaced

end Rewriter

end LuaTree
