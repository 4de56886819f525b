import LuaTree.Arena.Basic

/-!
# Finding the way in an arena

Upwards along the links to parents, sideways among the children of the parent,
and downwards through the children.
-/

namespace LuaTree.Arena

/-- The parent, its parent and so on. A link that does not go to a larger index inside the arena
is not followed. -/
def ancestors (a : Arena) (id : NodeId) : List NodeId :=
  match a.parent id with
  | none => []
  | some p => if id.index < p.index ∧ p.index < a.size then p :: a.ancestors p else [p]
termination_by a.size - id.index
decreasing_by omega

/-- The last of the ancestors; a node without a parent is its own. -/
def rootOf (a : Arena) (id : NodeId) : NodeId :=
  (a.ancestors id).getLastD id

/-- The first ancestor of a kind that satisfies `p`. -/
def nearestAncestor? (a : Arena) (id : NodeId) (p : Kind NodeId → Bool) : Option NodeId :=
  (a.ancestors id).find? fun ancestor => p (a.kind ancestor)

/-- The children of the parent. -/
def siblings? (a : Arena) (id : NodeId) : Option (List NodeId) :=
  (a.parent id).map a.children

/-- The place among the children of the parent. -/
def indexInParent? (a : Arena) (id : NodeId) : Option Nat := do
  (← a.siblings? id).findIdx? (· == id)

def previousSibling? (a : Arena) (id : NodeId) : Option NodeId := do
  match ← a.indexInParent? id with
  | 0 => none
  | index + 1 => (← a.siblings? id)[index]?

def nextSibling? (a : Arena) (id : NodeId) : Option NodeId := do
  let index ← a.indexInParent? id
  (← a.siblings? id)[index + 1]?

/-- The node and all below it, each before its children. -/
def preorder (a : Arena) (id : NodeId) : List NodeId :=
  (a.handles id).preorder

/-- All nodes below a node. -/
def descendants (a : Arena) (id : NodeId) : List NodeId :=
  (a.preorder id).tail

/-- All nodes below a node of a kind that satisfies `p`. -/
def descendantsWhere (a : Arena) (id : NodeId) (p : Kind NodeId → Bool) : List NodeId :=
  (a.descendants id).filter fun descendant => p (a.kind descendant)

/-- The statements of the block at the root, directly or under a chunk. -/
def topLevel (a : Arena) (root : NodeId) : List NodeId :=
  let block := match a.kind root with
    | .chunk block => block
    | _ => root
  match a.kind block with
  | .block statements => statements
  | _ => []

end LuaTree.Arena
