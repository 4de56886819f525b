import LuaTree.Node.Origin

/-!
# Tables of nodes

An arena is a table of nodes that refer to each other by handles, which are
indices into it. A node is never removed once it is there, and only two things
about it change: the link to the node that adopted it last, and the comments
that are found around a statement once it has been parsed. A new node adopts its
children; every link from a node to a child therefore goes to a smaller index,
and unfolding a handle into a tree ends.

Looking up a handle outside the table yields a childless node, which makes every
look-up total.
-/

namespace LuaTree

/-- A handle to a node: its index in the arena, in the order of creation. -/
structure NodeId where
  index : Nat
deriving DecidableEq, Repr, Inhabited

/-- The written form of a handle. -/
def NodeId.text (id : NodeId) : String :=
  "#" ++ toString id.index

structure Node where
  origin : Origin
  kind : Kind NodeId
  /-- The node that adopted this one last. -/
  parent : Option NodeId
deriving DecidableEq, Repr, Inhabited

structure Arena where
  nodes : Array Node
  /-- The node from which the program is read, once there is one. -/
  root : Option NodeId
deriving DecidableEq, Repr

namespace Arena

/-- The arena without nodes. -/
def empty : Arena := ⟨#[], none⟩

instance : Inhabited Arena := ⟨empty⟩

def size (a : Arena) : Nat :=
  a.nodes.size

/-- The handle of the node that will be added next. -/
def next (a : Arena) : NodeId :=
  ⟨a.size⟩

/-- Whether a handle names a node of the arena. -/
def contains (a : Arena) (id : NodeId) : Bool :=
  id.index < a.size

def get (a : Arena) (id : NodeId) : Node :=
  a.nodes.getD id.index default

def origin (a : Arena) (id : NodeId) : Origin :=
  (a.get id).origin

def span (a : Arena) (id : NodeId) : Span :=
  (a.origin id).span

def kind (a : Arena) (id : NodeId) : Kind NodeId :=
  (a.get id).kind

def parent (a : Arena) (id : NodeId) : Option NodeId :=
  (a.get id).parent

def children (a : Arena) (id : NodeId) : List NodeId :=
  (a.kind id).children

/-- The nodes after `owner` has adopted some of them. -/
def adopt (nodes : Array Node) (owner : NodeId) (children : List NodeId) : Array Node :=
  children.foldl
    (fun nodes child => nodes.modify child.index ({ · with parent := some owner })) nodes

/-- Add a node without a parent, which adopts its children. -/
def push (a : Arena) (origin : Origin) (kind : Kind NodeId) : Arena where
  nodes := (adopt a.nodes a.next kind.children).push ⟨origin, kind, none⟩
  root := a.root

/-- Put comments around a node in addition to those it has. -/
def attach (a : Arena) (id : NodeId) (leading trailing : List Comment) : Arena where
  nodes := a.nodes.modify id.index fun node =>
    { node with origin := node.origin.withComments leading trailing }
  root := a.root

def setRoot (a : Arena) (id : NodeId) : Arena :=
  { a with root := some id }

/-- Unfold a handle into a tree, marking each node by its handle. A link that does not go to a
smaller index is not followed. -/
def unfold {ι : Type} (a : Arena) (mark : NodeId → ι) (id : NodeId) : Tree ι :=
  .node (mark id) <| (a.kind id).map fun child =>
    if child.index < id.index then a.unfold mark child else .node (mark child) default
termination_by id.index

/-- The tree of handles below a handle. -/
def handles (a : Arena) (id : NodeId) : Tree NodeId :=
  a.unfold (fun child => child) id

/-- The tree below a handle with the origins of its nodes. -/
def tree (a : Arena) (id : NodeId) : SourceTree :=
  a.unfold a.origin id

/-- Whether the trees below two handles are equal but for their origins. -/
def same (a : Arena) (x : NodeId) (b : Arena) (y : NodeId) : Bool :=
  (a.handles x).same (b.handles y)

/-- Add the nodes of a tree, children first, and give the handle of its root. -/
def graft (t : SourceTree) : StateM Arena NodeId :=
  t.fold fun origin kind => do
    let kind ← kind.traverse id (List.mapM id)
    modifyGet fun a => (a.next, a.push origin kind)

/-- The arena that holds just the nodes of a tree, in postorder. Parsing a program fills an empty
arena to the one of its tree. -/
def ofTree (t : SourceTree) : Arena :=
  let (root, a) := (graft t).run empty
  a.setRoot root

@[simp] theorem size_adopt (nodes : Array Node) (owner : NodeId) (children : List NodeId) :
    (adopt nodes owner children).size = nodes.size := by
  unfold adopt
  induction children generalizing nodes with
  | nil => rfl
  | cons child children ih => simp [ih]

@[simp] theorem size_push (a : Arena) (origin : Origin) (kind : Kind NodeId) :
    (a.push origin kind).size = a.size + 1 := by
  simp [size, push]

end Arena

end LuaTree
