import LuaTree.Arena.Basic

/-!
# Building nodes by hand

An edit adds nodes to an arena. It fails when a node would adopt the same child
twice; nodes that were added before that stay.

Nodes built here have no place in a source text.
-/

namespace LuaTree

/-- Why an edit stops. -/
inductive EditError where
  /-- The node would name a child twice; `node` is the handle it would have had. -/
  | sharedChild (node : NodeId)
  /-- No node of the arena has the handle. -/
  | missing (node : NodeId)
deriving DecidableEq, Repr

def EditError.message : EditError → String
  | sharedChild node => "node " ++ node.text ++ " would adopt the same child twice"
  | missing node => "no node " ++ node.text

/-- An action that adds nodes to an arena. -/
abbrev Edit (α : Type) := ExceptT EditError (StateM Arena) α

namespace Edit

/-- Add a node, which adopts its children. A repeated child is refused before the arena changes.
Refusing it is what debug builds do; release builds do not look for one. -/
def alloc (kind : Kind NodeId) (origin : Origin) : Edit NodeId := do
  let a ← get
  if ¬ kind.children.Nodup then
    throw (.sharedChild a.next)
  match kind.children.find? (fun child => !a.contains child) with
  | some child => throw (.missing child)
  | none =>
    set (a.push origin kind)
    return a.next

/-- A node that must be there. -/
def lookUp (id : NodeId) : Edit Node := do
  let a ← get
  if a.contains id then return a.get id else throw (.missing id)

/-- Add a replacement for a node, with the same origin. -/
def rebuild (id : NodeId) (kind : Kind NodeId) : Edit NodeId := do
  alloc kind ((← get).origin id)

/-- Add a node outside every source text. -/
def make (kind : Kind NodeId) : Edit NodeId :=
  alloc kind default

def identifier (name : String) : Edit NodeId :=
  make (.identifier name)

def literal (value : String) (kind : LiteralKind) : Edit NodeId :=
  make (.literal ⟨value, kind⟩)

def number (text : String) : Edit NodeId :=
  literal text .number

/-- A string in double quotes; `text` stands between them unchanged. -/
def string (text : String) : Edit NodeId :=
  literal text (.string '"')

def boolean (value : Bool) : Edit NodeId :=
  literal (if value then "true" else "false") .boolean

def nil : Edit NodeId :=
  literal "nil" .nil

def binary (op : BinaryOp) (left right : NodeId) : Edit NodeId :=
  make (.binary op left right)

def unary (op : UnaryOp) (operand : NodeId) : Edit NodeId :=
  make (.unary op operand)

def paren (inner : NodeId) : Edit NodeId :=
  make (.paren inner)

def call (callee : NodeId) (args : List NodeId) : Edit NodeId :=
  make (.functionCall callee args)

/-- `table.name`: first the name, then the access. -/
def field (table : NodeId) (name : String) : Edit NodeId := do
  let key ← identifier name
  make (.access .dot table key)

/-- `table[key]` -/
def index (table key : NodeId) : Edit NodeId :=
  make (.access .bracket table key)

def block (statements : List NodeId) : Edit NodeId :=
  make (.block statements)

def expressionStatement (expression : NodeId) : Edit NodeId :=
  make (.expressionStatement expression)

def assignment (targets values : List NodeId) : Edit NodeId :=
  make (.assignment targets values)

def localNames (names values : List NodeId) : Edit NodeId :=
  make (.localNames names values)

def returning (values : List NodeId) : Edit NodeId :=
  make (.returning values)

/-- An `if` without further branches. -/
def ifThen (condition body : NodeId) : Edit NodeId :=
  make (.ifChain condition body [] none)

def doBlock (body : NodeId) : Edit NodeId :=
  make (.doBlock body)

def chunk (block : NodeId) : Edit NodeId :=
  make (.chunk block)

end Edit

end LuaTree
