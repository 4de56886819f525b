import LuaTree.Arena.Build
import LuaTree.Grammar.Error

/-!
# Reading tokens

A cursor stands before a token of the program. It knows where the token before
it ended and which comments have not been attached to a node yet. A reader takes
tokens from it or fails at the token in front of it.

A reader makes nodes as it goes. What a node is depends on the reader: a
`TokenReader` makes trees, and an `ArenaReader` adds each node to an arena as
soon as it has been read. The grammar is the same for both (`NodeMaker`).

Comments are attached by place alone: those that end before a statement lead it,
those that begin on its last line behind it trail it.
-/

namespace LuaTree

structure Cursor where
  /-- The tokens in front, without the end of the file. -/
  rest : List Token
  /-- The end of the file. -/
  stop : Token
  /-- The span of the token just read. -/
  last : Span
  /-- The comments that belong to no node yet, in source order. -/
  comments : List Comment
deriving DecidableEq, Repr

namespace Cursor

/-- The token in front. -/
def current (c : Cursor) : Token :=
  c.rest.headD c.stop

/-- The token behind the one in front. -/
def following (c : Cursor) : Token :=
  c.rest.tail.headD c.stop

/-- Step over the token in front; the end of the file stays. -/
def advance (c : Cursor) : Cursor :=
  match c.rest with
  | [] => c
  | token :: rest => { c with rest := rest, last := token.span }

/-- Before the first token of a list. Tokens behind the first end of the file do not count, and a
list without one ends where its last token does. -/
def ofTokens (tokens : List Token) (comments : List Comment) : Cursor :=
  let rest := tokens.takeWhile fun token => token.kind != .eof
  let missing : Token := ⟨.eof, "", ((tokens.getLast?.map Token.span).getD default).atEnd⟩
  let stop := (tokens.find? fun token => token.kind == .eof).getD missing
  { rest, stop, last := (rest.headD stop).span, comments }

/-- Whether the token in front starts on a later line than the one just read ends. -/
def breaksLine (c : Cursor) : Bool :=
  c.last.stop.line < c.current.span.start.line

end Cursor

/-- An error with the cursor where it was met. -/
structure Failure where
  error : ParseError
  cursor : Cursor
deriving DecidableEq, Repr

/-- What a reader does with nodes of the type `N`. -/
class NodeMaker (N : outParam Type) (m : Type → Type) where
  make (origin : Origin) (kind : Kind N) : m N
  spanOf (node : N) : m Span
  kindOf (node : N) : m (Kind N)
  /-- The node with comments around it in addition to those it has. -/
  attach (node : N) (leading trailing : List Comment) : m N

export NodeMaker (make spanOf kindOf attach)

/-- An action that reads tokens into trees and may fail. -/
abbrev TokenReader (α : Type) := StateT Cursor (Except Failure) α

instance : NodeMaker SourceTree TokenReader where
  make origin kind := pure (.node origin kind)
  spanOf node := pure node.span
  kindOf node := pure node.kind
  attach node leading trailing := pure (node.withComments leading trailing)

/-- An action that reads tokens into an arena and may fail. A node that cannot be added, or is
looked at without being there, ends it altogether. -/
abbrev ArenaReader (α : Type) := StateT Cursor (ExceptT Failure Edit) α

instance : NodeMaker NodeId ArenaReader where
  make origin kind := liftM (Edit.alloc kind origin)
  spanOf id := do
    let node ← liftM (Edit.lookUp id)
    return node.origin.span
  kindOf id := do
    let node ← liftM (Edit.lookUp id)
    return node.kind
  attach id leading trailing := do
    let _ ← liftM (Edit.lookUp id)
    modifyThe Arena (·.attach id leading trailing)
    return id

namespace TokenReader

variable {N : Type} {m : Type → Type} [Monad m] [MonadStateOf Cursor m]

/-- Fail at the token in front. -/
def fail {α : Type} [MonadExceptOf Failure m] (cause : Cause) : m α := do
  let cursor ← get
  throw ⟨⟨cause, cursor.current.kind, cursor.current.span.start⟩, cursor⟩

/-- The token in front, unread. -/
def peek : m Token := do
  return (← get).current

/-- The kind of the token in front. -/
def peekKind : m TokenKind := do
  return (← get).current.kind

/-- The kind of the token behind the one in front. -/
def followingKind : m TokenKind := do
  return (← get).following.kind

/-- Read the token in front. -/
def next : m Token := do
  let token := (← get).current
  modify Cursor.advance
  return token

/-- Read the token in front if it is of the given kind, and say whether it was. -/
def accept (kind : TokenKind) : m Bool := do
  if (← peekKind) = kind then
    let _ ← next
    return true
  else
    return false

/-- Read a token of the given kind or fail. -/
def expect [MonadExceptOf Failure m] (kind : TokenKind) (cause : Cause) : m Token := do
  if (← peekKind) = kind then next else fail cause

/-- From the start of a span to the end of the token just read. -/
def spanFrom (start : Span) : m Span := do
  return start.through (← get).last

/-- A node from the start of a span to the end of the token just read. -/
def nodeFrom [NodeMaker N m] (start : Span) (kind : Kind N) : m N := do
  make (.ofSpan (← spanFrom start)) kind

/-- Whether the token in front ends a block. -/
def atBlockEnd : m Bool := do
  match ← peekKind with
  | .endKw | .elseKw | .elseIfKw | .untilKw | .eof => return true
  | _ => return false

/-- The pending comments that end before the token in front. -/
def takeLeading : m (List Comment) := do
  let c ← get
  let before (comment : Comment) : Bool := comment.span.endOffset ≤ c.current.span.startOffset
  set { c with comments := c.comments.dropWhile before }
  return c.comments.takeWhile before

/-- The pending comments between the token just read and the one in front that start on the line
where the former ends. Comments inside the statement stay pending. -/
def takeTrailing : m (List Comment) := do
  let c ← get
  let inside (comment : Comment) : Bool := comment.span.startOffset < c.last.endOffset
  let trails (comment : Comment) : Bool :=
    comment.span.start.line == c.last.stop.line &&
      comment.span.endOffset ≤ c.current.span.startOffset
  let behind := c.comments.dropWhile inside
  set { c with comments := c.comments.takeWhile inside ++ behind.dropWhile trails }
  return behind.takeWhile trails

end TokenReader

end LuaTree
