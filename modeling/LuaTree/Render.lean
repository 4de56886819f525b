import LuaTree.Arena.Basic
import LuaTree.Piece

/-!
# Writing programs

A tree is written as pieces: tokens, the blanks between them, and comments. Each
statement stands on lines of its own, bodies are indented, and binary operators
have a space on either side.

A tree that was read from a text has its parentheses as nodes. A tree made by
hand may lack them; parentheses are then added exactly where an operand would
otherwise be read as part of something else.
-/

namespace LuaTree

structure Layout where
  /-- Whether each statement ends with a semicolon. -/
  semicolons : Bool := false
  /-- One step of indentation. -/
  indent : String := "\t"
  /-- Whether comments are written. -/
  comments : Bool := true
deriving DecidableEq, Repr, Inhabited

/-- What an operand is when it is asked whether it needs parentheses. -/
inductive Grip where
  | binary (op : BinaryOp)
  | unary
  /-- Anything that holds together by itself. -/
  | closed
deriving DecidableEq, Repr, Inhabited

namespace Grip

/-- The level of the outermost operator, if there is one. -/
def precedence? : Grip → Option Nat
  | binary op => some op.precedence
  | unary => some UnaryOp.precedence
  | closed => none

/-- Whether this is a binary operation other than `^`, which a unary operator would take apart. -/
def isLooseBinary : Grip → Bool
  | binary op => op != .pow
  | _ => false

/-- Whether an operand of `op` needs parentheses. -/
def needsParens (op : BinaryOp) (isRight : Bool) (operand : Grip) : Bool :=
  if op == .pow && isRight then operand.isLooseBinary
  else
    match operand.precedence? with
    | none => false
    | some own =>
      if own = op.precedence then op.isRelational || op.isRightAssociative != isRight
      else own < op.precedence

/-- Whether something needs parentheses before it can be called or accessed. -/
def needsPrefixParens : Grip → Bool
  | closed => false
  | _ => true

end Grip

/-- A node written at each depth of indentation, and how it holds together as an operand. -/
structure Fragment where
  grip : Grip
  write : Nat → List Piece

namespace Fragment

/-- Pieces that hold together and do not depend on the depth. -/
def ofPieces (pieces : List Piece) : Fragment :=
  ⟨.closed, fun _ => pieces⟩

end Fragment

namespace Layout

def space : Piece := .blank ' '

def newline : Piece := .blank '\n'

/-- A keyword or symbol. -/
def word (kind : TokenKind) : Piece :=
  .token kind kind.spelling.toList

/-- A keyword or symbol with a space behind it. -/
def wordThen (kind : TokenKind) : List Piece := [word kind, space]

/-- A keyword or symbol between two spaces. -/
def spaced (kind : TokenKind) : List Piece := [space, word kind, space]

/-- A comment; a block comment is always closed. -/
def comment (c : Comment) : Piece :=
  match c.kind with
  | .line => .lineComment c.text.toList
  | .block => .blockComment c.text.toList true

/-- The token of a literal. -/
def literal (l : Literal) : Piece :=
  match l.kind with
  | .number => .token .number l.value.toList
  | .string quote => .token .string (quote :: l.value.toList ++ [quote])
  | .boolean => .token (if l.value = "true" then .trueKw else .falseKw) l.value.toList
  | .nil => .token .nilKw l.value.toList

/-- The sign of a compound assignment. -/
def assignSign (op : BinaryOp) : List Piece :=
  match op.assignToken? with
  | some kind => spaced kind
  | none => [space, word op.token, word .assign, space]

def parenthesized (pieces : List Piece) : List Piece :=
  word .lParen :: pieces ++ [word .rParen]

/-- A fragment, in parentheses if they are needed. -/
def guarded (parens : Bool) (f : Fragment) (depth : Nat) : List Piece :=
  if parens then parenthesized (f.write depth) else f.write depth

/-- What is called or accessed. -/
def head (f : Fragment) (depth : Nat) : List Piece :=
  guarded f.grip.needsPrefixParens f depth

/-- Fragments with a comma between each two. -/
def commas (depth : Nat) (fs : List Fragment) : List Piece :=
  List.intercalate [word .comma, space] (fs.map (·.write depth))

/-- The text between a unary operator and its operand: two hyphens would begin a comment. -/
def unaryGap (op : UnaryOp) (operand : List Piece) : List Piece :=
  match op with
  | .not => [space]
  | .neg => if (Piece.textOf operand).head? = some '-' then [space] else []
  | .len => []

variable (o : Layout)

def indentation (depth : Nat) : List Piece :=
  (List.replicate depth o.indent.toList).flatten.map .blank

/-- Comments on lines of their own. -/
def commentLines (depth : Nat) (comments : List Comment) : List Piece :=
  if o.comments then
    comments.flatMap fun c => o.indentation depth ++ [comment c, newline]
  else []

/-- The end of a statement: its semicolon, the comments that trail it, and the end of the line. -/
def finish (origin : Origin) : List Piece :=
  (if o.semicolons then [word .semicolon] else []) ++
    (if o.comments then origin.trailing.flatMap fun c => [space, comment c] else []) ++
    [newline]

/-- A statement whose first and last lines are given. -/
def statement (origin : Origin) (write : Nat → List Piece) : Fragment where
  grip := .closed
  write depth :=
    o.commentLines depth origin.leading ++ o.indentation depth ++ write depth ++ o.finish origin

/-- A body on its own lines, and the word that closes it. -/
def body (depth : Nat) (block : Fragment) (close : TokenKind) : List Piece :=
  newline :: block.write (depth + 1) ++ o.indentation depth ++ [word close]

/-- The parameters and the body of a function. -/
def function (depth : Nat) (params : List Fragment) (block : Fragment) : List Piece :=
  parenthesized (commas depth params) ++ o.body depth block .endKw

/-- How a node is written, given how its children are. -/
def node (origin : Origin) : Kind Fragment → Fragment
  | .chunk block => ⟨.closed, block.write⟩
  | .block statements =>
    ⟨.closed, fun depth =>
      statements.flatMap (·.write depth) ++ o.commentLines depth origin.trailing⟩
  | .assignment targets values =>
    o.statement origin fun depth => commas depth targets ++ spaced .assign ++ commas depth values
  | .compoundAssignment op target value =>
    o.statement origin fun depth => target.write depth ++ assignSign op ++ value.write depth
  | .localNames names values =>
    o.statement origin fun depth =>
      wordThen .localKw ++ commas depth names ++
        if values.isEmpty then [] else spaced .assign ++ commas depth values
  | .localFunction name params block =>
    o.statement origin fun depth =>
      wordThen .localKw ++ wordThen .functionKw ++ name.write depth ++
        o.function depth params block
  | .function name params block =>
    o.statement origin fun depth =>
      wordThen .functionKw ++ name.write depth ++ o.function depth params block
  | .returning values =>
    o.statement origin fun depth =>
      word .returnKw :: if values.isEmpty then [] else space :: commas depth values
  | .breaking => o.statement origin fun _ => [word .breakKw]
  | .continuing => o.statement origin fun _ => [word .continueKw]
  | .doBlock block => o.statement origin fun depth => word .doKw :: o.body depth block .endKw
  | .ifChain condition block elseIfs elseBranch =>
    o.statement origin fun depth =>
      wordThen .ifKw ++ condition.write depth ++ [space, word .thenKw, newline] ++
        block.write (depth + 1) ++ elseIfs.flatMap (·.write depth) ++
        (elseBranch.toList.flatMap (·.write depth)) ++ o.indentation depth ++ [word .endKw]
  | .elseIf condition block =>
    ⟨.closed, fun depth =>
      o.indentation depth ++ wordThen .elseIfKw ++ condition.write depth ++
        [space, word .thenKw, newline] ++ block.write (depth + 1)⟩
  | .elseBlock block =>
    ⟨.closed, fun depth =>
      o.indentation depth ++ [word .elseKw, newline] ++ block.write (depth + 1)⟩
  | .whileLoop condition block =>
    o.statement origin fun depth =>
      wordThen .whileKw ++ condition.write depth ++ [space, word .doKw] ++
        o.body depth block .endKw
  | .repeatLoop block condition =>
    o.statement origin fun depth =>
      word .repeatKw :: o.body depth block .untilKw ++ space :: condition.write depth
  | .numericFor counter start limit step block =>
    o.statement origin fun depth =>
      wordThen .forKw ++ counter.write depth ++ spaced .assign ++
        commas depth (start :: limit :: step.toList) ++ [space, word .doKw] ++
        o.body depth block .endKw
  | .genericFor names iterators block =>
    o.statement origin fun depth =>
      wordThen .forKw ++ commas depth names ++ spaced .inKw ++ commas depth iterators ++
        [space, word .doKw] ++ o.body depth block .endKw
  | .expressionStatement expression => o.statement origin expression.write
  | .identifier name => .ofPieces [.token .identifier name.toList]
  | .literal l => .ofPieces [literal l]
  | .binary op left right =>
    ⟨.binary op, fun depth =>
      guarded (left.grip.needsParens op false) left depth ++ spaced op.token ++
        guarded (right.grip.needsParens op true) right depth⟩
  | .unary op operand =>
    ⟨.unary, fun depth =>
      let pieces := guarded operand.grip.isLooseBinary operand depth
      word op.token :: unaryGap op pieces ++ pieces⟩
  | .paren inner => ⟨.closed, fun depth => parenthesized (inner.write depth)⟩
  | .varArg => .ofPieces [word .ellipsis]
  | .functionCall callee args =>
    ⟨.closed, fun depth => head callee depth ++ parenthesized (commas depth args)⟩
  | .methodCall receiver method args =>
    ⟨.closed, fun depth =>
      head receiver depth ++ word .colon :: method.write depth ++
        parenthesized (commas depth args)⟩
  | .methodName receiver method =>
    ⟨.closed, fun depth => receiver.write depth ++ word .colon :: method.write depth⟩
  | .access .dot table key =>
    ⟨.closed, fun depth => head table depth ++ word .dot :: key.write depth⟩
  | .access .bracket table key =>
    ⟨.closed, fun depth =>
      head table depth ++ word .lBracket :: key.write depth ++ [word .rBracket]⟩
  | .table fields =>
    ⟨.closed, fun depth => word .lBrace :: commas depth fields ++ [word .rBrace]⟩
  | .field .named (some key) value =>
    ⟨.closed, fun depth => key.write depth ++ spaced .assign ++ value.write depth⟩
  | .field .bracketed (some key) value =>
    ⟨.closed, fun depth =>
      word .lBracket :: key.write depth ++ word .rBracket :: spaced .assign ++ value.write depth⟩
  | .field _ _ value => ⟨.closed, value.write⟩
  | .anonymousFunction params block =>
    ⟨.closed, fun depth => word .functionKw :: o.function depth params block⟩

/-- A tree as a fragment. -/
def fragment (t : SourceTree) : Fragment :=
  t.fold o.node

/-- A tree as pieces. -/
def pieces (t : SourceTree) : List Piece :=
  (o.fragment t).write 0

end Layout

/-- Write a tree as source text. -/
def Tree.render (t : SourceTree) (o : Layout) : String :=
  String.ofList (Piece.textOf (o.pieces t))

/-- Write the tree below a handle as source text. -/
def Arena.render (a : Arena) (id : NodeId) (o : Layout) : String :=
  (a.tree id).render o

end LuaTree
