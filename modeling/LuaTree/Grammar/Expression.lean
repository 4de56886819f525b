import LuaTree.Grammar.Rule

/-!
# Expressions

Binary operators are read level by level, the loosest first. Each level has its
own operators and its own way to combine them (`levelAt`). Unary operators take
a unary expression, and `^` takes a prefix expression on its left and a unary one
on its right, so `-2 ^ 2` is `-(2 ^ 2)` and `2 ^ -3` is allowed.

An opening parenthesis or bracket at the start of a line never continues an
expression.
-/

namespace LuaTree.Grammar

open TokenReader

variable {N : Type} {m : Type → Type} [Monad m] [MonadStateOf Cursor m] [MonadExceptOf Failure m]
  [NodeMaker N m] (rules : RulesOf N m)

/-- An operation on two operands, from the start of the one to the end of the other. -/
def operation (op : BinaryOp) (left right : N) : m N := do
  let start ← spanOf left
  let stop ← spanOf right
  make (.ofSpan (start.through stop)) (.binary op left right)

/-- An identifier. -/
def name (cause : Cause) : m N := do
  let token ← expect .identifier cause
  make (.ofSpan token.span) (.identifier token.lexeme)

/-- A whole expression. -/
def expression : m N :=
  rules _ (.expression 1)

def expressions : m (List N) := do
  let first ← expression rules
  return first :: (← rules _ .moreExpressions)

def moreExpressions : m (List N) := do
  if ← accept .comma then rules _ .expressions else return []

/-- The arguments of a call behind its opening parenthesis. -/
def arguments (cause : Cause) : m (List N) := do
  let args ← if (← peekKind) = .rParen then pure [] else rules _ .expressions
  let _ ← expect .rParen cause
  return args

def parameters : m (List N) := do
  if (← peekKind) = .ellipsis then
    let token ← next
    return [← make (.ofSpan token.span) .varArg]
  let first ← name .parameterName
  if ← accept .comma then
    return first :: (← rules _ .parameters)
  else
    return [first]

/-- The parameters and the body of a function, through its `end`. -/
def functionBody : m (List N × N) := do
  let _ ← expect .lParen .openParameters
  let params ← if (← peekKind) = .rParen then pure [] else rules _ .parameters
  let _ ← expect .rParen .closeParameters
  let body ← rules _ .block
  let _ ← expect .endKw .endOfFunction
  return (params, body)

/-- A field of a table: `[key] = value`, `name = value` or `value`. -/
def field : m N := do
  let start := (← peek).span
  if ← accept .lBracket then
    let key ← expression rules
    let _ ← expect .rBracket .closeKey
    let _ ← expect .assign .assignAfterKey
    let value ← expression rules
    nodeFrom start (.field .bracketed (some key) value)
  else if (← peekKind) = .identifier ∧ (← followingKind) = .assign then
    let key ← name .name
    let _ ← next
    let value ← expression rules
    nodeFrom start (.field .named (some key) value)
  else
    let value ← expression rules
    nodeFrom start (.field .positional none value)

def fields : m (List N) := do
  match ← peekKind with
  | .rBrace | .eof => return []
  | _ =>
    let first ← field rules
    match ← peekKind with
    | .comma | .semicolon =>
      let _ ← next
      return first :: (← rules _ .fields)
    | _ => return [first]

/-- The literal that a token writes. -/
def literal? (token : Token) : Option Literal :=
  match token.kind with
  | .number => some ⟨token.lexeme, .number⟩
  | .string => some ⟨token.contents, .string (token.quote?.getD '"')⟩
  | .trueKw | .falseKw => some ⟨token.lexeme, .boolean⟩
  | .nilKw => some ⟨"nil", .nil⟩
  | _ => none

/-- An expression that begins with a token of its own: a literal, a name, a table, a function or
anything in parentheses. -/
def primary : m N := do
  let token ← peek
  match literal? token with
  | some literal =>
    let _ ← next
    make (.ofSpan token.span) (.literal literal)
  | none =>
    match token.kind with
    | .identifier => name .name
    | .ellipsis =>
      let _ ← next
      make (.ofSpan token.span) .varArg
    | .lBrace =>
      let _ ← next
      let entries ← rules _ .fields
      let _ ← expect .rBrace .closeTable
      nodeFrom token.span (.table entries)
    | .functionKw =>
      let _ ← next
      let (params, body) ← functionBody rules
      nodeFrom token.span (.anonymousFunction params body)
    | .lParen =>
      let _ ← next
      let inner ← expression rules
      let _ ← expect .rParen .closeParen
      nodeFrom token.span (.paren inner)
    | _ => fail .expression

def suffixes (head : N) : m N := do
  let cursor ← getThe Cursor
  let start ← spanOf head
  match cursor.current.kind with
  | .lParen =>
    if cursor.breaksLine then return head
    let _ ← next
    let args ← arguments rules .closeArguments
    rules _ (.suffixes (← nodeFrom start (.functionCall head args)))
  | .lBracket =>
    if cursor.breaksLine then return head
    let _ ← next
    let key ← expression rules
    let _ ← expect .rBracket .closeKey
    rules _ (.suffixes (← nodeFrom start (.access .bracket head key)))
  | .dot =>
    let _ ← next
    let key ← name .nameAfterDot
    rules _ (.suffixes (← nodeFrom start (.access .dot head key)))
  | .colon =>
    let _ ← next
    let method ← name .methodName
    let _ ← expect .lParen .openMethodArguments
    let args ← arguments rules .closeMethodArguments
    rules _ (.suffixes (← nodeFrom start (.methodCall head method args)))
  | _ => return head

/-- A primary expression with its calls and accesses. -/
def prefixExpression : m N := do
  rules _ (.suffixes (← primary rules))

/-- A level of the ladder: the operators that stand on it, with the tokens that write them, and how
they combine. -/
structure Level where
  operators : List (TokenKind × BinaryOp)
  grouping : Associativity
deriving Repr

/-- The levels of the ladder. Unary operators stand on a level of their own, `unaryLevel`. -/
def levelAt : Nat → Level
  | 1 => ⟨[(.orKw, .or)], .left⟩
  | 2 => ⟨[(.andKw, .and)], .left⟩
  | 3 => ⟨[(.eqEq, .eq), (.notEq, .ne), (.lt, .lt), (.le, .le), (.gt, .gt), (.ge, .ge)], .none⟩
  | 4 => ⟨[(.pipe, .bitOr)], .left⟩
  | 5 => ⟨[(.tilde, .bitXor)], .left⟩
  | 6 => ⟨[(.amp, .bitAnd)], .left⟩
  | 7 => ⟨[(.ltLt, .shl), (.gtGt, .shr)], .left⟩
  | 8 => ⟨[(.dotDot, .concat)], .right⟩
  | 9 => ⟨[(.plus, .add), (.minus, .sub)], .left⟩
  | 10 => ⟨[(.star, .mul), (.slash, .div), (.doubleSlash, .floorDiv), (.percent, .mod)], .left⟩
  | 12 => ⟨[(.caret, .pow)], .right⟩
  | _ => ⟨[], .none⟩

def unaryLevel : Nat := 11

/-- The operator of the level that a token writes. -/
def Level.operator? (level : Level) (kind : TokenKind) : Option BinaryOp :=
  level.operators.lookup kind

/-- A prefix expression, raised to a power if `^` follows. -/
def power : m N := do
  let left ← prefixExpression rules
  match (levelAt (unaryLevel + 1)).operator? (← peekKind) with
  | some op =>
    let _ ← next
    operation op left (← rules _ (.expression unaryLevel))
  | none => return left

def unary : m N := do
  let token ← peek
  match token.kind.unaryOp? with
  | some op =>
    let _ ← next
    let operand ← rules _ (.expression unaryLevel)
    make (.ofSpan (token.span.through (← spanOf operand))) (.unary op operand)
  | none => power rules

/-- The operators at a level; those of a tighter level have been read with the operands. -/
def operators (level : Nat) (left : N) : m N := do
  match (levelAt level).operator? (← peekKind) with
  | none => return left
  | some op =>
    let _ ← next
    match (levelAt level).grouping with
    | .left =>
      let right ← rules _ (.expression (level + 1))
      rules _ (.operators level (← operation op left right))
    | .right =>
      let right ← rules _ (.expression level)
      operation op left right
    | .none =>
      let right ← rules _ (.expression (level + 1))
      operation op left right

/-- One level of the ladder. -/
def ladder (level : Nat) : m N := do
  if level < unaryLevel then
    let left ← rules _ (.expression (level + 1))
    rules _ (.operators level left)
  else
    unary rules

end LuaTree.Grammar
