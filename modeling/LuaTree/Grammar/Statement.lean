import LuaTree.Grammar.Expression

/-!
# Statements and blocks

A statement is told by its first token; what begins with an expression is an
assignment, a compound assignment or a call. A semicolon may follow each
statement but is none itself. Nothing may follow `return`, `break` or
`continue` in their block.
-/

namespace LuaTree.Grammar

open TokenReader

variable {N : Type} {m : Type → Type} [Monad m] [MonadStateOf Cursor m] [MonadExceptOf Failure m]
  [NodeMaker N m] (rules : RulesOf N m)

def moreNames (cause : Cause) : m (List N) := do
  if ← accept .comma then
    let first ← name cause
    return first :: (← rules _ (.moreNames cause))
  else
    return []

def moreTargets : m (List N) := do
  if ← accept .comma then
    let first ← prefixExpression rules
    return first :: (← rules _ .moreTargets)
  else
    return []

/-- `local` names with or without values, or a local function. -/
def localStatement : m N := do
  let start := (← next).span
  if ← accept .functionKw then
    let name ← name .localFunctionName
    let (params, body) ← functionBody rules
    nodeFrom start (.localFunction name params body)
  else
    let first ← name .localName
    let names := first :: (← rules _ (.moreNames .name))
    let values ← if ← accept .assign then rules _ .expressions else pure []
    nodeFrom start (.localNames names values)

def dottedName (head : N) : m N := do
  let start ← spanOf head
  match ← peekKind with
  | .dot =>
    let _ ← next
    let key ← name .nameAfterDot
    rules _ (.dottedName (← nodeFrom start (.access .dot head key)))
  | .colon =>
    let _ ← next
    let method ← name .methodName
    nodeFrom start (.methodName head method)
  | _ => return head

def functionStatement : m N := do
  let start := (← next).span
  let name ← rules _ (.dottedName (← name .functionName))
  let (params, body) ← functionBody rules
  nodeFrom start (.function name params body)

def returnStatement : m N := do
  let start := (← next).span
  let bare := (← peekKind) = .semicolon ∨ (← atBlockEnd)
  let values ← if bare then pure [] else rules _ .expressions
  nodeFrom start (.returning values)

def doStatement : m N := do
  let start := (← next).span
  let body ← rules _ .block
  let _ ← expect .endKw .endOfDo
  nodeFrom start (.doBlock body)

def elseIfs : m (List N) := do
  if (← peekKind) = .elseIfKw then
    let start := (← next).span
    let condition ← expression rules
    let _ ← expect .thenKw .thenAfterElseIf
    let body ← rules _ .block
    let clause ← nodeFrom start (.elseIf condition body)
    return clause :: (← rules _ .elseIfs)
  else
    return []

/-- The `else` clause in front, if any. -/
def elseClause? : m (Option N) := do
  if (← peekKind) = .elseKw then
    let start := (← next).span
    let body ← rules _ .block
    return some (← nodeFrom start (.elseBlock body))
  else
    return none

def ifStatement : m N := do
  let start := (← next).span
  let condition ← expression rules
  let _ ← expect .thenKw .thenAfterIf
  let body ← rules _ .block
  let elseIfs ← rules _ .elseIfs
  let elseBranch ← elseClause? rules
  let _ ← expect .endKw .endOfIf
  nodeFrom start (.ifChain condition body elseIfs elseBranch)

def whileStatement : m N := do
  let start := (← next).span
  let condition ← expression rules
  let _ ← expect .doKw .doAfterWhile
  let body ← rules _ .block
  let _ ← expect .endKw .endOfWhile
  nodeFrom start (.whileLoop condition body)

def repeatStatement : m N := do
  let start := (← next).span
  let body ← rules _ .block
  let _ ← expect .untilKw .untilAfterRepeat
  let condition ← expression rules
  nodeFrom start (.repeatLoop body condition)

/-- The body of a loop with `do` before it and `end` behind it. -/
def forBody : m N := do
  let _ ← expect .doKw .doAfterFor
  let body ← rules _ .block
  let _ ← expect .endKw .endOfFor
  return body

/-- A numeric loop has `=` behind its first name, a generic one has not. -/
def forStatement : m N := do
  let start := (← next).span
  let numeric := (← followingKind) = .assign
  let first ← name .forName
  if numeric then
    let _ ← next
    let initial ← expression rules
    let _ ← expect .comma .commaAfterStart
    let limit ← expression rules
    let step ← if ← accept .comma then some <$> expression rules else pure none
    let body ← forBody rules
    nodeFrom start (.numericFor first initial limit step body)
  else
    let names := first :: (← rules _ (.moreNames .loopVariable))
    let _ ← expect .inKw .inAfterNames
    let iterators ← rules _ .expressions
    let body ← forBody rules
    nodeFrom start (.genericFor names iterators body)

/-- Fail at the token in front unless all targets can be assigned to. -/
def checkAssignable (targets : List N) : m Unit := do
  unless ← targets.allM fun target => return (← kindOf target).isAssignable do fail .assignTarget

/-- An assignment, a compound assignment or a call. -/
def expressionStatement : m N := do
  let start := (← peek).span
  let first ← prefixExpression rules
  let more ← rules _ .moreTargets
  let kind ← peekKind
  if kind = .assign then
    checkAssignable (first :: more)
    let _ ← next
    let values ← rules _ .expressions
    nodeFrom start (.assignment (first :: more) values)
  else
    match more, kind.assignOp? with
    | [], some op =>
      checkAssignable [first]
      let _ ← next
      let value ← expression rules
      nodeFrom start (.compoundAssignment op first value)
    | [], none =>
      if (← kindOf first).isCallLike then nodeFrom start (.expressionStatement first)
      else fail .statement
    | _, _ => fail .statement

def statement : m N := do
  match ← peekKind with
  | .localKw => localStatement rules
  | .functionKw => functionStatement rules
  | .returnKw => returnStatement rules
  | .breakKw => make (.ofSpan (← next).span) .breaking
  | .continueKw => make (.ofSpan (← next).span) .continuing
  | .doKw => doStatement rules
  | .ifKw => ifStatement rules
  | .whileKw => whileStatement rules
  | .repeatKw => repeatStatement rules
  | .forKw => forStatement rules
  | _ => expressionStatement rules

/-- Statements with their comments, up to the end of the block. -/
def statements : m (List N) := do
  if ← atBlockEnd then
    return []
  let leading ← takeLeading
  let statement ← rules _ .statement
  let _ ← accept .semicolon
  let trailing ← takeTrailing
  let statement ← attach statement leading trailing
  if (← kindOf statement).isTerminal ∧ ¬ (← atBlockEnd) then
    fail .afterTerminal
  return statement :: (← rules _ .statements)

/-- From the first of some statements to the last; where there are none, the place itself. -/
def spanOfBlock (place : Span) (statements : List N) : m Span := do
  match statements.head?, statements.getLast? with
  | some first, some last => return (← spanOf first).through (← spanOf last)
  | _, _ => return place.atStart

/-- A block. The comments left before its end trail it. -/
def block : m N := do
  let place := (← peek).span
  let statements ← rules _ .statements
  let span ← spanOfBlock place statements
  let leftover ← takeLeading
  make ⟨span, [], leftover⟩ (.block statements)

/-- A whole program. -/
def chunk : m N := do
  let first := (← peek).span
  let body ← rules _ .block
  if (← peekKind) ≠ .eof then
    fail .endOfFile
  make (.ofSpan (first.through (← peek).span)) (.chunk body)

end LuaTree.Grammar
