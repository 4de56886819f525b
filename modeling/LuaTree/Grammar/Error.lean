import LuaTree.Token.Basic

/-!
# Why a text is not a program

Parsing stops at the first token that cannot continue the program. The error
names that token, its position, and what the grammar expected there.
-/

namespace LuaTree

/-- What the grammar expected, or what it does not allow. -/
inductive Cause where
  | endOfFile
  /-- A statement behind one that ends its block. -/
  | afterTerminal
  | expression
  | statement
  | assignTarget
  | name
  | nameAfterDot
  | methodName
  | openMethodArguments
  | closeMethodArguments
  | closeArguments
  | closeParen
  | closeKey
  | assignAfterKey
  | closeTable
  | openParameters
  | parameterName
  | closeParameters
  | endOfFunction
  | functionName
  | localFunctionName
  | localName
  | endOfDo
  | thenAfterIf
  | thenAfterElseIf
  | endOfIf
  | doAfterWhile
  | endOfWhile
  | untilAfterRepeat
  | forName
  | commaAfterStart
  | loopVariable
  | inAfterNames
  | doAfterFor
  | endOfFor
  /-- Nesting beyond the bound that is computed from the number of tokens. -/
  | nesting
deriving DecidableEq, Repr, Inhabited

namespace Cause

def message : Cause → String
  | endOfFile => "expected end of file"
  | afterTerminal =>
    "no statement allowed after 'return', 'break' or 'continue' in the same block"
  | expression => "unexpected token in expression"
  | statement => "unexpected expression in statement"
  | assignTarget => "cannot assign to this expression"
  | name => "expected identifier"
  | nameAfterDot => "expected identifier after '.'"
  | methodName => "expected method name after ':'"
  | openMethodArguments => "expected '(' after method name"
  | closeMethodArguments => "expected ')' after method arguments"
  | closeArguments => "expected ')' after argument list"
  | closeParen => "expected ')'"
  | closeKey => "expected ']' after table key"
  | assignAfterKey => "expected '=' after table key"
  | closeTable => "expected '\x7d' after table constructor"
  | openParameters => "expected '(' to start parameter list"
  | parameterName => "expected parameter name"
  | closeParameters => "expected ')' after parameters"
  | endOfFunction => "expected 'end' to close function"
  | functionName => "expected function name"
  | localFunctionName => "expected function name after 'local function'"
  | localName => "expected identifier after 'local'"
  | endOfDo => "expected 'end' after do block"
  | thenAfterIf => "expected 'then' after if condition"
  | thenAfterElseIf => "expected 'then' after elseif condition"
  | endOfIf => "expected 'end' to close if statement"
  | doAfterWhile => "expected 'do' after while condition"
  | endOfWhile => "expected 'end' to close while loop"
  | untilAfterRepeat => "expected 'until' after repeat body"
  | forName => "expected identifier after 'for'"
  | commaAfterStart => "expected ',' after for loop start value"
  | loopVariable => "expected loop variable after ','"
  | inAfterNames => "expected 'in' after for loop variables"
  | doAfterFor => "expected 'do' after for loop header"
  | endOfFor => "expected 'end' to close for loop"
  | nesting => "nesting is too deep"

end Cause

structure ParseError where
  cause : Cause
  token : TokenKind
  position : Position
deriving DecidableEq, Repr, Inhabited

namespace ParseError

/-- Whether the tokens fit the grammar but a rule beyond it is broken. -/
def isGrammarRule (e : ParseError) : Bool :=
  e.cause == .afterTerminal

def message (e : ParseError) : String :=
  e.cause.message

/-- The whole message, with the line and the token. -/
def text (e : ParseError) : String :=
  "[line " ++ toString e.position.line ++ "] " ++ e.message ++ " token: " ++ e.token.display

end ParseError

end LuaTree
