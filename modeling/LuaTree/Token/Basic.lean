import LuaTree.Source
import LuaTree.Token.Kind

/-!
# Tokens

A token is a kind, the text it was written as, and where it stands. String
tokens keep their quotes and escapes; `Token.contents` removes the quotes.
-/

namespace LuaTree

/-- Whether a character opens a string. -/
def isQuote (c : Char) : Bool :=
  c == '"' || c == '\''

/-- The text up to the first `quote` that no backslash escapes. -/
def beforeQuote (quote : Char) (escaped : Bool) : List Char → List Char
  | [] => []
  | c :: rest =>
    if escaped then c :: beforeQuote quote false rest
    else if c = '\\' then c :: beforeQuote quote true rest
    else if c = quote then []
    else c :: beforeQuote quote false rest

structure Token where
  kind : TokenKind
  lexeme : String
  span : Span
deriving DecidableEq, Repr, Inhabited

namespace Token

/-- The line on which the token starts. -/
def line (t : Token) : Nat :=
  t.span.start.line

/-- The text between the quotes, escapes left as written; a token without an opening quote is
its own contents. -/
def contents (t : Token) : String :=
  match t.lexeme.toList with
  | quote :: rest =>
    if isQuote quote then String.ofList (beforeQuote quote false rest) else t.lexeme
  | [] => t.lexeme

/-- The quote that opens a string token. -/
def quote? (t : Token) : Option Char :=
  match t.kind, t.lexeme.toList with
  | .string, quote :: _ => if isQuote quote then some quote else none
  | _, _ => none

/-- How a message speaks of the token. -/
def display (t : Token) : String :=
  match t.kind with
  | .identifier | .number | .string | .unknown => t.kind.display ++ " '" ++ t.lexeme ++ "'"
  | kind => kind.display

end Token

end LuaTree
