/-!
# Kinds of tokens

The lexical atoms of Lua with the statement `continue` and the compound
assignments of its Luau dialect. Keywords and symbols have one fixed spelling
each; the other kinds are recognised by rule.
-/

namespace LuaTree

inductive TokenKind where
  -- recognised by rule
  | identifier | number | string
  -- keywords
  | andKw | breakKw | doKw | elseKw | elseIfKw | endKw | falseKw | forKw | functionKw | gotoKw
  | ifKw | inKw | localKw | nilKw | notKw | orKw | repeatKw | returnKw | thenKw | trueKw
  | untilKw | whileKw | continueKw
  -- arithmetic and bits
  | plus | minus | star | slash | doubleSlash | percent | caret | hash | amp | pipe | tilde
  | ltLt | gtGt
  -- punctuation
  | lParen | rParen | lBrace | rBrace | lBracket | rBracket | semicolon | colon | comma | dot
  | dotDot | ellipsis
  -- comparison and assignment
  | assign | eqEq | notEq | lt | le | gt | ge | plusEq | minusEq | starEq | slashEq | percentEq
  -- a character that begins no token, and the end of the text
  | unknown | eof
deriving DecidableEq, Repr, Inhabited

namespace TokenKind

/-- Every kind, in the order of its declaration. -/
def all : List TokenKind := [
    .identifier, .number, .string, .andKw, .breakKw, .doKw, .elseKw, .elseIfKw, .endKw, .falseKw,
    .forKw, .functionKw, .gotoKw, .ifKw, .inKw, .localKw, .nilKw, .notKw, .orKw, .repeatKw,
    .returnKw, .thenKw, .trueKw, .untilKw, .whileKw, .continueKw, .plus, .minus, .star, .slash,
    .doubleSlash, .percent, .caret, .hash, .amp, .pipe, .tilde, .ltLt, .gtGt, .lParen, .rParen,
    .lBrace, .rBrace, .lBracket, .rBracket, .semicolon, .colon, .comma, .dot, .dotDot, .ellipsis,
    .assign, .eqEq, .notEq, .lt, .le, .gt, .ge, .plusEq, .minusEq, .starEq, .slashEq, .percentEq,
    .unknown, .eof]

/-- The words that are never identifiers. -/
def keywords : List TokenKind := [
    .andKw, .breakKw, .doKw, .elseKw, .elseIfKw, .endKw, .falseKw, .forKw, .functionKw, .gotoKw,
    .ifKw, .inKw, .localKw, .nilKw, .notKw, .orKw, .repeatKw, .returnKw, .thenKw, .trueKw, .untilKw,
    .whileKw, .continueKw]

/-- The symbols, longer spellings first, so that the first one that fits is the longest. -/
def symbols : List TokenKind := [
    .ellipsis, .doubleSlash, .ltLt, .gtGt, .dotDot, .eqEq, .notEq, .le, .ge, .plusEq, .minusEq,
    .starEq, .slashEq, .percentEq, .plus, .minus, .star, .slash, .percent, .caret, .hash, .amp,
    .pipe, .tilde, .lParen, .rParen, .lBrace, .rBrace, .lBracket, .rBracket, .semicolon, .colon,
    .comma, .dot, .assign, .lt, .gt]

/-- The name of the kind in listings. -/
def name : TokenKind → String
  | .identifier => "Identifier"
  | .number => "Number"
  | .string => "String"
  | .andKw => "And"
  | .breakKw => "Break"
  | .doKw => "Do"
  | .elseKw => "Else"
  | .elseIfKw => "ElseIf"
  | .endKw => "End"
  | .falseKw => "False"
  | .forKw => "For"
  | .functionKw => "Function"
  | .gotoKw => "Goto"
  | .ifKw => "If"
  | .inKw => "In"
  | .localKw => "Local"
  | .nilKw => "Nil"
  | .notKw => "Not"
  | .orKw => "Or"
  | .repeatKw => "Repeat"
  | .returnKw => "Return"
  | .thenKw => "Then"
  | .trueKw => "True"
  | .untilKw => "Until"
  | .whileKw => "While"
  | .continueKw => "Continue"
  | .plus => "Plus"
  | .minus => "Minus"
  | .star => "Star"
  | .slash => "Slash"
  | .doubleSlash => "DoubleSlash"
  | .percent => "Percent"
  | .caret => "Caret"
  | .hash => "Hash"
  | .amp => "Amp"
  | .pipe => "Pipe"
  | .tilde => "Tilde"
  | .ltLt => "LtLt"
  | .gtGt => "GtGt"
  | .lParen => "LParen"
  | .rParen => "RParen"
  | .lBrace => "LBrace"
  | .rBrace => "RBrace"
  | .lBracket => "LBracket"
  | .rBracket => "RBracket"
  | .semicolon => "Semicolon"
  | .colon => "Colon"
  | .comma => "Comma"
  | .dot => "Dot"
  | .dotDot => "DotDot"
  | .ellipsis => "Ellipsis"
  | .assign => "Assign"
  | .eqEq => "EqEq"
  | .notEq => "NotEq"
  | .lt => "Lt"
  | .le => "Le"
  | .gt => "Gt"
  | .ge => "Ge"
  | .plusEq => "PlusEq"
  | .minusEq => "MinusEq"
  | .starEq => "StarEq"
  | .slashEq => "SlashEq"
  | .percentEq => "PercentEq"
  | .unknown => "Unknown"
  | .eof => "Eof"

/-- The text of a keyword or symbol; empty for the kinds whose tokens differ in text. -/
def spelling : TokenKind → String
  | .identifier | .number | .string | .unknown | .eof => ""
  | .andKw => "and"
  | .breakKw => "break"
  | .doKw => "do"
  | .elseKw => "else"
  | .elseIfKw => "elseif"
  | .endKw => "end"
  | .falseKw => "false"
  | .forKw => "for"
  | .functionKw => "function"
  | .gotoKw => "goto"
  | .ifKw => "if"
  | .inKw => "in"
  | .localKw => "local"
  | .nilKw => "nil"
  | .notKw => "not"
  | .orKw => "or"
  | .repeatKw => "repeat"
  | .returnKw => "return"
  | .thenKw => "then"
  | .trueKw => "true"
  | .untilKw => "until"
  | .whileKw => "while"
  | .continueKw => "continue"
  | .plus => "+"
  | .minus => "-"
  | .star => "*"
  | .slash => "/"
  | .doubleSlash => "//"
  | .percent => "%"
  | .caret => "^"
  | .hash => "#"
  | .amp => "&"
  | .pipe => "|"
  | .tilde => "~"
  | .ltLt => "<<"
  | .gtGt => ">>"
  | .lParen => "("
  | .rParen => ")"
  | .lBrace => "\x7b"
  | .rBrace => "\x7d"
  | .lBracket => "["
  | .rBracket => "]"
  | .semicolon => ";"
  | .colon => ":"
  | .comma => ","
  | .dot => "."
  | .dotDot => ".."
  | .ellipsis => "..."
  | .assign => "="
  | .eqEq => "=="
  | .notEq => "~="
  | .lt => "<"
  | .le => "<="
  | .gt => ">"
  | .ge => ">="
  | .plusEq => "+="
  | .minusEq => "-="
  | .starEq => "*="
  | .slashEq => "/="
  | .percentEq => "%="

/-- How a message speaks of the kind. -/
def display : TokenKind → String
  | .identifier => "identifier"
  | .number => "number"
  | .string => "string"
  | .unknown => "unknown character"
  | .eof => "end of file"
  | kind => "'" ++ kind.spelling ++ "'"

def isKeyword (kind : TokenKind) : Bool :=
  keywords.contains kind

/-- The keyword spelled `word`. -/
def keyword? (word : String) : Option TokenKind :=
  keywords.find? fun kind => kind.spelling == word

/-- The kind called `name` in listings. -/
def ofName? (name : String) : Option TokenKind :=
  all.find? fun kind => kind.name == name

end TokenKind

end LuaTree
