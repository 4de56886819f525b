import LuaTree.Token.Kind

/-!
# Operators

One table gives each binary operator its name, symbol and level on the
precedence ladder; higher levels bind tighter. Unary operators stand between
multiplication and exponentiation.
-/

namespace LuaTree

inductive BinaryOp where
  | or | and
  | eq | ne | lt | le | gt | ge
  | bitOr | bitXor | bitAnd | shl | shr
  | concat
  | add | sub | mul | div | floorDiv | mod
  | pow
deriving DecidableEq, Repr, Inhabited

/-- How operators of one level combine without parentheses. -/
inductive Associativity where
  | left | right
  /-- They do not combine. -/
  | none
deriving DecidableEq, Repr, Inhabited

namespace BinaryOp

/-- Every operator, lowest level first. -/
def all : List BinaryOp := [
  .or, .and, .eq, .ne, .lt, .le, .gt, .ge, .bitOr, .bitXor, .bitAnd, .shl, .shr, .concat, .add,
  .sub, .mul, .div, .floorDiv, .mod, .pow]

def name : BinaryOp → String
  | .or => "Or"
  | .and => "And"
  | .eq => "Eq"
  | .ne => "Ne"
  | .lt => "Lt"
  | .le => "Le"
  | .gt => "Gt"
  | .ge => "Ge"
  | .bitOr => "BitOr"
  | .bitXor => "BitXor"
  | .bitAnd => "BitAnd"
  | .shl => "Shl"
  | .shr => "Shr"
  | .concat => "Concat"
  | .add => "Add"
  | .sub => "Sub"
  | .mul => "Mul"
  | .div => "Div"
  | .floorDiv => "FloorDiv"
  | .mod => "Mod"
  | .pow => "Pow"

/-- The token that writes the operator. -/
def token : BinaryOp → TokenKind
  | .or => .orKw
  | .and => .andKw
  | .eq => .eqEq
  | .ne => .notEq
  | .lt => .lt
  | .le => .le
  | .gt => .gt
  | .ge => .ge
  | .bitOr => .pipe
  | .bitXor => .tilde
  | .bitAnd => .amp
  | .shl => .ltLt
  | .shr => .gtGt
  | .concat => .dotDot
  | .add => .plus
  | .sub => .minus
  | .mul => .star
  | .div => .slash
  | .floorDiv => .doubleSlash
  | .mod => .percent
  | .pow => .caret

def symbol (op : BinaryOp) : String :=
  op.token.spelling

/-- The level on the ladder. -/
def precedence : BinaryOp → Nat
  | .or => 1
  | .and => 2
  | .eq | .ne | .lt | .le | .gt | .ge => 3
  | .bitOr => 4
  | .bitXor => 5
  | .bitAnd => 6
  | .shl | .shr => 7
  | .concat => 8
  | .add | .sub => 9
  | .mul | .div | .floorDiv | .mod => 10
  | .pow => 12

/-- Comparisons do not chain; concatenation and exponentiation group to the right. -/
def associativity : BinaryOp → Associativity
  | .eq | .ne | .lt | .le | .gt | .ge => .none
  | .concat | .pow => .right
  | _ => .left

def isRightAssociative (op : BinaryOp) : Bool :=
  op.associativity == .right

def isRelational (op : BinaryOp) : Bool :=
  op.associativity == .none

/-- The token of the assignment that applies the operator, for the five that have one. -/
def assignToken? : BinaryOp → Option TokenKind
  | .add => some .plusEq
  | .sub => some .minusEq
  | .mul => some .starEq
  | .div => some .slashEq
  | .mod => some .percentEq
  | _ => none

def ofName? (name : String) : Option BinaryOp :=
  all.find? fun op => op.name == name

end BinaryOp

inductive UnaryOp where
  | not | neg | len
deriving DecidableEq, Repr, Inhabited

namespace UnaryOp

def all : List UnaryOp := [.not, .neg, .len]

def name : UnaryOp → String
  | .not => "Not"
  | .neg => "Neg"
  | .len => "Len"

/-- The token that writes the operator. -/
def token : UnaryOp → TokenKind
  | .not => .notKw
  | .neg => .minus
  | .len => .hash

def symbol (op : UnaryOp) : String :=
  op.token.spelling

/-- The level of every unary operator on the ladder. -/
def precedence : Nat := 11

def ofName? (name : String) : Option UnaryOp :=
  all.find? fun op => op.name == name

end UnaryOp

namespace TokenKind

/-- The unary operator that a token writes. -/
def unaryOp? : TokenKind → Option UnaryOp
  | .notKw => some .not
  | .minus => some .neg
  | .hash => some .len
  | _ => none

/-- The operator that a compound assignment applies. -/
def assignOp? : TokenKind → Option BinaryOp
  | .plusEq => some .add
  | .minusEq => some .sub
  | .starEq => some .mul
  | .slashEq => some .div
  | .percentEq => some .mod
  | _ => none

end TokenKind

end LuaTree
