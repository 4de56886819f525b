import LuaTree.Rewrite.Basic
import LuaTree.Text.Integer

/-!
# Rewriting passes

Small transformations of programs. Each says what becomes of the nodes it is
about and walks over all others.
-/

namespace LuaTree.Rewriter

/-- A rewriter without a state. -/
abbrev Pass := Rewriter Unit

/-- Leaves everything as it is. -/
def identity : Pass := {}

/-- Replaces every string by one text. -/
def replaceStrings (text : String) : Pass where
  node descent id
    | .literal ⟨_, .string _⟩ => Edit.string text
    | kind => descent.walk id kind

/-- Gives identifiers of one name another. -/
def rename (old new : String) : Pass where
  node descent id
    | kind@(.identifier name) =>
      if name = old then Edit.rebuild id (.identifier new) else descent.walk id kind
    | kind => descent.walk id kind

/-- Replaces numbers of one text by another. -/
def replaceNumbers (old new : String) : Pass where
  node descent id
    | kind@(.literal ⟨value, .number⟩) =>
      if value = old then Edit.number new else descent.walk id kind
    | kind => descent.walk id kind

/-- Negates every number. -/
def negateNumbers : Pass where
  node descent id
    | .literal ⟨_, .number⟩ => Edit.unary .neg id
    | kind => descent.walk id kind

/-- Removes parentheses. -/
def removeParens : Pass where
  node descent id
    | .paren inner => descent.node inner
    | kind => descent.walk id kind

/-- Puts every binary operation in parentheses. -/
def addParens : Pass where
  node descent id
    | kind@(.binary ..) => do Edit.paren (← descent.walk id kind)
    | kind => descent.walk id kind

/-- The value of a number that 64 bits hold. -/
def integer? : Kind NodeId → Option Int
  | .literal ⟨value, .number⟩ => Text.int64? value
  | _ => none

/-- The sum or product of two whole numbers, if 64 bits hold the operands and the result. -/
def constant? (a : Arena) : Kind NodeId → Option Int
  | .binary op left right => do
    let x ← integer? (a.kind left)
    let y ← integer? (a.kind right)
    match op with
    | .add => some (x + y) |>.filter Text.fitsInt64
    | .mul => some (x * y) |>.filter Text.fitsInt64
    | _ => none
  | _ => none

/-- Computes sums and products of whole numbers, operands first. -/
def foldConstants : Pass where
  node descent id
    | kind@(.binary ..) => do
      let result ← descent.walk id kind
      let a ← getThe Arena
      match constant? a (a.kind result) with
      | some value => Edit.number (toString value)
      | none => return result
    | kind => descent.walk id kind

/-- Whether a node is the literal `true`. -/
def isTrue : Kind NodeId → Bool
  | .literal ⟨value, .boolean⟩ => value == "true"
  | _ => false

/-- Drops the `else` of an `if` whose condition is `true`, and rewrites only its body. -/
def dropDeadElse : Pass where
  node descent id
    | kind@(.ifChain condition body elseIfs (some _)) => do
      if isTrue ((← getThe Arena).kind condition) then
        let replaced ← descent.node body
        Edit.rebuild id (.ifChain condition replaced elseIfs none)
      else
        descent.walk id kind
    | kind => descent.walk id kind

/-- Exchanges `break` and `continue`. -/
def swapJumps : Pass where
  node descent id
    | .breaking => Edit.rebuild id .continuing
    | .continuing => Edit.rebuild id .breaking
    | kind => descent.walk id kind

/-- Replaces `...` by a name, among parameters too. -/
def nameVarArgs (name : String) : Pass where
  node descent id
    | .varArg => Edit.identifier name
    | kind => descent.walk id kind

/-- The statement `if true then … end` around a statement. -/
def wrapStatement (descent : Descent Unit) (statement : NodeId) : Rewriting Unit NodeId := do
  let inner ← descent.node statement
  let condition ← Edit.boolean true
  let body ← Edit.block [inner]
  Edit.ifThen condition body

/-- Puts every statement under a condition that holds. -/
def wrapStatements : Pass where
  node descent id
    | .block statements => do
      Edit.rebuild id (.block (← statements.mapM (wrapStatement descent)))
    | kind => descent.walk id kind

/-- Removes the statements of one kind from every block. -/
def dropKind (name : String) : Pass where
  node descent id
    | kind@(.block statements) => do
      let a ← getThe Arena
      let kept := statements.filter fun statement => (a.kind statement).name != name
      if kept.length = statements.length then
        descent.walk id kind
      else
        Edit.rebuild id (.block (← kept.mapM descent.node))
    | kind => descent.walk id kind

/-- Reverses every list of children with more than one element. -/
def reverseLists : Pass where
  list visit list := do
    let replaced ← Rewriting.walkList visit list
    if list.length > 1 then
      return some (replaced.getD list).reverse
    else
      return replaced

/-- Writes compound assignments as plain ones. The new assignment and the operation in it share
their target. -/
def expandCompound : Pass where
  node descent id
    | kind@(.compoundAssignment ..) => do
      let result ← descent.walk id kind
      match (← getThe Arena).kind result with
      | .compoundAssignment op target value =>
        let combined ← Edit.binary op target value
        Edit.rebuild result (.assignment [target] [combined])
      | _ => return result
    | kind => descent.walk id kind

end LuaTree.Rewriter
