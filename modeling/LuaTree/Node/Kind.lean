import LuaTree.Operator

/-!
# Kinds of nodes

`Kind α` is one layer of a syntax tree: what a node is, with an `α` in every
place where a child stands. The same layer describes a node whose children are
trees and one whose children are handles into a table.

Children have one order, that of the source, which `Kind.children` gives;
`Kind.map` and `Kind.traverse` replace children in that order and keep all else.
-/

namespace LuaTree

inductive LiteralKind where
  | number
  /-- A string remembers which quote it was written with. -/
  | string (quote : Char)
  | boolean
  | nil
deriving DecidableEq, Repr, Inhabited

/-- A literal as written; a string without its quotes and with its escapes. -/
structure Literal where
  value : String
  kind : LiteralKind
deriving DecidableEq, Repr, Inhabited

/-- The literal as it is written, a string between its quotes. -/
def Literal.text (l : Literal) : String :=
  match l.kind with
  | .string quote => quote.toString ++ l.value ++ quote.toString
  | _ => l.value

inductive AccessStyle where
  /-- `t.name` -/
  | dot
  /-- `t[key]` -/
  | bracket
deriving DecidableEq, Repr, Inhabited

def AccessStyle.label : AccessStyle → String
  | dot => "."
  | bracket => "[]"

inductive FieldStyle where
  /-- `value` -/
  | positional
  /-- `name = value` -/
  | named
  /-- `[key] = value` -/
  | bracketed
deriving DecidableEq, Repr, Inhabited

def FieldStyle.label : FieldStyle → String
  | positional => "positional"
  | named => "named"
  | bracketed => "bracketed"

inductive Kind (α : Type) where
  | chunk (block : α)
  | block (statements : List α)
  | assignment (targets values : List α)
  | compoundAssignment (op : BinaryOp) (target value : α)
  | localNames (names values : List α)
  | localFunction (name : α) (params : List α) (body : α)
  | function (name : α) (params : List α) (body : α)
  | returning (values : List α)
  | breaking
  | continuing
  | doBlock (body : α)
  | ifChain (condition body : α) (elseIfs : List α) (elseBranch : Option α)
  | elseIf (condition body : α)
  | elseBlock (body : α)
  | whileLoop (condition body : α)
  | repeatLoop (body condition : α)
  | numericFor (counter start limit : α) (step : Option α) (body : α)
  | genericFor (names iterators : List α) (body : α)
  | expressionStatement (expression : α)
  | identifier (name : String)
  | literal (literal : Literal)
  | binary (op : BinaryOp) (left right : α)
  | unary (op : UnaryOp) (operand : α)
  | paren (inner : α)
  | varArg
  | functionCall (callee : α) (args : List α)
  | methodCall (receiver method : α) (args : List α)
  /-- The name `a.b:c` of a function that is called with an implicit receiver. -/
  | methodName (receiver method : α)
  | access (style : AccessStyle) (table key : α)
  | table (fields : List α)
  | field (style : FieldStyle) (key : Option α) (value : α)
  | anonymousFunction (params : List α) (body : α)
deriving DecidableEq, Repr

namespace Kind

variable {α β γ : Type}

instance : Inhabited (Kind α) := ⟨.varArg⟩

/-- The name of the kind in listings. -/
def name : Kind α → String
  | chunk .. => "Chunk"
  | block .. => "Block"
  | assignment .. => "Assignment"
  | compoundAssignment .. => "CompoundAssignment"
  | localNames .. => "Local"
  | localFunction .. => "LocalFunction"
  | function .. => "Function"
  | returning .. => "Return"
  | breaking => "Break"
  | continuing => "Continue"
  | doBlock .. => "Do"
  | ifChain .. => "If"
  | elseIf .. => "ElseIf"
  | elseBlock .. => "Else"
  | whileLoop .. => "While"
  | repeatLoop .. => "Repeat"
  | numericFor .. => "ForNumeric"
  | genericFor .. => "ForGeneric"
  | expressionStatement .. => "ExpressionStatement"
  | identifier .. => "Identifier"
  | literal .. => "Literal"
  | binary .. => "Binary"
  | unary .. => "Unary"
  | paren .. => "Paren"
  | varArg => "VarArg"
  | functionCall .. => "FunctionCall"
  | methodCall .. => "MethodCall"
  | methodName .. => "MethodDefinition"
  | access .. => "TableAccess"
  | table .. => "TableConstructor"
  | field .. => "TableField"
  | anonymousFunction .. => "AnonymousFunction"

def isExpression : Kind α → Bool
  | identifier .. | literal .. | binary .. | unary .. | paren .. | varArg | functionCall ..
  | methodCall .. | methodName .. | access .. | table .. | field .. | anonymousFunction .. => true
  | _ => false

/-- Statements proper: chunks, blocks and the clauses of an `if` are neither statements nor
expressions. -/
def isStatement (kind : Kind α) : Bool :=
  !kind.isExpression &&
    match kind with
    | chunk .. | block .. | elseIf .. | elseBlock .. => false
    | _ => true

/-- A statement behind which its block must end. -/
def isTerminal : Kind α → Bool
  | returning .. | breaking | continuing => true
  | _ => false

/-- What can stand left of an assignment. -/
def isAssignable : Kind α → Bool
  | identifier .. | access .. => true
  | _ => false

/-- An expression that can stand as a statement. -/
def isCallLike : Kind α → Bool
  | functionCall .. | methodCall .. | paren .. => true
  | _ => false

/-- The children in source order. -/
def children : Kind α → List α
  | chunk b => [b]
  | block statements => statements
  | assignment targets values => targets ++ values
  | compoundAssignment _ target value => [target, value]
  | localNames names values => names ++ values
  | localFunction n params body => n :: params ++ [body]
  | function n params body => n :: params ++ [body]
  | returning values => values
  | breaking => []
  | continuing => []
  | doBlock body => [body]
  | ifChain condition body elseIfs elseBranch => condition :: body :: elseIfs ++ elseBranch.toList
  | elseIf condition body => [condition, body]
  | elseBlock body => [body]
  | whileLoop condition body => [condition, body]
  | repeatLoop body condition => [body, condition]
  | numericFor counter start limit step body => counter :: start :: limit :: step.toList ++ [body]
  | genericFor names iterators body => names ++ iterators ++ [body]
  | expressionStatement expression => [expression]
  | identifier _ => []
  | literal _ => []
  | binary _ left right => [left, right]
  | unary _ operand => [operand]
  | paren inner => [inner]
  | varArg => []
  | functionCall callee args => callee :: args
  | methodCall receiver method args => receiver :: method :: args
  | methodName receiver method => [receiver, method]
  | access _ t key => [t, key]
  | table fields => fields
  | field _ key value => key.toList ++ [value]
  | anonymousFunction params body => params ++ [body]

/-- Replace every child. -/
def map (f : α → β) : Kind α → Kind β
  | chunk b => chunk (f b)
  | block statements => block (statements.map f)
  | assignment targets values => assignment (targets.map f) (values.map f)
  | compoundAssignment op target value => compoundAssignment op (f target) (f value)
  | localNames names values => localNames (names.map f) (values.map f)
  | localFunction n params body => localFunction (f n) (params.map f) (f body)
  | function n params body => function (f n) (params.map f) (f body)
  | returning values => returning (values.map f)
  | breaking => breaking
  | continuing => continuing
  | doBlock body => doBlock (f body)
  | ifChain condition body elseIfs elseBranch =>
    ifChain (f condition) (f body) (elseIfs.map f) (elseBranch.map f)
  | elseIf condition body => elseIf (f condition) (f body)
  | elseBlock body => elseBlock (f body)
  | whileLoop condition body => whileLoop (f condition) (f body)
  | repeatLoop body condition => repeatLoop (f body) (f condition)
  | numericFor counter start limit step body =>
    numericFor (f counter) (f start) (f limit) (step.map f) (f body)
  | genericFor names iterators body => genericFor (names.map f) (iterators.map f) (f body)
  | expressionStatement expression => expressionStatement (f expression)
  | identifier n => identifier n
  | literal l => literal l
  | binary op left right => binary op (f left) (f right)
  | unary op operand => unary op (f operand)
  | paren inner => paren (f inner)
  | varArg => varArg
  | functionCall callee args => functionCall (f callee) (args.map f)
  | methodCall receiver method args => methodCall (f receiver) (f method) (args.map f)
  | methodName receiver method => methodName (f receiver) (f method)
  | access style t key => access style (f t) (f key)
  | table fields => table (fields.map f)
  | field style key value => field style (key.map f) (f value)
  | anonymousFunction params body => anonymousFunction (params.map f) (f body)

/-- Replace every child by an action, in source order: `one` for a child that stands alone, `many`
for a list of children. -/
def traverse {m : Type → Type} [Monad m] (one : α → m β) (many : List α → m (List β)) :
    Kind α → m (Kind β)
  | chunk b => return chunk (← one b)
  | block statements => return block (← many statements)
  | assignment targets values => return assignment (← many targets) (← many values)
  | compoundAssignment op target value =>
    return compoundAssignment op (← one target) (← one value)
  | localNames names values => return localNames (← many names) (← many values)
  | localFunction n params body => return localFunction (← one n) (← many params) (← one body)
  | function n params body => return function (← one n) (← many params) (← one body)
  | returning values => return returning (← many values)
  | breaking => return breaking
  | continuing => return continuing
  | doBlock body => return doBlock (← one body)
  | ifChain condition body elseIfs elseBranch =>
    return ifChain (← one condition) (← one body) (← many elseIfs) (← elseBranch.mapM one)
  | elseIf condition body => return elseIf (← one condition) (← one body)
  | elseBlock body => return elseBlock (← one body)
  | whileLoop condition body => return whileLoop (← one condition) (← one body)
  | repeatLoop body condition => return repeatLoop (← one body) (← one condition)
  | numericFor counter start limit step body =>
    return numericFor (← one counter) (← one start) (← one limit) (← step.mapM one) (← one body)
  | genericFor names iterators body =>
    return genericFor (← many names) (← many iterators) (← one body)
  | expressionStatement expression => return expressionStatement (← one expression)
  | identifier n => return identifier n
  | literal l => return literal l
  | binary op left right => return binary op (← one left) (← one right)
  | unary op operand => return unary op (← one operand)
  | paren inner => return paren (← one inner)
  | varArg => return varArg
  | functionCall callee args => return functionCall (← one callee) (← many args)
  | methodCall receiver method args =>
    return methodCall (← one receiver) (← one method) (← many args)
  | methodName receiver method => return methodName (← one receiver) (← one method)
  | access style t key => return access style (← one t) (← one key)
  | table fields => return table (← many fields)
  | field style key value => return field style (← key.mapM one) (← one value)
  | anonymousFunction params body => return anonymousFunction (← many params) (← one body)

/-- Whether two nodes agree in everything but their children. Where the children in sequence do not
tell how they are shared out between lists, the length of the first list counts too. -/
def sameShape : Kind α → Kind β → Bool
  | identifier a, identifier b => a == b
  | literal a, literal b => a == b
  | binary a _ _, binary b _ _ => a == b
  | unary a _, unary b _ => a == b
  | compoundAssignment a _ _, compoundAssignment b _ _ => a == b
  | access a _ _, access b _ _ => a == b
  | field a _ _, field b _ _ => a == b
  | numericFor _ _ _ a _, numericFor _ _ _ b _ => a.isSome == b.isSome
  | assignment a _, assignment b _ => a.length == b.length
  | localNames a _, localNames b _ => a.length == b.length
  | genericFor a _ _, genericFor b _ _ => a.length == b.length
  | function _ a _, function _ b _ => a.length == b.length
  | localFunction _ a _, localFunction _ b _ => a.length == b.length
  | a, b => a.name == b.name

/-- What distinguishes a node from others of its kind: its operator, name, value or style. -/
def detail? : Kind α → Option String
  | identifier n => some n
  | literal l => some l.text
  | binary op _ _ => some op.symbol
  | unary op _ => some op.symbol
  | compoundAssignment op _ _ => some (op.symbol ++ "=")
  | access style _ _ => some style.label
  | field style _ _ => some style.label
  | _ => none

/-- The name of a node and, if it has one, its detail. -/
def label (kind : Kind α) : String :=
  match kind.detail? with
  | some detail => kind.name ++ " " ++ detail
  | none => kind.name

theorem children_map (f : α → β) (kind : Kind α) :
    (kind.map f).children = kind.children.map f := by
  cases kind <;> simp [map, children]
  case ifChain condition body elseIfs elseBranch => cases elseBranch <;> rfl
  case numericFor counter start limit step body => cases step <;> rfl
  case field style key value => cases key <;> rfl

theorem map_congr {f g : α → β} (kind : Kind α) (h : ∀ c ∈ kind.children, f c = g c) :
    kind.map f = kind.map g := by
  cases kind <;> simp_all [map, children]
  all_goals grind [Option.map_congr, List.map_congr_left]

theorem map_map (g : β → γ) (f : α → β) (kind : Kind α) :
    (kind.map f).map g = kind.map (g ∘ f) := by
  cases kind <;> simp [map]

@[simp] theorem name_map (f : α → β) (kind : Kind α) : (kind.map f).name = kind.name := by
  cases kind <;> rfl

@[simp] theorem label_map (f : α → β) (kind : Kind α) : (kind.map f).label = kind.label := by
  have detail : (kind.map f).detail? = kind.detail? := by cases kind <;> rfl
  simp [label, detail]

end Kind

end LuaTree
