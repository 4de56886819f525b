import LuaTree.Proofs.Separation

/-!
# Trees that are programs

A tree is well formed when each child is of the sort that its place asks for:
blocks where bodies stand, names where names stand, statements that end a block
only at its end. Names, numbers and strings are texts that can be written.

Nothing is said here about parentheses and comments. Both are conditions on one
node at a time, and `WellFormed` takes such a condition as a parameter. `Fit` is
the condition that makes a tree come back from its own text: operands hold
together without parentheses, and comments can stand where they are written.
-/

namespace LuaTree

/-- How a node holds together as an operand. -/
def Kind.grip {α : Type} : Kind α → Grip
  | .binary op _ _ => .binary op
  | .unary _ _ => .unary
  | _ => .closed

def Tree.grip {ι : Type} (t : Tree ι) : Grip :=
  t.kind.grip

@[simp] theorem Kind.grip_map {α β : Type} (f : α → β) (kind : Kind α) :
    (kind.map f).grip = kind.grip := by
  cases kind <;> rfl

namespace Layout

theorem fragment_node (o : Layout) (origin : Origin) (kind : Kind SourceTree) :
    o.fragment (.node origin kind) = o.node origin (kind.map o.fragment) :=
  Tree.fold_node _ _ _

theorem node_grip (o : Layout) (origin : Origin) (kind : Kind Fragment) :
    (o.node origin kind).grip = kind.grip := by
  cases kind
  case access style table key => cases style <;> rfl
  case field style key value => cases style <;> cases key <;> rfl
  all_goals rfl

@[simp] theorem fragment_grip (o : Layout) (t : SourceTree) : (o.fragment t).grip = t.grip := by
  obtain ⟨origin, kind⟩ := t
  rw [fragment_node, node_grip, Kind.grip_map]
  rfl

end Layout

/-- Whether the text of an expression begins with the word `function`. -/
def Tree.opensWithFunction {ι : Type} : Tree ι → Bool :=
  Tree.fold fun _ kind =>
    match kind with
    | .anonymousFunction .. => true
    | .functionCall callee _ => callee
    | .methodCall receiver _ _ => receiver
    | .access _ table _ => table
    | _ => false

/-- A text that is one identifier. -/
def IsIdentifier (text : String) : Prop :=
  Piece.cut text.toList = [.token .identifier text.toList]

instance (text : String) : Decidable (IsIdentifier text) :=
  inferInstanceAs (Decidable (Piece.cut text.toList = [.token .identifier text.toList]))

theorem isIdentifier_iff {text : String} :
    IsIdentifier text ↔ Piece.Genuine (.token .identifier text.toList) := by
  constructor
  · intro alone
    exact Piece.genuine_of_mem_cut (alone ▸ List.mem_singleton_self _) rfl
  · intro genuine
    obtain ⟨c, rest, chars, word, same⟩ := Piece.word_of_identifier genuine
    have fits : (Piece.ofWord (c :: rest)).Fits [] := Piece.fits_ofWord word (by simp)
    rw [← chars, same, Piece.Fits, Piece.cut, List.append_nil] at fits
    exact fits

/-- A literal whose text is one token. -/
def Literal.IsToken (l : Literal) : Prop :=
  match l.kind with
  | .number => Piece.cut l.value.toList = [.token .number l.value.toList]
  | .string quote => isQuote quote = true ∧ isQuotable quote l.value.toList = true
  | .boolean => l.value = "true" ∨ l.value = "false"
  | .nil => l.value = "nil"

/-- The places of a program in which a tree can stand. -/
inductive Role where
  | name
  /-- `a.b.c` -/
  | dottedName
  /-- The name of a function: a dotted name, perhaps with a method behind it. -/
  | functionName
  | parameter
  | expression
  | field
  | elseIf
  | elseBlock
  | statement
  | block
  | chunk
deriving DecidableEq, Repr

/-- A tree that can stand in a place, each of whose nodes satisfies `P`. -/
inductive WellFormed (P : Origin → Kind SourceTree → Prop) : Role → SourceTree → Prop
  -- names
  | name {m : Origin} {text : String} (identifier : IsIdentifier text)
      (fit : P m (.identifier text)) : WellFormed P .name (.node m (.identifier text))
  | plain {t : SourceTree} (name : WellFormed P .name t) : WellFormed P .dottedName t
  | dotted {m : Origin} {t key : SourceTree} (table : WellFormed P .dottedName t)
      (name : WellFormed P .name key) (fit : P m (.access .dot t key)) :
      WellFormed P .dottedName (.node m (.access .dot t key))
  | function {t : SourceTree} (name : WellFormed P .dottedName t) : WellFormed P .functionName t
  | method {m : Origin} {t name : SourceTree} (table : WellFormed P .dottedName t)
      (method : WellFormed P .name name) (fit : P m (.methodName t name)) :
      WellFormed P .functionName (.node m (.methodName t name))
  | parameter {t : SourceTree} (name : WellFormed P .name t) : WellFormed P .parameter t
  | varParameter {m : Origin} (fit : P m .varArg) : WellFormed P .parameter (.node m .varArg)
  -- expressions
  | ofName {t : SourceTree} (name : WellFormed P .name t) : WellFormed P .expression t
  | literal {m : Origin} {l : Literal} (token : l.IsToken) (fit : P m (.literal l)) :
      WellFormed P .expression (.node m (.literal l))
  | varArg {m : Origin} (fit : P m .varArg) : WellFormed P .expression (.node m .varArg)
  | binary {m : Origin} {op : BinaryOp} {l r : SourceTree} (left : WellFormed P .expression l)
      (right : WellFormed P .expression r) (fit : P m (.binary op l r)) :
      WellFormed P .expression (.node m (.binary op l r))
  | unary {m : Origin} {op : UnaryOp} {e : SourceTree} (operand : WellFormed P .expression e)
      (fit : P m (.unary op e)) : WellFormed P .expression (.node m (.unary op e))
  | paren {m : Origin} {e : SourceTree} (inner : WellFormed P .expression e)
      (fit : P m (.paren e)) : WellFormed P .expression (.node m (.paren e))
  | call {m : Origin} {f : SourceTree} {args : List SourceTree}
      (callee : WellFormed P .expression f)
      (arguments : ∀ arg ∈ args, WellFormed P .expression arg) (fit : P m (.functionCall f args)) :
      WellFormed P .expression (.node m (.functionCall f args))
  | methodCall {m : Origin} {e name : SourceTree} {args : List SourceTree}
      (receiver : WellFormed P .expression e) (method : WellFormed P .name name)
      (arguments : ∀ arg ∈ args, WellFormed P .expression arg)
      (fit : P m (.methodCall e name args)) :
      WellFormed P .expression (.node m (.methodCall e name args))
  | member {m : Origin} {t key : SourceTree} (table : WellFormed P .expression t)
      (name : WellFormed P .name key) (fit : P m (.access .dot t key)) :
      WellFormed P .expression (.node m (.access .dot t key))
  | index {m : Origin} {t e : SourceTree} (table : WellFormed P .expression t)
      (key : WellFormed P .expression e) (fit : P m (.access .bracket t e)) :
      WellFormed P .expression (.node m (.access .bracket t e))
  | table {m : Origin} {fs : List SourceTree} (fields : ∀ f ∈ fs, WellFormed P .field f)
      (fit : P m (.table fs)) : WellFormed P .expression (.node m (.table fs))
  | anonymousFunction {m : Origin} {ps : List SourceTree} {b : SourceTree}
      (parameters : ∀ p ∈ ps, WellFormed P .parameter p)
      (varArgLast : ∀ p ∈ ps.dropLast, WellFormed P .name p) (body : WellFormed P .block b)
      (fit : P m (.anonymousFunction ps b)) :
      WellFormed P .expression (.node m (.anonymousFunction ps b))
  -- fields of tables
  | positional {m : Origin} {e : SourceTree} (value : WellFormed P .expression e)
      (fit : P m (.field .positional none e)) :
      WellFormed P .field (.node m (.field .positional none e))
  | named {m : Origin} {key e : SourceTree} (name : WellFormed P .name key)
      (value : WellFormed P .expression e) (fit : P m (.field .named (some key) e)) :
      WellFormed P .field (.node m (.field .named (some key) e))
  | bracketed {m : Origin} {k e : SourceTree} (key : WellFormed P .expression k)
      (value : WellFormed P .expression e) (fit : P m (.field .bracketed (some k) e)) :
      WellFormed P .field (.node m (.field .bracketed (some k) e))
  -- statements
  | assignment {m : Origin} {ts vs : List SourceTree} (someTarget : ts ≠ [])
      (targets : ∀ t ∈ ts, WellFormed P .expression t)
      (assignable : ∀ t ∈ ts, t.kind.isAssignable = true)
      (noFunction : ∀ t ∈ ts.head?, t.opensWithFunction = false) (someValue : vs ≠ [])
      (values : ∀ v ∈ vs, WellFormed P .expression v) (fit : P m (.assignment ts vs)) :
      WellFormed P .statement (.node m (.assignment ts vs))
  | compoundAssignment {m : Origin} {op : BinaryOp} {t v : SourceTree}
      (sign : op.assignToken?.isSome = true) (target : WellFormed P .expression t)
      (assignable : t.kind.isAssignable = true) (noFunction : t.opensWithFunction = false)
      (value : WellFormed P .expression v) (fit : P m (.compoundAssignment op t v)) :
      WellFormed P .statement (.node m (.compoundAssignment op t v))
  | localNames {m : Origin} {ns vs : List SourceTree} (someName : ns ≠ [])
      (names : ∀ n ∈ ns, WellFormed P .name n) (values : ∀ v ∈ vs, WellFormed P .expression v)
      (fit : P m (.localNames ns vs)) : WellFormed P .statement (.node m (.localNames ns vs))
  | localFunction {m : Origin} {n b : SourceTree} {ps : List SourceTree}
      (name : WellFormed P .name n) (parameters : ∀ p ∈ ps, WellFormed P .parameter p)
      (varArgLast : ∀ p ∈ ps.dropLast, WellFormed P .name p) (body : WellFormed P .block b)
      (fit : P m (.localFunction n ps b)) :
      WellFormed P .statement (.node m (.localFunction n ps b))
  | functionDefinition {m : Origin} {n b : SourceTree} {ps : List SourceTree}
      (name : WellFormed P .functionName n) (parameters : ∀ p ∈ ps, WellFormed P .parameter p)
      (varArgLast : ∀ p ∈ ps.dropLast, WellFormed P .name p) (body : WellFormed P .block b)
      (fit : P m (.function n ps b)) : WellFormed P .statement (.node m (.function n ps b))
  | returning {m : Origin} {vs : List SourceTree} (values : ∀ v ∈ vs, WellFormed P .expression v)
      (fit : P m (.returning vs)) : WellFormed P .statement (.node m (.returning vs))
  | breaking {m : Origin} (fit : P m .breaking) : WellFormed P .statement (.node m .breaking)
  | continuing {m : Origin} (fit : P m .continuing) :
      WellFormed P .statement (.node m .continuing)
  | doBlock {m : Origin} {b : SourceTree} (body : WellFormed P .block b)
      (fit : P m (.doBlock b)) : WellFormed P .statement (.node m (.doBlock b))
  | ifChain {m : Origin} {e b : SourceTree} {clauses : List SourceTree}
      {branch : Option SourceTree} (condition : WellFormed P .expression e)
      (body : WellFormed P .block b) (elseIfs : ∀ clause ∈ clauses, WellFormed P .elseIf clause)
      (elseBranch : ∀ clause ∈ branch, WellFormed P .elseBlock clause)
      (fit : P m (.ifChain e b clauses branch)) :
      WellFormed P .statement (.node m (.ifChain e b clauses branch))
  | whileLoop {m : Origin} {e b : SourceTree} (condition : WellFormed P .expression e)
      (body : WellFormed P .block b) (fit : P m (.whileLoop e b)) :
      WellFormed P .statement (.node m (.whileLoop e b))
  | repeatLoop {m : Origin} {b e : SourceTree} (body : WellFormed P .block b)
      (condition : WellFormed P .expression e) (fit : P m (.repeatLoop b e)) :
      WellFormed P .statement (.node m (.repeatLoop b e))
  | numericFor {m : Origin} {n e₁ e₂ b : SourceTree} {e₃ : Option SourceTree}
      (counter : WellFormed P .name n) (start : WellFormed P .expression e₁)
      (limit : WellFormed P .expression e₂) (step : ∀ e ∈ e₃, WellFormed P .expression e)
      (body : WellFormed P .block b) (fit : P m (.numericFor n e₁ e₂ e₃ b)) :
      WellFormed P .statement (.node m (.numericFor n e₁ e₂ e₃ b))
  | genericFor {m : Origin} {ns es : List SourceTree} {b : SourceTree} (someName : ns ≠ [])
      (names : ∀ n ∈ ns, WellFormed P .name n) (someIterator : es ≠ [])
      (iterators : ∀ e ∈ es, WellFormed P .expression e) (body : WellFormed P .block b)
      (fit : P m (.genericFor ns es b)) : WellFormed P .statement (.node m (.genericFor ns es b))
  | expressionStatement {m : Origin} {e : SourceTree} (expression : WellFormed P .expression e)
      (call : e.kind.isCallLike = true) (noFunction : e.opensWithFunction = false)
      (fit : P m (.expressionStatement e)) :
      WellFormed P .statement (.node m (.expressionStatement e))
  -- clauses, blocks and programs
  | elseIf {m : Origin} {e b : SourceTree} (condition : WellFormed P .expression e)
      (body : WellFormed P .block b) (fit : P m (.elseIf e b)) :
      WellFormed P .elseIf (.node m (.elseIf e b))
  | elseBlock {m : Origin} {b : SourceTree} (body : WellFormed P .block b)
      (fit : P m (.elseBlock b)) : WellFormed P .elseBlock (.node m (.elseBlock b))
  | block {m : Origin} {ss : List SourceTree} (statements : ∀ s ∈ ss, WellFormed P .statement s)
      (terminalLast : ∀ s ∈ ss.dropLast, s.kind.isTerminal = false) (fit : P m (.block ss)) :
      WellFormed P .block (.node m (.block ss))
  | chunk {m : Origin} {b : SourceTree} (body : WellFormed P .block b) (fit : P m (.chunk b)) :
      WellFormed P .chunk (.node m (.chunk b))

theorem WellFormed.closed_of_dottedName {P : Origin → Kind SourceTree → Prop} {t : SourceTree}
    (formed : WellFormed P .dottedName t) : t.grip = .closed := by
  cases formed with
  | plain name => cases name; rfl
  | dotted => rfl

namespace BinaryOp

theorem ne_pow_of_precedence {op : BinaryOp} (low : op.precedence < UnaryOp.precedence) :
    (op == .pow) = false := by
  cases op <;> first | rfl | exact absurd low (by decide)

/-- Operators of one level group to the same side. -/
theorem associativity_eq {op other : BinaryOp} (same : op.precedence = other.precedence) :
    op.associativity = other.associativity := by
  cases op <;> cases other <;> first | rfl | exact absurd same (by decide)

end BinaryOp

namespace Grip

/-- The level of the outermost operator; what is closed stands above all operators. -/
def level : Grip → Nat
  | binary op => op.precedence
  | unary => UnaryOp.precedence
  | closed => 13

theorem isLooseBinary_eq_false_iff (g : Grip) :
    g.isLooseBinary = false ↔ UnaryOp.precedence ≤ g.level := by
  cases g with
  | binary op => cases op <;> decide
  | unary => decide
  | closed => decide

theorem needsPrefixParens_eq_false_iff (g : Grip) : g.needsPrefixParens = false ↔ g = closed := by
  cases g <;> simp [needsPrefixParens]

theorem precedence_lt_closed (op : BinaryOp) : op.precedence < level closed := by
  cases op <;> decide

/-- An operand needs no parentheses if it binds tighter than the operator, or as tight on the side
to which the operator groups. -/
theorem needsParens_eq_false_iff {op : BinaryOp} {isRight : Bool} (g : Grip)
    (plain : (op == .pow && isRight) = false) :
    needsParens op isRight g = false ↔ op.precedence < g.level ∨
      op.precedence = g.level ∧ op.isRelational = false ∧ op.isRightAssociative = isRight := by
  have operated (own : Nat) :
      (if own = op.precedence then op.isRelational || op.isRightAssociative != isRight
        else decide (own < op.precedence)) = false ↔ op.precedence < own ∨
      op.precedence = own ∧ op.isRelational = false ∧ op.isRightAssociative = isRight := by
    by_cases same : own = op.precedence
    · simp [same]
    · simp [same]
      omega
  cases g with
  | closed => simp [needsParens, plain, precedence?, precedence_lt_closed]
  | unary => simpa [needsParens, plain, precedence?, level] using operated _
  | binary other => simpa [needsParens, plain, precedence?, level] using operated _

theorem needsParens_pow_left_eq_false_iff (g : Grip) :
    needsParens .pow false g = false ↔ g = closed := by
  cases g with
  | closed => decide
  | unary => decide
  | binary op => cases op <;> decide

end Grip

/-- No operand of the node needs parentheses. -/
def Kind.Snug : Kind SourceTree → Prop
  | .binary op l r =>
    l.grip.needsParens op false = false ∧ r.grip.needsParens op true = false
  | .unary _ e => e.grip.isLooseBinary = false
  | .functionCall f _ => f.grip.needsPrefixParens = false
  | .methodCall e _ _ => e.grip.needsPrefixParens = false
  | .access _ t _ => t.grip.needsPrefixParens = false
  | _ => True

/-- The text of the comment does not end it early. -/
def Comment.IsWritable (c : Comment) : Prop :=
  Piece.Genuine (Layout.comment c)

/-- Whether other comments may stand behind this one on its line. -/
def Comment.leavesLineOpen (c : Comment) : Bool :=
  c.kind == .block && !c.text.toList.contains '\n'

/-- Comments stand around statements and at the end of blocks. Those that trail a statement are
all on one line. -/
def Origin.IsPlaced (m : Origin) : Kind SourceTree → Prop
  | .block _ => m.leading = []
  | kind =>
    if kind.isStatement then ∀ c ∈ m.trailing.dropLast, c.leavesLineOpen = true
    else m.leading = [] ∧ m.trailing = []

theorem isPlaced_iff_of_isStatement {m : Origin} {kind : Kind SourceTree}
    (statement : kind.isStatement = true) :
    m.IsPlaced kind ↔ ∀ comment ∈ m.trailing.dropLast, comment.leavesLineOpen = true := by
  cases kind <;> first | rfl | exact absurd statement (by simp [Kind.isStatement,
    Kind.isExpression])

/-- The condition under which a node comes back from its text as it was. -/
structure Fit (m : Origin) (kind : Kind SourceTree) : Prop where
  snug : kind.Snug
  leading : ∀ c ∈ m.leading, c.IsWritable
  trailing : ∀ c ∈ m.trailing, c.IsWritable
  placed : m.IsPlaced kind

/-- A node without comments. -/
def Origin.IsBare (m : Origin) : Prop :=
  m.leading = [] ∧ m.trailing = []

theorem Fit.of_bare {m : Origin} {kind : Kind SourceTree} (bare : m.IsBare) (snug : kind.Snug) :
    Fit m kind where
  snug := snug
  leading := by simp [bare.1]
  trailing := by simp [bare.2]
  placed := by
    unfold Origin.IsPlaced
    split
    · exact bare.1
    · split
      · simp [bare.2]
      · exact bare

theorem Fit.of_span {span : Span} {kind : Kind SourceTree} (snug : kind.Snug) :
    Fit (.ofSpan span) kind :=
  .of_bare ⟨rfl, rfl⟩ snug

/-- A tree that comes back from its text as it was. -/
abbrev Writable (role : Role) (t : SourceTree) : Prop :=
  WellFormed Fit role t

end LuaTree
