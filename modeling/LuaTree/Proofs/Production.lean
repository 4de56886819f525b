import LuaTree.Grammar.Parse

/-!
# What the productions read

For each production there is a relation between the cursor before it, the value
it yields and the cursor behind it, with one constructor for each way to
succeed. `Grammar.Step` collects them for the rules, and
`step_gives_iff` says that they are exact: a production succeeds in the ways
listed here and in no other.

The relations take what the rules read as a parameter, as the productions take
the rules. Errors are not described here.
-/

namespace LuaTree

namespace TokenKind

/-- The kinds of tokens that end a block. -/
def endsBlock : TokenKind → Bool
  | .endKw | .elseKw | .elseIfKw | .untilKw | .eof => true
  | _ => false

/-- The binary operator that a token writes. -/
def binaryOp? (kind : TokenKind) : Option BinaryOp :=
  BinaryOp.all.find? fun op => op.token == kind

theorem token_of_binaryOp? {kind : TokenKind} {op : BinaryOp} (sign : kind.binaryOp? = some op) :
    kind = op.token := by
  have fits := List.find?_some sign
  exact (beq_iff_eq.mp fits).symm

theorem token_of_unaryOp? {kind : TokenKind} {op : UnaryOp} (sign : kind.unaryOp? = some op) :
    kind = op.token := by
  cases kind <;> cases sign <;> rfl

end TokenKind

theorem BinaryOp.binaryOp?_token (op : BinaryOp) : op.token.binaryOp? = some op := by
  cases op <;> rfl

namespace Cursor

/-- A childless node for the token in front. -/
def leaf (c : Cursor) (kind : Kind SourceTree) : SourceTree :=
  .node (.ofSpan c.current.span) kind

/-- A node from the start of a span to the end of the token just read. -/
def close (c : Cursor) (start : Span) (kind : Kind SourceTree) : SourceTree :=
  .node (.ofSpan (start.through c.last)) kind

/-- Step over the token in front if it is of the given kind. -/
def skip (c : Cursor) (kind : TokenKind) : Cursor :=
  if c.current.kind = kind then c.advance else c

/-- Nothing in front is a value to return. -/
def endsReturn (c : Cursor) : Prop :=
  c.current.kind = .semicolon ∨ c.current.kind.endsBlock = true

/-- Whether a comment ends before the token in front. -/
def isBefore (c : Cursor) (comment : Comment) : Bool :=
  comment.span.endOffset ≤ c.current.span.startOffset

/-- Whether a comment begins before the end of the token just read. -/
def isInside (c : Cursor) (comment : Comment) : Bool :=
  comment.span.startOffset < c.last.endOffset

/-- Whether a comment begins where the token just read ends and ends before the one in front. -/
def trails (c : Cursor) (comment : Comment) : Bool :=
  comment.span.start.line == c.last.stop.line && c.isBefore comment

/-- The comments that lead what is in front, and the cursor without them. -/
def leading (c : Cursor) : List Comment :=
  c.comments.takeWhile c.isBefore

def afterLeading (c : Cursor) : Cursor :=
  { c with comments := c.comments.dropWhile c.isBefore }

/-- The comments that trail what was just read, and the cursor without them. -/
def trailing (c : Cursor) : List Comment :=
  (c.comments.dropWhile c.isInside).takeWhile c.trails

def afterTrailing (c : Cursor) : Cursor :=
  { c with comments :=
      c.comments.takeWhile c.isInside ++ (c.comments.dropWhile c.isInside).dropWhile c.trails }

@[simp] theorem current_afterTrailing (c : Cursor) : c.afterTrailing.current = c.current := rfl

end Cursor

@[simp] theorem Tree.kind_withComments (t : SourceTree) (leading trailing : List Comment) :
    (t.withComments leading trailing).kind = t.kind := by
  cases t
  rfl

namespace Grammar

/-- What rules read: before a cursor a value, up to another cursor. -/
abbrev Reading := (α : Type) → Rule α → Cursor → α → Cursor → Prop

/-- An operation on two operands, from the start of the one to the end of the other. -/
def binary (op : BinaryOp) (left right : SourceTree) : SourceTree :=
  .node (.ofSpan (left.span.through right.span)) (.binary op left right)

/-- From the first of some statements to the last; where there are none, the place itself. -/
def blockSpan (place : Span) (statements : List SourceTree) : Span :=
  match statements.head?, statements.getLast? with
  | some first, some last => first.span.through last.span
  | _, _ => place.atStart

/-- An operator stands on the level of its precedence, with the token that writes it. -/
theorem stands_levelAt (level : Nat) : ∀ entry ∈ (levelAt level).operators,
    entry.1 = entry.2.token ∧ entry.2.precedence = level := by
  unfold levelAt
  split <;> first | decide | simp

/-- Each level of the ladder has the operators with its precedence. -/
theorem operator?_eq_some {level : Nat} {kind : TokenKind} {op : BinaryOp} :
    (levelAt level).operator? kind = some op ↔
      kind.binaryOp? = some op ∧ op.precedence = level := by
  constructor
  · intro found
    obtain ⟨before, behind, split, -⟩ := List.lookup_eq_some_iff.mp found
    have stands : kind = op.token ∧ op.precedence = level :=
      stands_levelAt level (kind, op) (by simp [split])
    exact ⟨by rw [stands.1, op.binaryOp?_token], stands.2⟩
  · rintro ⟨sign, rfl⟩
    rw [TokenKind.token_of_binaryOp? sign]
    cases op <;> rfl

theorem operator?_eq_none {level : Nat} {kind : TokenKind} :
    (levelAt level).operator? kind = none ↔
      ∀ op, kind.binaryOp? = some op → op.precedence ≠ level := by
  simp [Option.eq_none_iff_forall_ne_some, operator?_eq_some]

theorem operator?_power {kind : TokenKind} {op : BinaryOp} :
    (levelAt (unaryLevel + 1)).operator? kind = some op ↔ kind = .caret ∧ op = .pow := by
  rw [operator?_eq_some]
  constructor
  · rintro ⟨sign, precedence⟩
    obtain rfl : op = .pow := by cases op <;> first | rfl | cases precedence
    exact ⟨TokenKind.token_of_binaryOp? sign, rfl⟩
  · rintro ⟨rfl, rfl⟩
    exact ⟨rfl, rfl⟩

@[simp] theorem grouping_levelAt (op : BinaryOp) :
    (levelAt op.precedence).grouping = op.associativity := by
  cases op <;> rfl

inductive Name (c : Cursor) : SourceTree → Cursor → Prop
  | intro (kind : c.current.kind = .identifier) :
      Name c (c.leaf (.identifier c.current.lexeme)) c.advance

section Expressions

variable (R : Reading)

inductive Expressions (c : Cursor) : List SourceTree → Cursor → Prop
  | intro {first : SourceTree} {more : List SourceTree} {c₁ c₂ : Cursor}
      (readFirst : R _ (.expression 1) c first c₁) (readMore : R _ .moreExpressions c₁ more c₂) :
      Expressions c (first :: more) c₂

inductive MoreExpressions (c : Cursor) : List SourceTree → Cursor → Prop
  | none (stop : c.current.kind ≠ .comma) : MoreExpressions c [] c
  | some {list : List SourceTree} {c₁ : Cursor} (comma : c.current.kind = .comma)
      (readList : R _ .expressions c.advance list c₁) : MoreExpressions c list c₁

/-- A list up to and with a closing parenthesis. -/
inductive Enclosed (rule : Rule (List SourceTree)) (c : Cursor) : List SourceTree → Cursor → Prop
  | none (close : c.current.kind = .rParen) : Enclosed rule c [] c.advance
  | some {list : List SourceTree} {c₁ : Cursor} (start : c.current.kind ≠ .rParen)
      (readList : R _ rule c list c₁) (close : c₁.current.kind = .rParen) :
      Enclosed rule c list c₁.advance

inductive Parameters (c : Cursor) : List SourceTree → Cursor → Prop
  | varArg (kind : c.current.kind = .ellipsis) : Parameters c [c.leaf .varArg] c.advance
  | last {param : SourceTree} {c₁ : Cursor} (readName : Name c param c₁)
      (stop : c₁.current.kind ≠ .comma) : Parameters c [param] c₁
  | more {param : SourceTree} {params : List SourceTree} {c₁ c₂ : Cursor}
      (readName : Name c param c₁) (comma : c₁.current.kind = .comma)
      (readMore : R _ .parameters c₁.advance params c₂) :
      Parameters c (param :: params) c₂

inductive FunctionBody (c : Cursor) : List SourceTree → SourceTree → Cursor → Prop
  | intro {params : List SourceTree} {body : SourceTree} {c₁ c₂ : Cursor}
      (start : c.current.kind = .lParen) (readParams : Enclosed R .parameters c.advance params c₁)
      (readBody : R _ .block c₁ body c₂) (close : c₂.current.kind = .endKw) :
      FunctionBody c params body c₂.advance

inductive Field (c : Cursor) : SourceTree → Cursor → Prop
  | bracketed {key value : SourceTree} {c₁ c₂ : Cursor} (start : c.current.kind = .lBracket)
      (readKey : R _ (.expression 1) c.advance key c₁) (close : c₁.current.kind = .rBracket)
      (assign : c₁.advance.current.kind = .assign)
      (readValue : R _ (.expression 1) c₁.advance.advance value c₂) :
      Field c (c₂.close c.current.span (.field .bracketed (some key) value)) c₂
  | named {key value : SourceTree} {c₁ c₂ : Cursor} (readName : Name c key c₁)
      (assign : c.following.kind = .assign) (readValue : R _ (.expression 1) c₁.advance value c₂) :
      Field c (c₂.close c.current.span (.field .named (some key) value)) c₂
  | positional {value : SourceTree} {c₁ : Cursor} (noKey : c.current.kind ≠ .lBracket)
      (noName : ¬ (c.current.kind = .identifier ∧ c.following.kind = .assign))
      (readValue : R _ (.expression 1) c value c₁) :
      Field c (c₁.close c.current.span (.field .positional none value)) c₁

inductive Fields (c : Cursor) : List SourceTree → Cursor → Prop
  | none (stop : c.current.kind = .rBrace ∨ c.current.kind = .eof) : Fields c [] c
  | last {field : SourceTree} {c₁ : Cursor}
      (start : ¬ (c.current.kind = .rBrace ∨ c.current.kind = .eof))
      (readField : Field R c field c₁)
      (stop : ¬ (c₁.current.kind = .comma ∨ c₁.current.kind = .semicolon)) : Fields c [field] c₁
  | more {field : SourceTree} {fields : List SourceTree} {c₁ c₂ : Cursor}
      (start : ¬ (c.current.kind = .rBrace ∨ c.current.kind = .eof))
      (readField : Field R c field c₁)
      (divider : c₁.current.kind = .comma ∨ c₁.current.kind = .semicolon)
      (readMore : R _ .fields c₁.advance fields c₂) : Fields c (field :: fields) c₂

inductive Primary (c : Cursor) : SourceTree → Cursor → Prop
  | literal {literal : Literal} (token : literal? c.current = some literal) :
      Primary c (c.leaf (.literal literal)) c.advance
  | name {t : SourceTree} {c₁ : Cursor} (readName : Name c t c₁) : Primary c t c₁
  | varArg (kind : c.current.kind = .ellipsis) : Primary c (c.leaf .varArg) c.advance
  | table {fields : List SourceTree} {c₁ : Cursor} (start : c.current.kind = .lBrace)
      (readFields : R _ .fields c.advance fields c₁) (close : c₁.current.kind = .rBrace) :
      Primary c (c₁.advance.close c.current.span (.table fields)) c₁.advance
  | function {params : List SourceTree} {body : SourceTree} {c₁ : Cursor}
      (start : c.current.kind = .functionKw) (readBody : FunctionBody R c.advance params body c₁) :
      Primary c (c₁.close c.current.span (.anonymousFunction params body)) c₁
  | paren {inner : SourceTree} {c₁ : Cursor} (start : c.current.kind = .lParen)
      (readInner : R _ (.expression 1) c.advance inner c₁) (close : c₁.current.kind = .rParen) :
      Primary c (c₁.advance.close c.current.span (.paren inner)) c₁.advance

/-- Nothing in front goes on with a call or an access. -/
structure EndsSuffixes (c : Cursor) : Prop where
  noDot : c.current.kind ≠ .dot
  noColon : c.current.kind ≠ .colon
  lineBreak : c.current.kind = .lParen ∨ c.current.kind = .lBracket → c.breaksLine = true

inductive Suffixes (head : SourceTree) (c : Cursor) : SourceTree → Cursor → Prop
  | done (stop : EndsSuffixes c) : Suffixes head c head c
  | call {args : List SourceTree} {t : SourceTree} {c₁ c₂ : Cursor}
      (start : c.current.kind = .lParen) (sameLine : c.breaksLine = false)
      (readArgs : Enclosed R .expressions c.advance args c₁)
      (readMore : R _ (.suffixes (c₁.close head.span (.functionCall head args))) c₁ t c₂) :
      Suffixes head c t c₂
  | index {key t : SourceTree} {c₁ c₂ : Cursor}
      (start : c.current.kind = .lBracket) (sameLine : c.breaksLine = false)
      (readKey : R _ (.expression 1) c.advance key c₁) (close : c₁.current.kind = .rBracket)
      (readMore : R _ (.suffixes (c₁.advance.close head.span (.access .bracket head key)))
        c₁.advance t c₂) : Suffixes head c t c₂
  | dot {key t : SourceTree} {c₁ c₂ : Cursor} (start : c.current.kind = .dot)
      (readName : Name c.advance key c₁)
      (readMore : R _ (.suffixes (c₁.close head.span (.access .dot head key))) c₁ t c₂) :
      Suffixes head c t c₂
  | method {name t : SourceTree} {args : List SourceTree} {c₁ c₂ c₃ : Cursor}
      (start : c.current.kind = .colon) (readName : Name c.advance name c₁)
      (parens : c₁.current.kind = .lParen) (readArgs : Enclosed R .expressions c₁.advance args c₂)
      (readMore : R _ (.suffixes (c₂.close head.span (.methodCall head name args))) c₂ t c₃) :
      Suffixes head c t c₃

inductive PrefixExpression (c : Cursor) : SourceTree → Cursor → Prop
  | intro {head t : SourceTree} {c₁ c₂ : Cursor} (readHead : Primary R c head c₁)
      (readMore : R _ (.suffixes head) c₁ t c₂) : PrefixExpression c t c₂

inductive Power (c : Cursor) : SourceTree → Cursor → Prop
  | plain {t : SourceTree} {c₁ : Cursor} (readBase : PrefixExpression R c t c₁)
      (stop : c₁.current.kind ≠ .caret) : Power c t c₁
  | pow {left right : SourceTree} {c₁ c₂ : Cursor} (readBase : PrefixExpression R c left c₁)
      (caret : c₁.current.kind = .caret)
      (readExponent : R _ (.expression UnaryOp.precedence) c₁.advance right c₂) :
      Power c (binary .pow left right) c₂

inductive Unary (c : Cursor) : SourceTree → Cursor → Prop
  | op {op : UnaryOp} {operand : SourceTree} {c₁ : Cursor}
      (sign : c.current.kind.unaryOp? = some op)
      (readOperand : R _ (.expression UnaryOp.precedence) c.advance operand c₁) :
      Unary c (.node (.ofSpan (c.current.span.through operand.span)) (.unary op operand)) c₁
  | power {t : SourceTree} {c₁ : Cursor} (noSign : c.current.kind.unaryOp? = none)
      (readPower : Power R c t c₁) : Unary c t c₁

inductive Operators (level : Nat) (left : SourceTree) (c : Cursor) : SourceTree → Cursor → Prop
  | done (stop : ∀ op, c.current.kind.binaryOp? = some op → op.precedence ≠ level) :
      Operators level left c left c
  | left {op : BinaryOp} {right t : SourceTree} {c₁ c₂ : Cursor}
      (sign : c.current.kind.binaryOp? = some op) (precedence : op.precedence = level)
      (group : op.associativity = .left)
      (readRight : R _ (.expression (level + 1)) c.advance right c₁)
      (readMore : R _ (.operators level (binary op left right)) c₁ t c₂) :
      Operators level left c t c₂
  | right {op : BinaryOp} {right : SourceTree} {c₁ : Cursor}
      (sign : c.current.kind.binaryOp? = some op) (precedence : op.precedence = level)
      (group : op.associativity = .right) (readRight : R _ (.expression level) c.advance right c₁) :
      Operators level left c (binary op left right) c₁
  | single {op : BinaryOp} {right : SourceTree} {c₁ : Cursor}
      (sign : c.current.kind.binaryOp? = some op) (precedence : op.precedence = level)
      (group : op.associativity = .none)
      (readRight : R _ (.expression (level + 1)) c.advance right c₁) :
      Operators level left c (binary op left right) c₁

inductive Ladder (level : Nat) (c : Cursor) : SourceTree → Cursor → Prop
  | binary {left t : SourceTree} {c₁ c₂ : Cursor} (low : level < UnaryOp.precedence)
      (readLeft : R _ (.expression (level + 1)) c left c₁)
      (readMore : R _ (.operators level left) c₁ t c₂) : Ladder level c t c₂
  | unary {t : SourceTree} {c₁ : Cursor} (high : ¬ level < UnaryOp.precedence)
      (readUnary : Unary R c t c₁) : Ladder level c t c₁

end Expressions

section Statements

variable (R : Reading)

inductive MoreNames (cause : Cause) (c : Cursor) : List SourceTree → Cursor → Prop
  | none (stop : c.current.kind ≠ .comma) : MoreNames cause c [] c
  | some {name : SourceTree} {names : List SourceTree} {c₁ c₂ : Cursor}
      (comma : c.current.kind = .comma) (readName : Name c.advance name c₁)
      (readMore : R _ (.moreNames cause) c₁ names c₂) : MoreNames cause c (name :: names) c₂

inductive MoreTargets (c : Cursor) : List SourceTree → Cursor → Prop
  | none (stop : c.current.kind ≠ .comma) : MoreTargets c [] c
  | some {target : SourceTree} {targets : List SourceTree} {c₁ c₂ : Cursor}
      (comma : c.current.kind = .comma) (readTarget : PrefixExpression R c.advance target c₁)
      (readMore : R _ .moreTargets c₁ targets c₂) : MoreTargets c (target :: targets) c₂

inductive LocalStatement (c : Cursor) : SourceTree → Cursor → Prop
  | function {name body : SourceTree} {params : List SourceTree} {c₁ c₂ : Cursor}
      (start : c.advance.current.kind = .functionKw) (readName : Name c.advance.advance name c₁)
      (readBody : FunctionBody R c₁ params body c₂) :
      LocalStatement c (c₂.close c.current.span (.localFunction name params body)) c₂
  | names {name : SourceTree} {names : List SourceTree} {c₁ c₂ : Cursor}
      (readName : Name c.advance name c₁) (readMore : R _ (.moreNames .name) c₁ names c₂)
      (stop : c₂.current.kind ≠ .assign) :
      LocalStatement c (c₂.close c.current.span (.localNames (name :: names) [])) c₂
  | values {name : SourceTree} {names values : List SourceTree} {c₁ c₂ c₃ : Cursor}
      (readName : Name c.advance name c₁) (readMore : R _ (.moreNames .name) c₁ names c₂)
      (assign : c₂.current.kind = .assign) (readValues : R _ .expressions c₂.advance values c₃) :
      LocalStatement c (c₃.close c.current.span (.localNames (name :: names) values)) c₃

inductive DottedName (head : SourceTree) (c : Cursor) : SourceTree → Cursor → Prop
  | done (noDot : c.current.kind ≠ .dot) (noColon : c.current.kind ≠ .colon) :
      DottedName head c head c
  | dot {key t : SourceTree} {c₁ c₂ : Cursor} (start : c.current.kind = .dot)
      (readName : Name c.advance key c₁)
      (readMore : R _ (.dottedName (c₁.close head.span (.access .dot head key))) c₁ t c₂) :
      DottedName head c t c₂
  | method {name : SourceTree} {c₁ : Cursor} (start : c.current.kind = .colon)
      (readName : Name c.advance name c₁) :
      DottedName head c (c₁.close head.span (.methodName head name)) c₁

inductive FunctionStatement (c : Cursor) : SourceTree → Cursor → Prop
  | intro {first name body : SourceTree} {params : List SourceTree} {c₁ c₂ c₃ : Cursor}
      (readFirst : Name c.advance first c₁) (readName : R _ (.dottedName first) c₁ name c₂)
      (readBody : FunctionBody R c₂ params body c₃) :
      FunctionStatement c (c₃.close c.current.span (.function name params body)) c₃

inductive ReturnStatement (c : Cursor) : SourceTree → Cursor → Prop
  | bare (stop : c.advance.endsReturn) :
      ReturnStatement c (c.advance.close c.current.span (.returning [])) c.advance
  | values {values : List SourceTree} {c₁ : Cursor} (start : ¬ c.advance.endsReturn)
      (readValues : R _ .expressions c.advance values c₁) :
      ReturnStatement c (c₁.close c.current.span (.returning values)) c₁

inductive DoStatement (c : Cursor) : SourceTree → Cursor → Prop
  | intro {body : SourceTree} {c₁ : Cursor} (readBody : R _ .block c.advance body c₁)
      (close : c₁.current.kind = .endKw) :
      DoStatement c (c₁.advance.close c.current.span (.doBlock body)) c₁.advance

inductive ElseIfs (c : Cursor) : List SourceTree → Cursor → Prop
  | none (stop : c.current.kind ≠ .elseIfKw) : ElseIfs c [] c
  | some {condition body : SourceTree} {clauses : List SourceTree} {c₁ c₂ c₃ : Cursor}
      (start : c.current.kind = .elseIfKw)
      (readCondition : R _ (.expression 1) c.advance condition c₁)
      (thenKw : c₁.current.kind = .thenKw) (readBody : R _ .block c₁.advance body c₂)
      (readMore : R _ .elseIfs c₂ clauses c₃) :
      ElseIfs c (c₂.close c.current.span (.elseIf condition body) :: clauses) c₃

inductive ElseClause (c : Cursor) : Option SourceTree → Cursor → Prop
  | none (stop : c.current.kind ≠ .elseKw) : ElseClause c none c
  | some {body : SourceTree} {c₁ : Cursor} (start : c.current.kind = .elseKw)
      (readBody : R _ .block c.advance body c₁) :
      ElseClause c (some (c₁.close c.current.span (.elseBlock body))) c₁

inductive IfStatement (c : Cursor) : SourceTree → Cursor → Prop
  | intro {condition body : SourceTree} {clauses : List SourceTree} {branch : Option SourceTree}
      {c₁ c₂ c₃ c₄ : Cursor} (readCondition : R _ (.expression 1) c.advance condition c₁)
      (thenKw : c₁.current.kind = .thenKw) (readBody : R _ .block c₁.advance body c₂)
      (readClauses : R _ .elseIfs c₂ clauses c₃) (readBranch : ElseClause R c₃ branch c₄)
      (close : c₄.current.kind = .endKw) :
      IfStatement c
        (c₄.advance.close c.current.span (.ifChain condition body clauses branch)) c₄.advance

inductive WhileStatement (c : Cursor) : SourceTree → Cursor → Prop
  | intro {condition body : SourceTree} {c₁ c₂ : Cursor}
      (readCondition : R _ (.expression 1) c.advance condition c₁)
      (doKw : c₁.current.kind = .doKw) (readBody : R _ .block c₁.advance body c₂)
      (close : c₂.current.kind = .endKw) :
      WhileStatement c (c₂.advance.close c.current.span (.whileLoop condition body)) c₂.advance

inductive RepeatStatement (c : Cursor) : SourceTree → Cursor → Prop
  | intro {condition body : SourceTree} {c₁ c₂ : Cursor} (readBody : R _ .block c.advance body c₁)
      (untilKw : c₁.current.kind = .untilKw)
      (readCondition : R _ (.expression 1) c₁.advance condition c₂) :
      RepeatStatement c (c₂.close c.current.span (.repeatLoop body condition)) c₂

inductive ForBody (c : Cursor) : SourceTree → Cursor → Prop
  | intro {body : SourceTree} {c₁ : Cursor} (doKw : c.current.kind = .doKw)
      (readBody : R _ .block c.advance body c₁) (close : c₁.current.kind = .endKw) :
      ForBody c body c₁.advance

inductive ForStep (c : Cursor) : Option SourceTree → Cursor → Prop
  | none (stop : c.current.kind ≠ .comma) : ForStep c none c
  | some {step : SourceTree} {c₁ : Cursor} (comma : c.current.kind = .comma)
      (readStep : R _ (.expression 1) c.advance step c₁) : ForStep c (some step) c₁

inductive ForStatement (c : Cursor) : SourceTree → Cursor → Prop
  | numeric {counter start limit body : SourceTree} {step : Option SourceTree}
      {c₁ c₂ c₃ c₄ c₅ : Cursor} (assign : c.advance.following.kind = .assign)
      (readCounter : Name c.advance counter c₁)
      (readStart : R _ (.expression 1) c₁.advance start c₂) (comma : c₂.current.kind = .comma)
      (readLimit : R _ (.expression 1) c₂.advance limit c₃) (readStep : ForStep R c₃ step c₄)
      (readBody : ForBody R c₄ body c₅) :
      ForStatement c (c₅.close c.current.span (.numericFor counter start limit step body)) c₅
  | generic {name body : SourceTree} {names iterators : List SourceTree} {c₁ c₂ c₃ c₄ : Cursor}
      (noAssign : c.advance.following.kind ≠ .assign) (readName : Name c.advance name c₁)
      (readMore : R _ (.moreNames .loopVariable) c₁ names c₂) (inKw : c₂.current.kind = .inKw)
      (readIterators : R _ .expressions c₂.advance iterators c₃) (readBody : ForBody R c₃ body c₄) :
      ForStatement c (c₄.close c.current.span (.genericFor (name :: names) iterators body)) c₄

inductive ExpressionStatement (c : Cursor) : SourceTree → Cursor → Prop
  | assignment {first : SourceTree} {more values : List SourceTree} {c₁ c₂ c₃ : Cursor}
      (readFirst : PrefixExpression R c first c₁) (readMore : R _ .moreTargets c₁ more c₂)
      (assign : c₂.current.kind = .assign)
      (assignable : ∀ target ∈ first :: more, target.kind.isAssignable = true)
      (readValues : R _ .expressions c₂.advance values c₃) :
      ExpressionStatement c (c₃.close c.current.span (.assignment (first :: more) values)) c₃
  | compound {op : BinaryOp} {target value : SourceTree} {c₁ c₂ c₃ : Cursor}
      (readTarget : PrefixExpression R c target c₁) (readMore : R _ .moreTargets c₁ [] c₂)
      (noAssign : c₂.current.kind ≠ .assign) (sign : c₂.current.kind.assignOp? = some op)
      (assignable : target.kind.isAssignable = true)
      (readValue : R _ (.expression 1) c₂.advance value c₃) :
      ExpressionStatement c (c₃.close c.current.span (.compoundAssignment op target value)) c₃
  | call {expression : SourceTree} {c₁ c₂ : Cursor}
      (readExpression : PrefixExpression R c expression c₁) (readMore : R _ .moreTargets c₁ [] c₂)
      (noAssign : c₂.current.kind ≠ .assign) (noSign : c₂.current.kind.assignOp? = none)
      (call : expression.kind.isCallLike = true) :
      ExpressionStatement c (c₂.close c.current.span (.expressionStatement expression)) c₂

/-- The tokens with which statements begin that are no expressions. -/
def statementWords : List TokenKind := [
  .localKw, .functionKw, .returnKw, .breakKw, .continueKw, .doKw, .ifKw, .whileKw, .repeatKw,
  .forKw]

inductive Statement (c : Cursor) : SourceTree → Cursor → Prop
  | localStatement {t : SourceTree} {c₁ : Cursor} (start : c.current.kind = .localKw)
      (read : LocalStatement R c t c₁) : Statement c t c₁
  | function {t : SourceTree} {c₁ : Cursor} (start : c.current.kind = .functionKw)
      (read : FunctionStatement R c t c₁) : Statement c t c₁
  | returning {t : SourceTree} {c₁ : Cursor} (start : c.current.kind = .returnKw)
      (read : ReturnStatement R c t c₁) : Statement c t c₁
  | breaking (start : c.current.kind = .breakKw) : Statement c (c.leaf .breaking) c.advance
  | continuing (start : c.current.kind = .continueKw) : Statement c (c.leaf .continuing) c.advance
  | doBlock {t : SourceTree} {c₁ : Cursor} (start : c.current.kind = .doKw)
      (read : DoStatement R c t c₁) : Statement c t c₁
  | ifChain {t : SourceTree} {c₁ : Cursor} (start : c.current.kind = .ifKw)
      (read : IfStatement R c t c₁) : Statement c t c₁
  | whileLoop {t : SourceTree} {c₁ : Cursor} (start : c.current.kind = .whileKw)
      (read : WhileStatement R c t c₁) : Statement c t c₁
  | repeatLoop {t : SourceTree} {c₁ : Cursor} (start : c.current.kind = .repeatKw)
      (read : RepeatStatement R c t c₁) : Statement c t c₁
  | forLoop {t : SourceTree} {c₁ : Cursor} (start : c.current.kind = .forKw)
      (read : ForStatement R c t c₁) : Statement c t c₁
  | expression {t : SourceTree} {c₁ : Cursor} (start : c.current.kind ∉ statementWords)
      (read : ExpressionStatement R c t c₁) : Statement c t c₁

inductive Statements (c : Cursor) : List SourceTree → Cursor → Prop
  | none (stop : c.current.kind.endsBlock = true) : Statements c [] c
  | some {statement : SourceTree} {statements : List SourceTree} {c₁ c₂ : Cursor}
      (start : c.current.kind.endsBlock = false)
      (readStatement : R _ .statement c.afterLeading statement c₁)
      (terminal : statement.kind.isTerminal = true →
        (c₁.skip .semicolon).current.kind.endsBlock = true)
      (readMore : R _ .statements (c₁.skip .semicolon).afterTrailing statements c₂) :
      Statements c
        (statement.withComments c.leading (c₁.skip .semicolon).trailing :: statements) c₂

inductive Block (c : Cursor) : SourceTree → Cursor → Prop
  | intro {statements : List SourceTree} {c₁ : Cursor} (readAll : R _ .statements c statements c₁) :
      Block c (.node ⟨blockSpan c.current.span statements, [], c₁.leading⟩ (.block statements))
        c₁.afterLeading

/-- A whole program. -/
inductive Chunk (c : Cursor) : SourceTree → Cursor → Prop
  | intro {body : SourceTree} {c₁ : Cursor} (readBody : R _ .block c body c₁)
      (stop : c₁.current.kind = .eof) :
      Chunk c (.node (.ofSpan (c.current.span.through c₁.current.span)) (.chunk body)) c₁

end Statements

/-- What the production of each rule reads. -/
def Step (R : Reading) : Reading
  | _, .block => Block R
  | _, .statements => Statements R
  | _, .statement => Statement R
  | _, .elseIfs => ElseIfs R
  | _, .moreTargets => MoreTargets R
  | _, .moreNames cause => MoreNames R cause
  | _, .dottedName head => DottedName R head
  | _, .expressions => Expressions R
  | _, .moreExpressions => MoreExpressions R
  | _, .expression level => Ladder R level
  | _, .operators level left => Operators R level left
  | _, .suffixes head => Suffixes R head
  | _, .fields => Fields R
  | _, .parameters => Parameters R

end Grammar

end LuaTree
