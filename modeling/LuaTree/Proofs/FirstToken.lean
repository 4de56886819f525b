import LuaTree.Proofs.Depth
import LuaTree.Proofs.WellFormed

/-!
# What a reading tells about its first tokens

A rule that succeeds has seen a token with which it can begin. The statements
here read such facts off a reading, so that no printer has to be asked for the
first token of its text.
-/

namespace LuaTree

namespace TokenKind

/-- The tokens with which expressions without an operator begin. -/
def startsPrimary : TokenKind → Bool
  | .identifier | .number | .string | .trueKw | .falseKw | .nilKw | .ellipsis | .lBrace
  | .functionKw
  | .lParen => true
  | _ => false

/-- The tokens with which expressions begin. -/
def startsExpression : TokenKind → Bool
  | .notKw | .minus | .hash => true
  | kind => kind.startsPrimary

/-- The tokens with which statements begin. -/
def startsStatement (kind : TokenKind) : Bool :=
  kind.startsPrimary || Grammar.statementWords.contains kind

theorem startsExpression_of_unaryOp? {kind : TokenKind} {op : UnaryOp}
    (sign : kind.unaryOp? = some op) : kind.startsExpression = true := by
  cases kind <;> first | rfl | simp [unaryOp?] at sign

theorem startsExpression_of_startsPrimary {kind : TokenKind} (starts : kind.startsPrimary = true) :
    kind.startsExpression = true := by
  cases kind <;> first | rfl | exact starts

theorem unaryOp?_of_startsPrimary {kind : TokenKind} (starts : kind.startsPrimary = true) :
    kind.unaryOp? = none := by
  cases kind <;> first | rfl | exact absurd starts (by decide)

end TokenKind

theorem Cursor.current_advance (c : Cursor) : c.advance.current = c.following := by
  obtain ⟨rest, stop, last, comments⟩ := c
  cases rest <;> rfl

theorem Tree.opensWithFunction_node {ι : Type} (m : ι) (kind : Kind (Tree ι)) :
    (Tree.node m kind).opensWithFunction =
      match kind with
      | .anonymousFunction .. => true
      | .functionCall callee _ => callee.opensWithFunction
      | .methodCall receiver _ _ => receiver.opensWithFunction
      | .access _ table _ => table.opensWithFunction
      | _ => false := by
  rw [opensWithFunction, fold_node]
  cases kind <;> rfl

namespace Grammar

theorem startsPrimary_of_literal? {token : Token} {literal : Literal}
    (found : literal? token = some literal) : token.kind.startsPrimary = true := by
  unfold literal? at found
  split at found <;> simp_all [TokenKind.startsPrimary]

section Starts

variable {R : Reading} {c c' : Cursor} {t : SourceTree}

theorem Primary.starts (read : Primary R c t c') : c.current.kind.startsPrimary = true := by
  rcases read with token | ⟨⟨kind⟩⟩ | kind | ⟨start, -, -⟩ | ⟨start, -⟩ | ⟨start, -, -⟩
  · exact startsPrimary_of_literal? token
  · rw [kind]; rfl
  · rw [kind]; rfl
  · rw [start]; rfl
  · rw [start]; rfl
  · rw [start]; rfl

theorem PrefixExpression.starts (read : PrefixExpression R c t c') :
    c.current.kind.startsPrimary = true := by
  obtain ⟨readHead, -⟩ := read
  exact readHead.starts

theorem Unary.starts (read : Unary R c t c') : c.current.kind.startsExpression = true := by
  rcases read with ⟨sign, -⟩ | ⟨-, ⟨readBase, -⟩ | ⟨readBase, -, -⟩⟩
  · exact TokenKind.startsExpression_of_unaryOp? sign
  · exact TokenKind.startsExpression_of_startsPrimary readBase.starts
  · exact TokenKind.startsExpression_of_startsPrimary readBase.starts

theorem ExpressionStatement.starts (read : ExpressionStatement R c t c') :
    c.current.kind.startsPrimary = true := by
  rcases read with ⟨readFirst, -, -, -, -⟩ | ⟨readTarget, -, -, -, -, -⟩ | ⟨readCall, -, -, -, -⟩
  · exact readFirst.starts
  · exact readTarget.starts
  · exact readCall.starts

theorem Statement.starts (read : Statement R c t c') : c.current.kind.startsStatement = true := by
  cases read with
  | expression start read => simp [TokenKind.startsStatement, read.starts]
  | localStatement start read | function start read | returning start read | breaking start
  | continuing start | doBlock start read | ifChain start read | whileLoop start read
  | repeatLoop start read | forLoop start read => rw [start]; rfl

end Starts

/-- What is known of the first tokens of a reading. An expression that begins with `name =` ends
behind the name. -/
def Begins : Reading
  | _, .expression _, c, _, c' =>
    c.current.kind.startsExpression = true ∧
      (c.current.kind = .identifier → c.following.kind = .assign → c'.current.kind = .assign)
  | _, .operators _ _, c, _, c' => c.current.kind = .assign → c'.current.kind = .assign
  | _, .suffixes head, c, t, c' =>
    t.opensWithFunction = head.opensWithFunction ∧
      (c.current.kind = .assign → c'.current.kind = .assign)
  | _, _, _, _, _ => True

/-- Before `name =` a prefix expression is just the name. -/
theorem PrefixExpression.before_assign {c c' : Cursor} {t : SourceTree}
    (read : PrefixExpression (fun β called c₁ b c₂ =>
      Derives β called c₁ b c₂ ∧ Begins β called c₁ b c₂) c t c')
    (name : c.current.kind = .identifier) (assign : c.following.kind = .assign) :
    c'.current.kind = .assign := by
  obtain ⟨readHead, -, begins⟩ := read
  refine begins.2 ?_
  cases readHead with
  | name readName =>
    obtain ⟨-⟩ := readName
    rw [Cursor.current_advance, assign]
  | literal token => simp [literal?, name] at token
  | varArg kind => simp [name] at kind
  | table start | function start | paren start => simp [name] at start

theorem derives_begins {α : Type} {rule : Rule α} {c c' : Cursor} {a : α} (ends : c.EndsFile)
    (read : Derives α rule c a c') : Begins α rule c a c' := by
  refine Derives.induct ?_ ends read
  intro α rule c c' a ends step
  cases rule with
  | expression level =>
    rcases step with ⟨-, readLeft, readMore⟩ | ⟨-, readUnary⟩
    · exact ⟨readLeft.2.1, fun name assign => readMore.2 (readLeft.2.2 name assign)⟩
    · refine ⟨readUnary.starts, fun name assign => ?_⟩
      rcases readUnary with ⟨sign, -⟩ | ⟨-, ⟨readBase, -⟩ | ⟨readBase, caret, -⟩⟩
      · rw [name] at sign
        exact absurd sign (by simp [TokenKind.unaryOp?])
      · exact readBase.before_assign name assign
      · rw [readBase.before_assign name assign] at caret
        exact absurd caret (by decide)
  | operators level left =>
    intro assign
    have noSign : c.current.kind.binaryOp? = none := by rw [assign]; rfl
    rcases step with stop | ⟨sign, -, -, -, -⟩ | ⟨sign, -, -, -⟩ | ⟨sign, -, -, -⟩
    · exact assign
    · simp [noSign] at sign
    · simp [noSign] at sign
    · simp [noSign] at sign
  | suffixes head =>
    rcases step with stop | ⟨start, -, -, readMore⟩ | ⟨start, -, -, -, readMore⟩ |
      ⟨start, -, readMore⟩ | ⟨start, -, -, -, readMore⟩
    · exact ⟨rfl, id⟩
    · refine ⟨readMore.2.1.trans ?_, fun assign => ?_⟩
      · rw [Cursor.close, Tree.opensWithFunction_node]
      · simp [start] at assign
    · refine ⟨readMore.2.1.trans ?_, fun assign => ?_⟩
      · rw [Cursor.close, Tree.opensWithFunction_node]
      · simp [start] at assign
    · refine ⟨readMore.2.1.trans ?_, fun assign => ?_⟩
      · rw [Cursor.close, Tree.opensWithFunction_node]
      · simp [start] at assign
    · refine ⟨readMore.2.1.trans ?_, fun assign => ?_⟩
      · rw [Cursor.close, Tree.opensWithFunction_node]
      · simp [start] at assign
  | _ => trivial

theorem startsExpression_of_expression {level : Nat} {c c' : Cursor} {t : SourceTree}
    (ends : c.EndsFile) (read : Derives _ (.expression level) c t c') :
    c.current.kind.startsExpression = true :=
  (derives_begins ends read).1

theorem startsExpression_of_expressions {c c' : Cursor} {ts : List SourceTree}
    (ends : c.EndsFile) (read : Derives _ .expressions c ts c') :
    c.current.kind.startsExpression = true := by
  obtain ⟨readFirst, -⟩ := (derives_iff ends).mp read
  exact startsExpression_of_expression ends readFirst

/-- A prefix expression begins with a function exactly if its first token says so. -/
theorem opensWithFunction_iff {c c' : Cursor} {t : SourceTree} (ends : c.EndsFile)
    (read : PrefixExpression Derives c t c') :
    t.opensWithFunction = true ↔ c.current.kind = .functionKw := by
  obtain ⟨readHead, readMore⟩ := read
  have shorter := (readHead.lift (below_derives _) ends (Nat.le_refl _)).2
  rw [(derives_begins (shorter.endsFile ends) readMore).1]
  cases readHead with
  | literal token =>
    rw [Cursor.leaf, Tree.opensWithFunction_node]
    refine iff_of_false (by simp) ?_
    intro function
    simp [literal?, function] at token
  | name readName =>
    obtain ⟨kind⟩ := readName
    rw [Cursor.leaf, Tree.opensWithFunction_node]
    simp [kind]
  | varArg kind => rw [Cursor.leaf, Tree.opensWithFunction_node]; simp [kind]
  | table start => rw [Cursor.close, Tree.opensWithFunction_node]; simp [start]
  | function start => rw [Cursor.close, Tree.opensWithFunction_node]; simp [start]
  | paren start => rw [Cursor.close, Tree.opensWithFunction_node]; simp [start]

end Grammar

end LuaTree
