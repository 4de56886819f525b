import LuaTree.Proofs.CommentFidelity

/-!
# Spans of nodes come from spans of tokens

Parsing makes no positions of its own. The span of a node goes from the start of one span to the
end of another one, or it is the empty span at the start of a token. What holds of the spans of
all tokens, and is kept by these two ways to make new ones (`Span.IsKept`), therefore holds of the
spans of all nodes (`spanned_of_parse`).

Each rule keeps two things: the tokens in front of the cursor and the one just read have such
spans (`Cursor.Among`), and so have all nodes of what was read (`Tree.Spanned`).
-/

namespace LuaTree

/-- What holds of spans that are made from spans of which it holds. -/
structure Span.IsKept (P : Span → Prop) : Prop where
  through : ∀ {p q}, P p → P q → P (p.through q)
  atStart : ∀ {p}, P p → P p.atStart

variable {P : Span → Prop}

/-- All nodes of the tree have such spans. -/
def Tree.Spanned (P : Span → Prop) (t : SourceTree) : Prop :=
  ∀ m ∈ t.postorder, P m.span

namespace Tree

theorem spanned_node {m : Origin} {kind : Kind SourceTree} :
    (node m kind).Spanned P ↔ P m.span ∧ ∀ t ∈ kind.children, t.Spanned P := by
  rw [Spanned, postorder_node, List.forall_mem_append, List.forall_mem_singleton, and_comm]
  refine and_congr_right fun _ => ?_
  rw [← List.flatMap_def, List.forall_mem_flatMap]
  rfl

variable {t : SourceTree}

theorem Spanned.span (spanned : t.Spanned P) : P t.span := by
  obtain ⟨m, kind⟩ := t
  exact (spanned_node.mp spanned).1

theorem Spanned.withComments (spanned : t.Spanned P) (leading trailing : List Comment) :
    (t.withComments leading trailing).Spanned P := by
  obtain ⟨m, kind⟩ := t
  obtain ⟨here, below⟩ := spanned_node.mp spanned
  exact spanned_node.mpr ⟨here, below⟩

end Tree

theorem Grammar.spanned_blockSpan (kept : Span.IsKept P) {place : Span} {ts : List SourceTree}
    (here : P place) (each : ∀ t ∈ ts, t.Spanned P) : P (blockSpan place ts) := by
  cases ts with
  | nil => exact kept.atStart here
  | cons t ts =>
    rw [blockSpan, List.head?_cons, List.getLast?_eq_some_getLast (List.cons_ne_nil t ts)]
    exact kept.through (each t List.mem_cons_self).span (each _ (List.getLast_mem _)).span

/-- The tokens in front of the cursor and the token just read have such spans. -/
structure Cursor.Among (P : Span → Prop) (c : Cursor) : Prop where
  tokens : ∀ token ∈ c.tokens, P token.span
  last : P c.last

namespace Cursor.Among

variable {c : Cursor} (among : c.Among P)

include among

theorem current : P c.current.span := by
  obtain ⟨later, tokens⟩ := c.exists_tokens_eq
  exact among.tokens _ (by rw [tokens]; exact List.mem_cons_self)

theorem advance : c.advance.Among P := by
  obtain ⟨rest, stop, last, comments⟩ := c
  cases rest with
  | nil => exact among
  | cons token rest =>
    obtain ⟨here, others⟩ := List.forall_mem_cons.mp among.tokens
    exact ⟨others, here⟩

theorem skip (kind : TokenKind) : (c.skip kind).Among P := by
  rw [Cursor.skip]
  split
  · exact among.advance
  · exact among

theorem comments (pending : List Comment) : { c with comments := pending }.Among P :=
  ⟨among.tokens, among.last⟩

/-- A node of one token. -/
theorem leaf {kind : Kind SourceTree} (childless : kind.children = []) :
    (c.leaf kind).Spanned P := by
  rw [Cursor.leaf, Tree.spanned_node, childless]
  exact ⟨among.current, by simp⟩

/-- A node up to the token just read. -/
theorem close {start : Span} {kind : Kind SourceTree} (kept : Span.IsKept P) (here : P start)
    (below : ∀ t ∈ kind.children, t.Spanned P) : (c.close start kind).Spanned P :=
  Tree.spanned_node.mpr ⟨kept.through here among.last, below⟩

end Cursor.Among

namespace Grammar

/-- What each rule keeps. A rule that goes on behind a tree relies on it for that tree. -/
def Keeping (P : Span → Prop) : Reading
  | _, .block, c, t, c' => c.Among P → c'.Among P ∧ t.Spanned P
  | _, .statements, c, ts, c' => c.Among P → c'.Among P ∧ ∀ t ∈ ts, t.Spanned P
  | _, .statement, c, t, c' => c.Among P → c'.Among P ∧ t.Spanned P
  | _, .elseIfs, c, ts, c' => c.Among P → c'.Among P ∧ ∀ t ∈ ts, t.Spanned P
  | _, .moreTargets, c, ts, c' => c.Among P → c'.Among P ∧ ∀ t ∈ ts, t.Spanned P
  | _, .moreNames _, c, ts, c' => c.Among P → c'.Among P ∧ ∀ t ∈ ts, t.Spanned P
  | _, .dottedName head, c, t, c' => c.Among P → head.Spanned P → c'.Among P ∧ t.Spanned P
  | _, .expressions, c, ts, c' => c.Among P → c'.Among P ∧ ∀ t ∈ ts, t.Spanned P
  | _, .moreExpressions, c, ts, c' => c.Among P → c'.Among P ∧ ∀ t ∈ ts, t.Spanned P
  | _, .expression _, c, t, c' => c.Among P → c'.Among P ∧ t.Spanned P
  | _, .operators _ left, c, t, c' => c.Among P → left.Spanned P → c'.Among P ∧ t.Spanned P
  | _, .suffixes head, c, t, c' => c.Among P → head.Spanned P → c'.Among P ∧ t.Spanned P
  | _, .fields, c, ts, c' => c.Among P → c'.Among P ∧ ∀ t ∈ ts, t.Spanned P
  | _, .parameters, c, ts, c' => c.Among P → c'.Among P ∧ ∀ t ∈ ts, t.Spanned P

variable {c c' : Cursor} {t : SourceTree} {ts : List SourceTree}

section Expressions

theorem Name.keeps (among : c.Among P) (read : Name c t c') : c'.Among P ∧ t.Spanned P := by
  obtain ⟨kind⟩ := read
  exact ⟨among.advance, among.leaf rfl⟩

theorem Expressions.keeps (among : c.Among P) (read : Expressions (Keeping P) c ts c') :
    c'.Among P ∧ ∀ t ∈ ts, t.Spanned P := by
  obtain ⟨readFirst, readMore⟩ := read
  obtain ⟨behind, first⟩ := readFirst among
  obtain ⟨last, more⟩ := readMore behind
  exact ⟨last, List.forall_mem_cons.mpr ⟨first, more⟩⟩

theorem MoreExpressions.keeps (among : c.Among P) (read : MoreExpressions (Keeping P) c ts c') :
    c'.Among P ∧ ∀ t ∈ ts, t.Spanned P := by
  rcases read with stop | ⟨comma, readList⟩
  · exact ⟨among, by simp⟩
  · exact readList among.advance

theorem Enclosed.keeps {rule : Rule (List SourceTree)}
    (list : ∀ c₁, Keeping P _ rule c ts c₁ → c.Among P → c₁.Among P ∧ ∀ t ∈ ts, t.Spanned P)
    (among : c.Among P) (read : Enclosed (Keeping P) rule c ts c') :
    c'.Among P ∧ ∀ t ∈ ts, t.Spanned P := by
  rcases read with close | ⟨start, readList, close⟩
  · exact ⟨among.advance, by simp⟩
  · obtain ⟨behind, all⟩ := list _ readList among
    exact ⟨behind.advance, all⟩

theorem Enclosed.keeps_arguments (among : c.Among P)
    (read : Enclosed (Keeping P) .expressions c ts c') : c'.Among P ∧ ∀ t ∈ ts, t.Spanned P :=
  read.keeps (fun _ => id) among

theorem Parameters.keeps (among : c.Among P) (read : Parameters (Keeping P) c ts c') :
    c'.Among P ∧ ∀ t ∈ ts, t.Spanned P := by
  rcases read with kind | ⟨readName, stop⟩ | ⟨readName, comma, readMore⟩
  · exact ⟨among.advance, List.forall_mem_singleton.mpr (among.leaf rfl)⟩
  · obtain ⟨behind, param⟩ := readName.keeps among
    exact ⟨behind, List.forall_mem_singleton.mpr param⟩
  · obtain ⟨behind, param⟩ := readName.keeps among
    obtain ⟨last, more⟩ := readMore behind.advance
    exact ⟨last, List.forall_mem_cons.mpr ⟨param, more⟩⟩

theorem FunctionBody.keeps {params : List SourceTree} {body : SourceTree} (among : c.Among P)
    (read : FunctionBody (Keeping P) c params body c') :
    c'.Among P ∧ ∀ t ∈ params ++ [body], t.Spanned P := by
  obtain ⟨start, readParams, readBody, close⟩ := read
  obtain ⟨behind, params⟩ := readParams.keeps (fun _ => id) among.advance
  obtain ⟨last, body⟩ := readBody behind
  exact ⟨last.advance, List.forall_mem_append.mpr ⟨params, List.forall_mem_singleton.mpr body⟩⟩

variable (kept : Span.IsKept P)

include kept

theorem Field.keeps (among : c.Among P) (read : Field (Keeping P) c t c') :
    c'.Among P ∧ t.Spanned P := by
  rcases read with ⟨start, readKey, close, assign, readValue⟩ | ⟨readName, assign, readValue⟩ |
    ⟨noKey, noName, readValue⟩
  · obtain ⟨behind, key⟩ := readKey among.advance
    obtain ⟨last, value⟩ := readValue behind.advance.advance
    exact ⟨last, last.close kept among.current (by simp [Kind.children, key, value])⟩
  · obtain ⟨behind, key⟩ := readName.keeps among
    obtain ⟨last, value⟩ := readValue behind.advance
    exact ⟨last, last.close kept among.current (by simp [Kind.children, key, value])⟩
  · obtain ⟨last, value⟩ := readValue among
    exact ⟨last, last.close kept among.current (by simp [Kind.children, value])⟩

theorem Fields.keeps (among : c.Among P) (read : Fields (Keeping P) c ts c') :
    c'.Among P ∧ ∀ t ∈ ts, t.Spanned P := by
  rcases read with stop | ⟨start, readField, stop⟩ | ⟨start, readField, divider, readMore⟩
  · exact ⟨among, by simp⟩
  · obtain ⟨last, field⟩ := readField.keeps kept among
    exact ⟨last, List.forall_mem_singleton.mpr field⟩
  · obtain ⟨behind, field⟩ := readField.keeps kept among
    obtain ⟨last, more⟩ := readMore behind.advance
    exact ⟨last, List.forall_mem_cons.mpr ⟨field, more⟩⟩

theorem Primary.keeps (among : c.Among P) (read : Primary (Keeping P) c t c') :
    c'.Among P ∧ t.Spanned P := by
  rcases read with token | readName | kind | ⟨start, readFields, close⟩ | ⟨start, readBody⟩ |
    ⟨start, readInner, close⟩
  · exact ⟨among.advance, among.leaf rfl⟩
  · exact readName.keeps among
  · exact ⟨among.advance, among.leaf rfl⟩
  · obtain ⟨behind, fields⟩ := readFields among.advance
    exact ⟨behind.advance, behind.advance.close kept among.current fields⟩
  · obtain ⟨last, parts⟩ := readBody.keeps among.advance
    exact ⟨last, last.close kept among.current parts⟩
  · obtain ⟨behind, inner⟩ := readInner among.advance
    exact ⟨behind.advance,
      behind.advance.close kept among.current (List.forall_mem_singleton.mpr inner)⟩

theorem Suffixes.keeps {head : SourceTree} (among : c.Among P) (before : head.Spanned P)
    (read : Suffixes (Keeping P) head c t c') : c'.Among P ∧ t.Spanned P := by
  rcases read with stop | ⟨start, sameLine, readArgs, readMore⟩ |
    ⟨start, sameLine, readKey, close, readMore⟩ | ⟨start, readName, readMore⟩ |
    ⟨start, readName, parens, readArgs, readMore⟩
  · exact ⟨among, before⟩
  · obtain ⟨behind, args⟩ := readArgs.keeps_arguments among.advance
    exact readMore behind
      (behind.close kept before.span (List.forall_mem_cons.mpr ⟨before, args⟩))
  · obtain ⟨behind, key⟩ := readKey among.advance
    exact readMore behind.advance
      (behind.advance.close kept before.span (by simp [Kind.children, before, key]))
  · obtain ⟨behind, key⟩ := readName.keeps among.advance
    exact readMore behind (behind.close kept before.span (by simp [Kind.children, before, key]))
  · obtain ⟨named, name⟩ := readName.keeps among.advance
    obtain ⟨behind, args⟩ := readArgs.keeps_arguments named.advance
    refine readMore behind (behind.close kept before.span ?_)
    exact List.forall_mem_cons.mpr ⟨before, List.forall_mem_cons.mpr ⟨name, args⟩⟩

theorem PrefixExpression.keeps (among : c.Among P)
    (read : PrefixExpression (Keeping P) c t c') : c'.Among P ∧ t.Spanned P := by
  obtain ⟨readHead, readMore⟩ := read
  obtain ⟨behind, head⟩ := readHead.keeps kept among
  exact readMore behind head

theorem spanned_binary (op : BinaryOp) {left right : SourceTree} (first : left.Spanned P)
    (second : right.Spanned P) : (binary op left right).Spanned P :=
  Tree.spanned_node.mpr
    ⟨kept.through first.span second.span, by simp [Kind.children, first, second]⟩

theorem Power.keeps (among : c.Among P) (read : Power (Keeping P) c t c') :
    c'.Among P ∧ t.Spanned P := by
  rcases read with ⟨readBase, stop⟩ | ⟨readBase, caret, readExponent⟩
  · exact readBase.keeps kept among
  · obtain ⟨behind, left⟩ := readBase.keeps kept among
    obtain ⟨last, right⟩ := readExponent behind.advance
    exact ⟨last, spanned_binary kept .pow left right⟩

theorem Unary.keeps (among : c.Among P) (read : Unary (Keeping P) c t c') :
    c'.Among P ∧ t.Spanned P := by
  rcases read with ⟨sign, readOperand⟩ | ⟨noSign, readPower⟩
  · obtain ⟨last, operand⟩ := readOperand among.advance
    have span := kept.through among.current operand.span
    exact ⟨last, Tree.spanned_node.mpr ⟨span, List.forall_mem_singleton.mpr operand⟩⟩
  · exact readPower.keeps kept among

theorem Operators.keeps {level : Nat} {left : SourceTree} (among : c.Among P)
    (before : left.Spanned P) (read : Operators (Keeping P) level left c t c') :
    c'.Among P ∧ t.Spanned P := by
  rcases read with stop | ⟨sign, precedence, group, readRight, readMore⟩ |
    ⟨sign, precedence, group, readRight⟩ | ⟨sign, precedence, group, readRight⟩
  · exact ⟨among, before⟩
  · obtain ⟨behind, right⟩ := readRight among.advance
    exact readMore behind (spanned_binary kept _ before right)
  · obtain ⟨last, right⟩ := readRight among.advance
    exact ⟨last, spanned_binary kept _ before right⟩
  · obtain ⟨last, right⟩ := readRight among.advance
    exact ⟨last, spanned_binary kept _ before right⟩

theorem Ladder.keeps {level : Nat} (among : c.Among P) (read : Ladder (Keeping P) level c t c') :
    c'.Among P ∧ t.Spanned P := by
  rcases read with ⟨low, readLeft, readMore⟩ | ⟨high, readUnary⟩
  · obtain ⟨behind, left⟩ := readLeft among
    exact readMore behind left
  · exact readUnary.keeps kept among

end Expressions

section Statements

theorem MoreNames.keeps {cause : Cause} (among : c.Among P)
    (read : MoreNames (Keeping P) cause c ts c') : c'.Among P ∧ ∀ t ∈ ts, t.Spanned P := by
  rcases read with stop | ⟨comma, readName, readMore⟩
  · exact ⟨among, by simp⟩
  · obtain ⟨behind, name⟩ := readName.keeps among.advance
    obtain ⟨last, more⟩ := readMore behind
    exact ⟨last, List.forall_mem_cons.mpr ⟨name, more⟩⟩

variable (kept : Span.IsKept P)

include kept

theorem MoreTargets.keeps (among : c.Among P) (read : MoreTargets (Keeping P) c ts c') :
    c'.Among P ∧ ∀ t ∈ ts, t.Spanned P := by
  rcases read with stop | ⟨comma, readTarget, readMore⟩
  · exact ⟨among, by simp⟩
  · obtain ⟨behind, target⟩ := readTarget.keeps kept among.advance
    obtain ⟨last, more⟩ := readMore behind
    exact ⟨last, List.forall_mem_cons.mpr ⟨target, more⟩⟩

theorem LocalStatement.keeps (among : c.Among P) (read : LocalStatement (Keeping P) c t c') :
    c'.Among P ∧ t.Spanned P := by
  rcases read with ⟨start, readName, readBody⟩ | ⟨readName, readMore, stop⟩ |
    ⟨readName, readMore, assign, readValues⟩
  · obtain ⟨behind, name⟩ := readName.keeps among.advance.advance
    obtain ⟨last, parts⟩ := readBody.keeps behind
    exact ⟨last, last.close kept among.current (List.forall_mem_cons.mpr ⟨name, parts⟩)⟩
  · obtain ⟨behind, name⟩ := readName.keeps among.advance
    obtain ⟨last, more⟩ := readMore behind
    have names := List.forall_mem_cons.mpr ⟨name, more⟩
    refine ⟨last, last.close kept among.current ?_⟩
    rwa [Kind.children, List.append_nil]
  · obtain ⟨behind, name⟩ := readName.keeps among.advance
    obtain ⟨named, more⟩ := readMore behind
    obtain ⟨last, values⟩ := readValues named.advance
    have names := List.forall_mem_cons.mpr ⟨name, more⟩
    exact ⟨last, last.close kept among.current (List.forall_mem_append.mpr ⟨names, values⟩)⟩

theorem DottedName.keeps {head : SourceTree} (among : c.Among P) (before : head.Spanned P)
    (read : DottedName (Keeping P) head c t c') : c'.Among P ∧ t.Spanned P := by
  rcases read with ⟨noDot, noColon⟩ | ⟨start, readName, readMore⟩ | ⟨start, readName⟩
  · exact ⟨among, before⟩
  · obtain ⟨behind, key⟩ := readName.keeps among.advance
    exact readMore behind (behind.close kept before.span (by simp [Kind.children, before, key]))
  · obtain ⟨last, name⟩ := readName.keeps among.advance
    exact ⟨last, last.close kept before.span (by simp [Kind.children, before, name])⟩

theorem FunctionStatement.keeps (among : c.Among P)
    (read : FunctionStatement (Keeping P) c t c') : c'.Among P ∧ t.Spanned P := by
  obtain ⟨readFirst, readName, readBody⟩ := read
  obtain ⟨behind, first⟩ := readFirst.keeps among.advance
  obtain ⟨named, name⟩ := readName behind first
  obtain ⟨last, parts⟩ := readBody.keeps named
  exact ⟨last, last.close kept among.current (List.forall_mem_cons.mpr ⟨name, parts⟩)⟩

theorem ReturnStatement.keeps (among : c.Among P) (read : ReturnStatement (Keeping P) c t c') :
    c'.Among P ∧ t.Spanned P := by
  rcases read with stop | ⟨start, readValues⟩
  · exact ⟨among.advance, among.advance.close kept among.current (by simp [Kind.children])⟩
  · obtain ⟨last, values⟩ := readValues among.advance
    exact ⟨last, last.close kept among.current values⟩

theorem DoStatement.keeps (among : c.Among P) (read : DoStatement (Keeping P) c t c') :
    c'.Among P ∧ t.Spanned P := by
  obtain ⟨readBody, close⟩ := read
  obtain ⟨behind, body⟩ := readBody among.advance
  exact ⟨behind.advance,
    behind.advance.close kept among.current (List.forall_mem_singleton.mpr body)⟩

theorem ElseIfs.keeps (among : c.Among P) (read : ElseIfs (Keeping P) c ts c') :
    c'.Among P ∧ ∀ t ∈ ts, t.Spanned P := by
  rcases read with stop | ⟨start, readCondition, thenKw, readBody, readMore⟩
  · exact ⟨among, by simp⟩
  · obtain ⟨tested, condition⟩ := readCondition among.advance
    obtain ⟨behind, body⟩ := readBody tested.advance
    obtain ⟨last, more⟩ := readMore behind
    refine ⟨last, List.forall_mem_cons.mpr ⟨behind.close kept among.current ?_, more⟩⟩
    simp [Kind.children, condition, body]

theorem ElseClause.keeps {branch : Option SourceTree} (among : c.Among P)
    (read : ElseClause (Keeping P) c branch c') :
    c'.Among P ∧ ∀ t ∈ branch.toList, t.Spanned P := by
  rcases read with stop | ⟨start, readBody⟩
  · exact ⟨among, by simp⟩
  · obtain ⟨last, body⟩ := readBody among.advance
    refine ⟨last, List.forall_mem_singleton.mpr ?_⟩
    exact last.close kept among.current (List.forall_mem_singleton.mpr body)

theorem IfStatement.keeps (among : c.Among P) (read : IfStatement (Keeping P) c t c') :
    c'.Among P ∧ t.Spanned P := by
  obtain ⟨readCondition, thenKw, readBody, readClauses, readBranch, close⟩ := read
  obtain ⟨tested, condition⟩ := readCondition among.advance
  obtain ⟨behind, body⟩ := readBody tested.advance
  obtain ⟨branched, clauses⟩ := readClauses behind
  obtain ⟨last, branch⟩ := readBranch.keeps kept branched
  refine ⟨last.advance, last.advance.close kept among.current ?_⟩
  have tests := List.forall_mem_cons.mpr ⟨condition, List.forall_mem_cons.mpr ⟨body, clauses⟩⟩
  exact List.forall_mem_append.mpr ⟨tests, branch⟩

theorem WhileStatement.keeps (among : c.Among P) (read : WhileStatement (Keeping P) c t c') :
    c'.Among P ∧ t.Spanned P := by
  obtain ⟨readCondition, doKw, readBody, close⟩ := read
  obtain ⟨tested, condition⟩ := readCondition among.advance
  obtain ⟨behind, body⟩ := readBody tested.advance
  exact ⟨behind.advance,
    behind.advance.close kept among.current (by simp [Kind.children, condition, body])⟩

theorem RepeatStatement.keeps (among : c.Among P) (read : RepeatStatement (Keeping P) c t c') :
    c'.Among P ∧ t.Spanned P := by
  obtain ⟨readBody, untilKw, readCondition⟩ := read
  obtain ⟨behind, body⟩ := readBody among.advance
  obtain ⟨last, condition⟩ := readCondition behind.advance
  exact ⟨last, last.close kept among.current (by simp [Kind.children, condition, body])⟩

omit kept in
theorem ForBody.keeps (among : c.Among P) (read : ForBody (Keeping P) c t c') :
    c'.Among P ∧ t.Spanned P := by
  obtain ⟨doKw, readBody, close⟩ := read
  obtain ⟨behind, body⟩ := readBody among.advance
  exact ⟨behind.advance, body⟩

omit kept in
theorem ForStep.keeps {step : Option SourceTree} (among : c.Among P)
    (read : ForStep (Keeping P) c step c') : c'.Among P ∧ ∀ t ∈ step.toList, t.Spanned P := by
  rcases read with stop | ⟨comma, readStep⟩
  · exact ⟨among, by simp⟩
  · obtain ⟨last, step⟩ := readStep among.advance
    exact ⟨last, List.forall_mem_singleton.mpr step⟩

theorem ForStatement.keeps (among : c.Among P) (read : ForStatement (Keeping P) c t c') :
    c'.Among P ∧ t.Spanned P := by
  rcases read with ⟨assign, readCounter, readStart, comma, readLimit, readStep, readBody⟩ |
    ⟨noAssign, readName, readMore, inKw, readIterators, readBody⟩
  · obtain ⟨counted, counter⟩ := readCounter.keeps among.advance
    obtain ⟨started, start⟩ := readStart counted.advance
    obtain ⟨limited, limit⟩ := readLimit started.advance
    obtain ⟨stepped, step⟩ := readStep.keeps limited
    obtain ⟨last, body⟩ := readBody.keeps stepped
    refine ⟨last, last.close kept among.current ?_⟩
    have range := List.forall_mem_cons.mpr ⟨counter,
      List.forall_mem_cons.mpr ⟨start, List.forall_mem_cons.mpr ⟨limit, step⟩⟩⟩
    exact List.forall_mem_append.mpr ⟨range, List.forall_mem_singleton.mpr body⟩
  · obtain ⟨behind, name⟩ := readName.keeps among.advance
    obtain ⟨named, more⟩ := readMore behind
    obtain ⟨iterated, iterators⟩ := readIterators named.advance
    obtain ⟨last, body⟩ := readBody.keeps iterated
    refine ⟨last, last.close kept among.current ?_⟩
    have lists := List.forall_mem_append.mpr ⟨List.forall_mem_cons.mpr ⟨name, more⟩, iterators⟩
    exact List.forall_mem_append.mpr ⟨lists, List.forall_mem_singleton.mpr body⟩

theorem ExpressionStatement.keeps (among : c.Among P)
    (read : ExpressionStatement (Keeping P) c t c') : c'.Among P ∧ t.Spanned P := by
  rcases read with ⟨readFirst, readMore, assign, assignable, readValues⟩ |
    ⟨readTarget, readMore, noAssign, sign, assignable, readValue⟩ |
    ⟨readExpression, readMore, noAssign, noSign, call⟩
  · obtain ⟨behind, first⟩ := readFirst.keeps kept among
    obtain ⟨assigned, more⟩ := readMore behind
    obtain ⟨last, values⟩ := readValues assigned.advance
    have targets := List.forall_mem_cons.mpr ⟨first, more⟩
    exact ⟨last, last.close kept among.current (List.forall_mem_append.mpr ⟨targets, values⟩)⟩
  · obtain ⟨behind, target⟩ := readTarget.keeps kept among
    obtain ⟨assigned, -⟩ := readMore behind
    obtain ⟨last, value⟩ := readValue assigned.advance
    exact ⟨last, last.close kept among.current (by simp [Kind.children, target, value])⟩
  · obtain ⟨behind, expression⟩ := readExpression.keeps kept among
    obtain ⟨last, -⟩ := readMore behind
    exact ⟨last, last.close kept among.current (List.forall_mem_singleton.mpr expression)⟩

theorem Statement.keeps (among : c.Among P) (read : Statement (Keeping P) c t c') :
    c'.Among P ∧ t.Spanned P := by
  cases read with
  | localStatement start read => exact read.keeps kept among
  | function start read => exact read.keeps kept among
  | returning start read => exact read.keeps kept among
  | breaking start => exact ⟨among.advance, among.leaf rfl⟩
  | continuing start => exact ⟨among.advance, among.leaf rfl⟩
  | doBlock start read => exact read.keeps kept among
  | ifChain start read => exact read.keeps kept among
  | whileLoop start read => exact read.keeps kept among
  | repeatLoop start read => exact read.keeps kept among
  | forLoop start read => exact read.keeps kept among
  | expression start read => exact read.keeps kept among

omit kept in
theorem Statements.keeps (among : c.Among P) (read : Statements (Keeping P) c ts c') :
    c'.Among P ∧ ∀ t ∈ ts, t.Spanned P := by
  rcases read with stop | ⟨start, readStatement, terminal, readMore⟩
  · exact ⟨among, by simp⟩
  · obtain ⟨behind, statement⟩ := readStatement (among.comments _)
    obtain ⟨last, more⟩ := readMore ((behind.skip .semicolon).comments _)
    exact ⟨last, List.forall_mem_cons.mpr ⟨statement.withComments _ _, more⟩⟩

theorem Block.keeps (among : c.Among P) (read : Block (Keeping P) c t c') :
    c'.Among P ∧ t.Spanned P := by
  obtain ⟨readAll⟩ := read
  obtain ⟨last, statements⟩ := readAll among
  have span := spanned_blockSpan kept among.current statements
  exact ⟨last.comments _, Tree.spanned_node.mpr ⟨span, statements⟩⟩

end Statements

/-- Every rule keeps what is kept when spans are put together. -/
theorem derives_keeping (kept : Span.IsKept P) {α : Type} {rule : Rule α} {a : α}
    (ends : c.EndsFile) (read : Derives α rule c a c') : Keeping P α rule c a c' := by
  refine Derives.induct_step ?_ ends read
  intro α rule c c' a ends step
  cases rule with
  | block => exact fun among => Block.keeps kept among step
  | statements => exact fun among => Statements.keeps among step
  | statement => exact fun among => Statement.keeps kept among step
  | elseIfs => exact fun among => ElseIfs.keeps kept among step
  | moreTargets => exact fun among => MoreTargets.keeps kept among step
  | moreNames cause => exact fun among => MoreNames.keeps among step
  | dottedName head => exact fun among before => DottedName.keeps kept among before step
  | expressions => exact fun among => Expressions.keeps among step
  | moreExpressions => exact fun among => MoreExpressions.keeps among step
  | expression level => exact fun among => Ladder.keeps kept among step
  | operators level left => exact fun among before => Operators.keeps kept among before step
  | suffixes head => exact fun among before => Suffixes.keeps kept among before step
  | fields => exact fun among => Fields.keeps kept among step
  | parameters => exact fun among => Parameters.keeps among step

theorem Chunk.keeps (kept : Span.IsKept P) (ends : c.EndsFile) (among : c.Among P)
    (read : Chunk Derives c t c') : t.Spanned P := by
  obtain ⟨readBody, stop⟩ := read
  obtain ⟨last, body⟩ := derives_keeping kept ends readBody among
  have span := kept.through among.current last.current
  exact Tree.spanned_node.mpr ⟨span, List.forall_mem_singleton.mpr body⟩

end Grammar

/-- Of a program, what holds of the spans of its tokens holds of the spans of its nodes. -/
theorem spanned_of_parse (kept : Span.IsKept P) {source : String} {t : SourceTree}
    (tokens : ∀ token ∈ tokenize source, P token.span) (parsed : parse source = .ok t) :
    t.Spanned P := by
  obtain ⟨c', readChunk⟩ := parseTokens_ok_iff.mp parsed
  have opens := Cursor.opens_ofTokens source
  rw [← opens.tokens] at tokens
  have first : P (Cursor.ofTokens (Scan.ofSource source).tokens
      (Scan.ofSource source).comments).current.span := by
    obtain ⟨later, front⟩ := Cursor.exists_tokens_eq (Cursor.ofTokens (Scan.ofSource source).tokens
      (Scan.ofSource source).comments)
    exact tokens _ (by rw [front]; exact List.mem_cons_self)
  -- before the first token, that token counts as just read
  exact Grammar.Chunk.keeps kept opens.ends ⟨tokens, first⟩ readChunk

theorem Arena.span_of_spanned {t : SourceTree} (spanned : t.Spanned P) {id : NodeId}
    (present : id.index < (ofTree t).size) : P ((ofTree t).span id) := by
  rw [size_ofTree] at present
  rw [Arena.span, origin_ofTree, List.getElem?_eq_getElem present]
  exact spanned _ (List.getElem_mem present)

end LuaTree
