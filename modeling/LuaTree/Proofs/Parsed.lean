import LuaTree.Proofs.Scanned

/-!
# Parsed trees are well formed

A text whose strings and block comments are closed, or can be, gives literals and
comments that can be written again. `Legible` is what a cursor over such a text
keeps along every reading, and `Shaped` says of each rule what it yields from
there: a well formed tree that needs no parentheses, with comments that can stand
where they were found.
-/

namespace LuaTree

/-- The names, literals and comments in front of a cursor can be written again. Of two comments
that begin on one line, the first leaves it open. -/
structure Cursor.Legible (c : Cursor) : Prop where
  ends : c.EndsFile
  names : ∀ token ∈ c.rest, token.kind = .identifier → IsIdentifier token.lexeme
  literals : ∀ token ∈ c.rest, ∀ literal ∈ Grammar.literal? token, literal.IsToken
  comments : ∀ comment ∈ c.comments, comment.IsWritable
  lines : c.comments.Pairwise fun a b =>
    a.span.start.line = b.span.start.line → a.leavesLineOpen = true

namespace Cursor

theorem Legible.advance {c : Cursor} (legible : c.Legible) : c.advance.Legible := by
  obtain ⟨rest, stop, last, comments⟩ := c
  cases rest with
  | nil => exact legible
  | cons token rest =>
    exact ⟨legible.ends, fun t member => legible.names t (List.mem_cons_of_mem _ member),
      fun t member => legible.literals t (List.mem_cons_of_mem _ member), legible.comments,
      legible.lines⟩

theorem Legible.skip {c : Cursor} (legible : c.Legible) (kind : TokenKind) :
    (c.skip kind).Legible := by
  unfold Cursor.skip
  split
  · exact legible.advance
  · exact legible

/-- Comments may be taken away. -/
theorem Legible.sublist {c : Cursor} (legible : c.Legible) {left : List Comment}
    (sub : left.Sublist c.comments) : Legible { c with comments := left } :=
  ⟨legible.ends, legible.names, legible.literals,
    fun comment member => legible.comments comment (sub.subset member), legible.lines.sublist sub⟩

theorem Legible.afterLeading {c : Cursor} (legible : c.Legible) : c.afterLeading.Legible :=
  legible.sublist (List.dropWhile_sublist _)

theorem Legible.afterTrailing {c : Cursor} (legible : c.Legible) : c.afterTrailing.Legible := by
  refine legible.sublist ?_
  have kept : (c.comments.takeWhile c.isInside ++
      (c.comments.dropWhile c.isInside).dropWhile c.trails).Sublist
        (c.comments.takeWhile c.isInside ++ c.comments.dropWhile c.isInside) :=
    (List.dropWhile_sublist c.trails).append_left _
  rwa [List.takeWhile_append_dropWhile] at kept

/-- The token in front is the end of the file or one of those that are left. -/
theorem EndsFile.current_mem {c : Cursor} (ends : c.EndsFile) (more : c.current.kind ≠ .eof) :
    c.current ∈ c.rest := by
  obtain ⟨rest, stop, last, comments⟩ := c
  cases rest with
  | nil => exact absurd ends more
  | cons token rest => exact List.mem_cons_self ..

theorem Legible.leading {c : Cursor} (legible : c.Legible) :
    ∀ comment ∈ c.leading, comment.IsWritable :=
  fun comment member => legible.comments comment ((List.takeWhile_sublist _).subset member)

theorem Legible.trailing {c : Cursor} (legible : c.Legible) :
    ∀ comment ∈ c.trailing, comment.IsWritable :=
  fun comment member => legible.comments comment (c.trailing_sublist.subset member)

end Cursor

/-- In a list of which each earlier member is marked before each later one, all but the last are
marked. -/
theorem forall_dropLast_of_pairwise {α : Type} {p : α → Prop} {list : List α}
    (earlier : list.Pairwise fun a _ => p a) : ∀ a ∈ list.dropLast, p a := by
  induction list with
  | nil => simp
  | cons a list ih =>
    obtain ⟨first, rest⟩ := List.pairwise_cons.mp earlier
    cases list with
    | nil => simp
    | cons b list =>
      rw [List.dropLast_cons_cons]
      intro d member
      rcases List.mem_cons.mp member with rfl | member
      · exact first b (List.mem_cons_self ..)
      · exact ih rest d member

/-- The comments behind a statement stand on one line. -/
theorem Cursor.Legible.trailing_open {c : Cursor} (legible : c.Legible) :
    ∀ comment ∈ c.trailing.dropLast, comment.leavesLineOpen = true := by
  refine forall_dropLast_of_pairwise ?_
  have sameLine : ∀ comment ∈ c.trailing, comment.span.start.line = c.last.stop.line := by
    intro comment member
    have trails := List.all_eq_true.mp List.all_takeWhile comment member
    exact beq_iff_eq.mp (Bool.and_eq_true_iff.mp trails).1
  refine (legible.lines.sublist c.trailing_sublist).imp_of_mem ?_
  intro a b first second marked
  exact marked ((sameLine a first).trans (sameLine b second).symm)

namespace Grammar

open Cursor

/-- Parameters, of which only the last can be `...`. -/
def AreParameters (ps : List SourceTree) : Prop :=
  (∀ p ∈ ps, Writable .parameter p) ∧ ∀ p ∈ ps.dropLast, Writable .name p

/-- The left operand that operators of a level find: it binds tighter, or it has been read at
the level itself because its operator groups to the left. -/
def LeadsAt (level : Nat) (left : SourceTree) : Prop :=
  level < left.grip.level ∨
    ∃ op : BinaryOp, left.grip = .binary op ∧ op.precedence = level ∧ op.associativity = .left

/-- A statement that has no comments yet; it stays well formed with those that fit. -/
def IsFreshStatement (t : SourceTree) : Prop :=
  t.mark.IsBare ∧ t.kind.isStatement = true ∧
    ∀ m, Fit m t.kind → Writable .statement (.node m t.kind)

/-- What each rule yields from a cursor over a text that can be written again. -/
def Shaped : Reading
  | _, .block, c, t, c' => c.Legible → Writable .block t ∧ c'.Legible
  | _, .statements, c, ts, c' => c.Legible →
    (∀ t ∈ ts, Writable .statement t) ∧ (∀ t ∈ ts.dropLast, t.kind.isTerminal = false) ∧
      (c.current.kind.endsBlock = true → ts = []) ∧ c'.Legible
  | _, .statement, c, t, c' => c.Legible → IsFreshStatement t ∧ c'.Legible
  | _, .elseIfs, c, ts, c' => c.Legible → (∀ t ∈ ts, Writable .elseIf t) ∧ c'.Legible
  | _, .moreTargets, c, ts, c' => c.Legible → (∀ t ∈ ts, Writable .expression t) ∧ c'.Legible
  | _, .moreNames _, c, ts, c' => c.Legible → (∀ t ∈ ts, Writable .name t) ∧ c'.Legible
  | _, .dottedName head, c, t, c' => c.Legible → Writable .dottedName head →
    Writable .functionName t ∧ c'.Legible
  | _, .expressions, c, ts, c' => c.Legible →
    ts ≠ [] ∧ (∀ t ∈ ts, Writable .expression t) ∧ c'.Legible
  | _, .moreExpressions, c, ts, c' => c.Legible → (∀ t ∈ ts, Writable .expression t) ∧ c'.Legible
  | _, .expression level, c, t, c' => c.Legible →
    Writable .expression t ∧ (level ≤ UnaryOp.precedence → level ≤ t.grip.level) ∧ c'.Legible
  | _, .operators level left, c, t, c' => c.Legible → level < UnaryOp.precedence →
    Writable .expression left → LeadsAt level left →
      Writable .expression t ∧ level ≤ t.grip.level ∧ c'.Legible
  | _, .suffixes head, c, t, c' => c.Legible → Writable .expression head → head.grip = .closed →
    Writable .expression t ∧ t.grip = .closed ∧ c'.Legible
  | _, .fields, c, ts, c' => c.Legible → (∀ t ∈ ts, Writable .field t) ∧ c'.Legible
  | _, .parameters, c, ts, c' => c.Legible → ts ≠ [] ∧ AreParameters ts ∧ c'.Legible

/-- What the rules read, with what is to be shown of it. -/
def Known : Reading :=
  fun α rule c a c' => Derives α rule c a c' ∧ Shaped α rule c a c'

section Expressions

variable {c c' : Cursor} {t : SourceTree} {ts : List SourceTree}

theorem Name.shaped (legible : c.Legible) (read : Name c t c') : Writable .name t ∧ c'.Legible := by
  obtain ⟨kind⟩ := read
  have identifier := legible.names _ (legible.ends.current_mem (by simp [kind])) kind
  exact ⟨.name identifier (.of_span trivial), legible.advance⟩

theorem Enclosed.shaped (legible : c.Legible) (read : Enclosed Known .expressions c ts c') :
    (∀ t ∈ ts, Writable .expression t) ∧ c'.Legible := by
  rcases read with close | ⟨-, readList, -⟩
  · exact ⟨by simp, legible.advance⟩
  · obtain ⟨-, list, legible⟩ := readList.2 legible
    exact ⟨list, legible.advance⟩

theorem FunctionBody.shaped {params : List SourceTree} {body : SourceTree} (legible : c.Legible)
    (read : FunctionBody Known c params body c') :
    AreParameters params ∧ Writable .block body ∧ c'.Legible := by
  obtain ⟨start, readParams, readBody, close⟩ := read
  rcases readParams with done | ⟨-, readList, -⟩
  · obtain ⟨body, legible⟩ := readBody.2 legible.advance.advance
    exact ⟨⟨by simp, by simp⟩, body, legible.advance⟩
  · obtain ⟨-, list, legible⟩ := readList.2 legible.advance
    obtain ⟨body, legible⟩ := readBody.2 legible.advance
    exact ⟨list, body, legible.advance⟩

theorem Expressions.shaped (legible : c.Legible) (read : Expressions Known c ts c') :
    ts ≠ [] ∧ (∀ t ∈ ts, Writable .expression t) ∧ c'.Legible := by
  obtain ⟨readFirst, readMore⟩ := read
  obtain ⟨first, -, legible⟩ := readFirst.2 legible
  obtain ⟨more, legible⟩ := readMore.2 legible
  exact ⟨by simp, List.forall_mem_cons.mpr ⟨first, more⟩, legible⟩

theorem MoreExpressions.shaped (legible : c.Legible) (read : MoreExpressions Known c ts c') :
    (∀ t ∈ ts, Writable .expression t) ∧ c'.Legible := by
  rcases read with stop | ⟨comma, readList⟩
  · exact ⟨by simp, legible⟩
  · obtain ⟨-, list, legible⟩ := readList.2 legible.advance
    exact ⟨list, legible⟩

theorem Field.shaped (legible : c.Legible) (read : Field Known c t c') :
    Writable .field t ∧ c'.Legible := by
  rcases read with ⟨start, readKey, close, assign, readValue⟩ | ⟨readName, assign, readValue⟩ |
    ⟨noKey, noName, readValue⟩
  · obtain ⟨key, -, legible⟩ := readKey.2 legible.advance
    obtain ⟨value, -, legible⟩ := readValue.2 legible.advance.advance
    exact ⟨.bracketed key value (.of_span trivial), legible⟩
  · obtain ⟨name, legible⟩ := readName.shaped legible
    obtain ⟨value, -, legible⟩ := readValue.2 legible.advance
    exact ⟨.named name value (.of_span trivial), legible⟩
  · obtain ⟨value, -, legible⟩ := readValue.2 legible
    exact ⟨.positional value (.of_span trivial), legible⟩

/-- A genuine string between its quotes. -/
theorem quoted_of_genuine {token : Token} (kind : token.kind = .string)
    (genuine : Piece.Genuine (.token token.kind token.lexeme.toList)) :
    ∃ quote inner, token.lexeme.toList = quote :: inner ++ [quote] ∧ isQuote quote = true ∧
      isQuotable quote inner = true ∧ token.quote? = some quote ∧
      token.contents = String.ofList inner := by
  rw [kind] at genuine
  obtain ⟨quote, inner, text, isQuote, quotable⟩ := Piece.quoted_of_string genuine
  refine ⟨quote, inner, text, isQuote, quotable, ?_, ?_⟩
  · simp [Token.quote?, kind, text, isQuote]
  · simp [Token.contents, text, isQuote, beforeQuote_append isQuote quotable]

/-- The literal of a genuine token can be written. -/
theorem isToken_of_literal? {token : Token} {literal : Literal}
    (genuine : Piece.Genuine (.token token.kind token.lexeme.toList))
    (found : literal? token = some literal) : literal.IsToken := by
  unfold literal? at found
  split at found
  · next kind =>
    obtain rfl := Option.some.inj found
    rw [kind] at genuine
    exact Piece.cut_number genuine
  · next kind =>
    obtain rfl := Option.some.inj found
    obtain ⟨quote, inner, -, isQuote, quotable, quote?, contents⟩ := quoted_of_genuine kind genuine
    rw [quote?, contents]
    exact ⟨isQuote, by simpa using quotable⟩
  · next kind =>
    obtain rfl := Option.some.inj found
    rw [kind] at genuine
    have text := Piece.spelling_of_token genuine (by decide)
    exact .inl (String.toList_inj.mp text)
  · next kind =>
    obtain rfl := Option.some.inj found
    rw [kind] at genuine
    have text := Piece.spelling_of_token genuine (by decide)
    exact .inr (String.toList_inj.mp text)
  · obtain rfl := Option.some.inj found
    rfl
  · simp at found

theorem Primary.shaped (legible : c.Legible) (read : Primary Known c t c') :
    Writable .expression t ∧ t.grip = .closed ∧ c'.Legible := by
  cases read with
  | literal token =>
    have member := legible.ends.current_mem (literal?_ne_eof token)
    exact ⟨.literal (legible.literals _ member _ token) (.of_span trivial), rfl, legible.advance⟩
  | name readName =>
    obtain ⟨name, legible⟩ := readName.shaped legible
    obtain ⟨kind⟩ := readName
    exact ⟨.ofName name, rfl, legible⟩
  | varArg kind => exact ⟨.varArg (.of_span trivial), rfl, legible.advance⟩
  | table start readFields close =>
    obtain ⟨fields, legible⟩ := readFields.2 legible.advance
    exact ⟨.table fields (.of_span trivial), rfl, legible.advance⟩
  | function start readBody =>
    obtain ⟨⟨parameters, varArgLast⟩, body, legible⟩ := readBody.shaped legible.advance
    exact ⟨.anonymousFunction parameters varArgLast body (.of_span trivial), rfl, legible⟩
  | paren start readInner close =>
    obtain ⟨inner, -, legible⟩ := readInner.2 legible.advance
    exact ⟨.paren inner (.of_span trivial), rfl, legible.advance⟩

theorem Suffixes.shaped {head : SourceTree} (read : Suffixes Known head c t c') :
    Shaped _ (.suffixes head) c t c' := by
  intro legible wellFormed closed
  have snug : head.grip.needsPrefixParens = false := by rw [closed]; rfl
  rcases read with stop | ⟨start, sameLine, readArgs, readMore⟩ |
    ⟨start, sameLine, readKey, close, readMore⟩ | ⟨start, readName, readMore⟩ |
    ⟨start, readName, parens, readArgs, readMore⟩
  · exact ⟨wellFormed, closed, legible⟩
  · obtain ⟨args, legible⟩ := readArgs.shaped legible.advance
    exact readMore.2 legible (.call wellFormed args (.of_span snug)) rfl
  · obtain ⟨key, -, legible⟩ := readKey.2 legible.advance
    exact readMore.2 legible.advance (.index wellFormed key (.of_span snug)) rfl
  · obtain ⟨name, legible⟩ := readName.shaped legible.advance
    exact readMore.2 legible (.member wellFormed name (.of_span snug)) rfl
  · obtain ⟨name, legible⟩ := readName.shaped legible.advance
    obtain ⟨args, legible⟩ := readArgs.shaped legible.advance
    exact readMore.2 legible (.methodCall wellFormed name args (.of_span snug)) rfl

theorem PrefixExpression.shaped (legible : c.Legible) (read : PrefixExpression Known c t c') :
    Writable .expression t ∧ t.grip = .closed ∧ c'.Legible := by
  obtain ⟨readHead, readMore⟩ := read
  obtain ⟨head, closed, legible⟩ := readHead.shaped legible
  exact readMore.2 legible head closed

theorem Power.shaped (legible : c.Legible) (read : Power Known c t c') :
    Writable .expression t ∧ UnaryOp.precedence ≤ t.grip.level ∧ c'.Legible := by
  rcases read with ⟨readBase, stop⟩ | ⟨readBase, caret, readExponent⟩
  · obtain ⟨base, closed, legible⟩ := readBase.shaped legible
    exact ⟨base, by rw [closed]; decide, legible⟩
  · obtain ⟨base, closed, legible⟩ := readBase.shaped legible
    obtain ⟨exponent, level, legible⟩ := readExponent.2 legible.advance
    have right := (Grip.isLooseBinary_eq_false_iff _).mpr (level (Nat.le_refl _))
    have left := (Grip.needsParens_pow_left_eq_false_iff _).mpr closed
    exact ⟨.binary base exponent (.of_span ⟨left, right⟩), Nat.le_succ _, legible⟩

theorem Unary.shaped (legible : c.Legible) (read : Unary Known c t c') :
    Writable .expression t ∧ UnaryOp.precedence ≤ t.grip.level ∧ c'.Legible := by
  rcases read with ⟨sign, readOperand⟩ | ⟨noSign, readPower⟩
  · obtain ⟨operand, level, legible⟩ := readOperand.2 legible.advance
    have snug := (Grip.isLooseBinary_eq_false_iff _).mpr (level (Nat.le_refl _))
    exact ⟨.unary operand (.of_span snug), Nat.le_refl _, legible⟩
  · exact readPower.shaped legible

/-- Only operators that group to the left find an operand of their own level. -/
theorem LeadsAt.above {op : BinaryOp} {left : SourceTree} (leads : LeadsAt op.precedence left)
    (group : op.associativity ≠ .left) : op.precedence < left.grip.level := by
  rcases leads with above | ⟨other, -, same, grouped⟩
  · exact above
  · exact absurd ((BinaryOp.associativity_eq same).symm.trans grouped) group

theorem Operators.shaped {level : Nat} {left : SourceTree}
    (read : Operators Known level left c t c') : Shaped _ (.operators level left) c t c' := by
  intro legible low wellFormed leads
  cases read with
  | done stop =>
    refine ⟨wellFormed, ?_, legible⟩
    rcases leads with above | ⟨op, grip, precedence, -⟩
    · omega
    · rw [grip, ← precedence]
      exact Nat.le_refl _
  | @left op right _ _ _ sign precedence group readRight readMore =>
    subst precedence
    have noPow : (op == .pow && true) = false := by simp [BinaryOp.ne_pow_of_precedence low]
    obtain ⟨rightFormed, above, legible⟩ := readRight.2 legible.advance
    have snug : Kind.Snug (.binary op left right) := by
      constructor
      · refine (Grip.needsParens_eq_false_iff _ (by simp)).mpr ?_
        rcases leads with tighter | ⟨other, grip, same, -⟩
        · exact .inl tighter
        · exact .inr ⟨by rw [grip, ← same]; rfl,
            by simp [BinaryOp.isRelational, group], by simp [BinaryOp.isRightAssociative, group]⟩
      · refine (Grip.needsParens_eq_false_iff _ noPow).mpr ?_
        exact .inl (above low)
    exact readMore.2 legible low (.binary wellFormed rightFormed (.of_span snug))
      (.inr ⟨op, rfl, rfl, group⟩)
  | @right op right _ sign precedence group readRight =>
    subst precedence
    have noPow : (op == .pow && true) = false := by simp [BinaryOp.ne_pow_of_precedence low]
    obtain ⟨rightFormed, above, legible⟩ := readRight.2 legible.advance
    have snug : Kind.Snug (.binary op left right) := by
      constructor
      · refine (Grip.needsParens_eq_false_iff _ (by simp)).mpr ?_
        exact .inl (leads.above (by simp [group]))
      · refine (Grip.needsParens_eq_false_iff _ noPow).mpr ?_
        rcases Nat.lt_or_eq_of_le (above (Nat.le_of_lt low)) with tighter | same
        · exact .inl tighter
        · exact .inr ⟨same, by simp [BinaryOp.isRelational, group],
            by simp [BinaryOp.isRightAssociative, group]⟩
    exact ⟨.binary wellFormed rightFormed (.of_span snug), Nat.le_refl _, legible⟩
  | @single op right _ sign precedence group readRight =>
    subst precedence
    have noPow : (op == .pow && true) = false := by simp [BinaryOp.ne_pow_of_precedence low]
    obtain ⟨rightFormed, above, legible⟩ := readRight.2 legible.advance
    have snug : Kind.Snug (.binary op left right) := by
      constructor
      · refine (Grip.needsParens_eq_false_iff _ (by simp)).mpr ?_
        exact .inl (leads.above (by simp [group]))
      · refine (Grip.needsParens_eq_false_iff _ noPow).mpr ?_
        exact .inl (above low)
    exact ⟨.binary wellFormed rightFormed (.of_span snug), Nat.le_refl _, legible⟩

theorem Ladder.shaped {level : Nat} (read : Ladder Known level c t c') :
    Shaped _ (.expression level) c t c' := by
  intro legible
  rcases read with ⟨low, readLeft, readMore⟩ | ⟨high, readUnary⟩
  · obtain ⟨left, above, legible⟩ := readLeft.2 legible
    obtain ⟨formed, atLeast, legible⟩ := readMore.2 legible low left (.inl (above low))
    exact ⟨formed, fun _ => atLeast, legible⟩
  · obtain ⟨formed, atLeast, legible⟩ := readUnary.shaped legible
    exact ⟨formed, fun le => Nat.le_trans le atLeast, legible⟩

theorem Fields.shaped (legible : c.Legible) (read : Fields Known c ts c') :
    (∀ t ∈ ts, Writable .field t) ∧ c'.Legible := by
  rcases read with stop | ⟨start, readField, stop⟩ | ⟨start, readField, divider, readMore⟩
  · exact ⟨by simp, legible⟩
  · obtain ⟨field, legible⟩ := readField.shaped legible
    exact ⟨by simpa using field, legible⟩
  · obtain ⟨field, legible⟩ := readField.shaped legible
    obtain ⟨more, legible⟩ := readMore.2 legible.advance
    exact ⟨List.forall_mem_cons.mpr ⟨field, more⟩, legible⟩

theorem Parameters.shaped (legible : c.Legible) (read : Parameters Known c ts c') :
    ts ≠ [] ∧ AreParameters ts ∧ c'.Legible := by
  cases read with
  | varArg kind =>
    exact ⟨by simp, ⟨by simpa using .varParameter (.of_span trivial), by simp⟩, legible.advance⟩
  | last readName stop =>
    obtain ⟨name, legible⟩ := readName.shaped legible
    exact ⟨by simp, ⟨by simpa using .parameter name, by simp⟩, legible⟩
  | @more param params _ _ readName comma readMore =>
    obtain ⟨name, legible⟩ := readName.shaped legible
    obtain ⟨some, ⟨all, names⟩, legible⟩ := readMore.2 legible.advance
    refine ⟨by simp, ⟨List.forall_mem_cons.mpr ⟨.parameter name, all⟩, ?_⟩, legible⟩
    rw [List.dropLast_cons_of_ne_nil some]
    exact List.forall_mem_cons.mpr ⟨name, names⟩

end Expressions

section Statements

variable {c c' : Cursor} {t : SourceTree} {ts : List SourceTree}

theorem MoreNames.shaped {cause : Cause} (legible : c.Legible)
    (read : MoreNames Known cause c ts c') :
    (∀ t ∈ ts, Writable .name t) ∧ c'.Legible := by
  rcases read with stop | ⟨comma, readName, readMore⟩
  · exact ⟨by simp, legible⟩
  · obtain ⟨name, legible⟩ := readName.shaped legible.advance
    obtain ⟨more, legible⟩ := readMore.2 legible
    exact ⟨List.forall_mem_cons.mpr ⟨name, more⟩, legible⟩

theorem MoreTargets.shaped (legible : c.Legible) (read : MoreTargets Known c ts c') :
    (∀ t ∈ ts, Writable .expression t) ∧ c'.Legible := by
  rcases read with stop | ⟨comma, readTarget, readMore⟩
  · exact ⟨by simp, legible⟩
  · obtain ⟨target, -, legible⟩ := readTarget.shaped legible.advance
    obtain ⟨more, legible⟩ := readMore.2 legible
    exact ⟨List.forall_mem_cons.mpr ⟨target, more⟩, legible⟩

theorem LocalStatement.shaped (legible : c.Legible) (read : LocalStatement Known c t c') :
    IsFreshStatement t ∧ c'.Legible := by
  rcases read with ⟨start, readName, readBody⟩ | ⟨readName, readMore, stop⟩ |
    ⟨readName, readMore, assign, readValues⟩
  · obtain ⟨name, legible⟩ := readName.shaped legible.advance.advance
    obtain ⟨⟨parameters, varArgLast⟩, body, legible⟩ := readBody.shaped legible
    exact ⟨⟨⟨rfl, rfl⟩, rfl, fun m fit => .localFunction name parameters varArgLast body fit⟩,
      legible⟩
  · obtain ⟨name, legible⟩ := readName.shaped legible.advance
    obtain ⟨more, legible⟩ := readMore.2 legible
    have names := List.forall_mem_cons.mpr ⟨name, more⟩
    exact ⟨⟨⟨rfl, rfl⟩, rfl, fun m fit => .localNames (by simp) names (by simp) fit⟩, legible⟩
  · obtain ⟨name, legible⟩ := readName.shaped legible.advance
    obtain ⟨more, legible⟩ := readMore.2 legible
    obtain ⟨-, values, legible⟩ := readValues.2 legible.advance
    have names := List.forall_mem_cons.mpr ⟨name, more⟩
    exact ⟨⟨⟨rfl, rfl⟩, rfl, fun m fit => .localNames (by simp) names values fit⟩, legible⟩

theorem DottedName.shaped {head : SourceTree} (legible : c.Legible)
    (formed : Writable .dottedName head) (read : DottedName Known head c t c') :
    Writable .functionName t ∧ c'.Legible := by
  rcases read with ⟨noDot, noColon⟩ | ⟨start, readName, readMore⟩ | ⟨start, readName⟩
  · exact ⟨.function formed, legible⟩
  · obtain ⟨name, legible⟩ := readName.shaped legible.advance
    have snug : head.grip.needsPrefixParens = false := by rw [formed.closed_of_dottedName]; rfl
    exact readMore.2 legible (.dotted formed name (.of_span snug))
  · obtain ⟨name, legible⟩ := readName.shaped legible.advance
    exact ⟨.method formed name (.of_span trivial), legible⟩

theorem FunctionStatement.shaped (legible : c.Legible) (read : FunctionStatement Known c t c') :
    IsFreshStatement t ∧ c'.Legible := by
  obtain ⟨readFirst, readName, readBody⟩ := read
  obtain ⟨first, legible⟩ := readFirst.shaped legible.advance
  obtain ⟨name, legible⟩ := readName.2 legible (.plain first)
  obtain ⟨⟨parameters, varArgLast⟩, body, legible⟩ := readBody.shaped legible
  exact ⟨⟨⟨rfl, rfl⟩, rfl, fun m fit => .functionDefinition name parameters varArgLast body fit⟩,
    legible⟩

theorem ReturnStatement.shaped (legible : c.Legible) (read : ReturnStatement Known c t c') :
    IsFreshStatement t ∧ c'.Legible := by
  rcases read with stop | ⟨start, readValues⟩
  · exact ⟨⟨⟨rfl, rfl⟩, rfl, fun m fit => .returning (by simp) fit⟩, legible.advance⟩
  · obtain ⟨-, values, legible⟩ := readValues.2 legible.advance
    exact ⟨⟨⟨rfl, rfl⟩, rfl, fun m fit => .returning values fit⟩, legible⟩

theorem DoStatement.shaped (legible : c.Legible) (read : DoStatement Known c t c') :
    IsFreshStatement t ∧ c'.Legible := by
  obtain ⟨readBody, close⟩ := read
  obtain ⟨body, legible⟩ := readBody.2 legible.advance
  exact ⟨⟨⟨rfl, rfl⟩, rfl, fun m fit => .doBlock body fit⟩, legible.advance⟩

theorem ElseIfs.shaped (legible : c.Legible) (read : ElseIfs Known c ts c') :
    (∀ t ∈ ts, Writable .elseIf t) ∧ c'.Legible := by
  rcases read with stop | ⟨start, readCondition, thenKw, readBody, readMore⟩
  · exact ⟨by simp, legible⟩
  · obtain ⟨condition, -, legible⟩ := readCondition.2 legible.advance
    obtain ⟨body, legible⟩ := readBody.2 legible.advance
    obtain ⟨more, legible⟩ := readMore.2 legible
    exact ⟨List.forall_mem_cons.mpr ⟨.elseIf condition body (.of_span trivial), more⟩, legible⟩

theorem ElseClause.shaped {branch : Option SourceTree} (legible : c.Legible)
    (read : ElseClause Known c branch c') : (∀ t ∈ branch, Writable .elseBlock t) ∧ c'.Legible := by
  rcases read with stop | ⟨start, readBody⟩
  · exact ⟨by simp, legible⟩
  · obtain ⟨body, legible⟩ := readBody.2 legible.advance
    exact ⟨by simpa using .elseBlock body (.of_span trivial), legible⟩

theorem IfStatement.shaped (legible : c.Legible) (read : IfStatement Known c t c') :
    IsFreshStatement t ∧ c'.Legible := by
  obtain ⟨readCondition, thenKw, readBody, readClauses, readBranch, close⟩ := read
  obtain ⟨condition, -, legible⟩ := readCondition.2 legible.advance
  obtain ⟨body, legible⟩ := readBody.2 legible.advance
  obtain ⟨clauses, legible⟩ := readClauses.2 legible
  obtain ⟨branch, legible⟩ := readBranch.shaped legible
  exact ⟨⟨⟨rfl, rfl⟩, rfl, fun m fit => .ifChain condition body clauses branch fit⟩,
    legible.advance⟩

theorem WhileStatement.shaped (legible : c.Legible) (read : WhileStatement Known c t c') :
    IsFreshStatement t ∧ c'.Legible := by
  obtain ⟨readCondition, doKw, readBody, close⟩ := read
  obtain ⟨condition, -, legible⟩ := readCondition.2 legible.advance
  obtain ⟨body, legible⟩ := readBody.2 legible.advance
  exact ⟨⟨⟨rfl, rfl⟩, rfl, fun m fit => .whileLoop condition body fit⟩, legible.advance⟩

theorem RepeatStatement.shaped (legible : c.Legible) (read : RepeatStatement Known c t c') :
    IsFreshStatement t ∧ c'.Legible := by
  obtain ⟨readBody, untilKw, readCondition⟩ := read
  obtain ⟨body, legible⟩ := readBody.2 legible.advance
  obtain ⟨condition, -, legible⟩ := readCondition.2 legible.advance
  exact ⟨⟨⟨rfl, rfl⟩, rfl, fun m fit => .repeatLoop body condition fit⟩, legible⟩

theorem ForBody.shaped (legible : c.Legible) (read : ForBody Known c t c') :
    Writable .block t ∧ c'.Legible := by
  obtain ⟨doKw, readBody, close⟩ := read
  obtain ⟨body, legible⟩ := readBody.2 legible.advance
  exact ⟨body, legible.advance⟩

theorem ForStep.shaped {step : Option SourceTree} (legible : c.Legible)
    (read : ForStep Known c step c') : (∀ e ∈ step, Writable .expression e) ∧ c'.Legible := by
  rcases read with stop | ⟨comma, readStep⟩
  · exact ⟨by simp, legible⟩
  · obtain ⟨step, -, legible⟩ := readStep.2 legible.advance
    exact ⟨by simpa using step, legible⟩

theorem ForStatement.shaped (legible : c.Legible) (read : ForStatement Known c t c') :
    IsFreshStatement t ∧ c'.Legible := by
  rcases read with ⟨assign, readCounter, readStart, comma, readLimit, readStep, readBody⟩ |
    ⟨noAssign, readName, readMore, inKw, readIterators, readBody⟩
  · obtain ⟨counter, legible⟩ := readCounter.shaped legible.advance
    obtain ⟨start, -, legible⟩ := readStart.2 legible.advance
    obtain ⟨limit, -, legible⟩ := readLimit.2 legible.advance
    obtain ⟨step, legible⟩ := readStep.shaped legible
    obtain ⟨body, legible⟩ := readBody.shaped legible
    exact ⟨⟨⟨rfl, rfl⟩, rfl, fun m fit => .numericFor counter start limit step body fit⟩, legible⟩
  · obtain ⟨name, legible⟩ := readName.shaped legible.advance
    obtain ⟨more, legible⟩ := readMore.2 legible
    obtain ⟨someIterator, iterators, legible⟩ := readIterators.2 legible.advance
    obtain ⟨body, legible⟩ := readBody.shaped legible
    have names := List.forall_mem_cons.mpr ⟨name, more⟩
    exact ⟨⟨⟨rfl, rfl⟩, rfl,
      fun m fit => .genericFor (by simp) names someIterator iterators body fit⟩, legible⟩

theorem Known.derives {n : Nat} : Below n Known Derives := by
  intro α rule c c' a ends _ read
  exact ⟨read.1, read.1.shortens ends⟩

/-- A statement that is not a function definition does not begin with the word `function`. -/
theorem PrefixExpression.noFunction (legible : c.Legible) (start : c.current.kind ∉ statementWords)
    (read : PrefixExpression Known c t c') : t.opensWithFunction = false := by
  rw [Bool.eq_false_iff]
  intro opens
  have derived := (read.lift Known.derives legible.ends (Nat.le_refl _)).1
  have function := (opensWithFunction_iff legible.ends derived).mp opens
  rw [function] at start
  exact start (by decide)

theorem assignToken?_of_assignOp? {kind : TokenKind} {op : BinaryOp}
    (sign : kind.assignOp? = some op) : op.assignToken? = some kind := by
  cases kind <;> cases sign <;> rfl

theorem ExpressionStatement.shaped (legible : c.Legible) (start : c.current.kind ∉ statementWords)
    (read : ExpressionStatement Known c t c') : IsFreshStatement t ∧ c'.Legible := by
  rcases read with ⟨readFirst, readMore, assign, assignable, readValues⟩ |
    ⟨readTarget, readMore, noAssign, sign, assignable, readValue⟩ |
    ⟨readExpression, readMore, noAssign, noSign, call⟩
  · have noFunction := readFirst.noFunction legible start
    obtain ⟨first, -, legible⟩ := readFirst.shaped legible
    obtain ⟨more, legible⟩ := readMore.2 legible
    obtain ⟨someValue, values, legible⟩ := readValues.2 legible.advance
    have targets := List.forall_mem_cons.mpr ⟨first, more⟩
    exact ⟨⟨⟨rfl, rfl⟩, rfl, fun m fit => .assignment (by simp) targets assignable
      (by simpa using noFunction) someValue values fit⟩, legible⟩
  · have noFunction := readTarget.noFunction legible start
    obtain ⟨target, -, legible⟩ := readTarget.shaped legible
    obtain ⟨-, legible⟩ := readMore.2 legible
    obtain ⟨value, -, legible⟩ := readValue.2 legible.advance
    exact ⟨⟨⟨rfl, rfl⟩, rfl, fun m fit => .compoundAssignment
      (by rw [assignToken?_of_assignOp? sign]; rfl) target assignable noFunction value fit⟩,
      legible⟩
  · have noFunction := readExpression.noFunction legible start
    obtain ⟨expression, -, legible⟩ := readExpression.shaped legible
    obtain ⟨-, legible⟩ := readMore.2 legible
    exact ⟨⟨⟨rfl, rfl⟩, rfl, fun m fit => .expressionStatement expression call noFunction fit⟩,
      legible⟩

theorem Statement.shaped (legible : c.Legible) (read : Statement Known c t c') :
    IsFreshStatement t ∧ c'.Legible := by
  cases read with
  | localStatement start read => exact read.shaped legible
  | function start read => exact read.shaped legible
  | returning start read => exact read.shaped legible
  | breaking start => exact ⟨⟨⟨rfl, rfl⟩, rfl, fun m fit => .breaking fit⟩, legible.advance⟩
  | continuing start => exact ⟨⟨⟨rfl, rfl⟩, rfl, fun m fit => .continuing fit⟩, legible.advance⟩
  | doBlock start read => exact read.shaped legible
  | ifChain start read => exact read.shaped legible
  | whileLoop start read => exact read.shaped legible
  | repeatLoop start read => exact read.shaped legible
  | forLoop start read => exact read.shaped legible
  | expression start read => exact read.shaped legible start

theorem snug_of_isStatement {kind : Kind SourceTree} (statement : kind.isStatement = true) :
    kind.Snug := by
  cases kind <;> trivial

/-- A fresh statement with the comments that were found around it. -/
theorem IsFreshStatement.withComments {leading trailing : List Comment} (fresh : IsFreshStatement t)
    (before : ∀ comment ∈ leading, comment.IsWritable)
    (behind : ∀ comment ∈ trailing, comment.IsWritable)
    (oneLine : ∀ comment ∈ trailing.dropLast, comment.leavesLineOpen = true) :
    Writable .statement (t.withComments leading trailing) := by
  obtain ⟨⟨span, l, r⟩, kind⟩ := t
  obtain ⟨⟨noLeading, noTrailing⟩, isStatement, formed⟩ := fresh
  change l = [] at noLeading
  change r = [] at noTrailing
  change kind.isStatement = true at isStatement
  subst noLeading noTrailing
  refine formed _ ⟨snug_of_isStatement isStatement, before, behind, ?_⟩
  exact (isPlaced_iff_of_isStatement isStatement).mpr oneLine

theorem kind_withComments (leading trailing : List Comment) (t : SourceTree) :
    (t.withComments leading trailing).kind = t.kind := by
  cases t
  rfl

theorem Statements.shaped (read : Statements Known c ts c') :
    Shaped _ .statements c ts c' := by
  intro legible
  cases read with
  | none stop => exact ⟨by simp, by simp, fun _ => rfl, legible⟩
  | @some statement statements c₁ _ start readStatement terminal readMore =>
    obtain ⟨fresh, legible₁⟩ := readStatement.2 legible.afterLeading
    have ended := legible₁.skip .semicolon
    obtain ⟨all, notTerminal, stop, legible'⟩ := readMore.2 ended.afterTrailing
    have formed := fresh.withComments legible.leading ended.trailing ended.trailing_open
    refine ⟨List.forall_mem_cons.mpr ⟨formed, all⟩, ?_, by simp [start], legible'⟩
    by_cases last : statements = []
    · simp [last]
    · rw [List.dropLast_cons_of_ne_nil last]
      refine List.forall_mem_cons.mpr ⟨?_, notTerminal⟩
      rw [kind_withComments, Bool.eq_false_iff]
      intro isTerminal
      exact last (stop (terminal isTerminal))

theorem Block.shaped (legible : c.Legible) (read : Block Known c t c') :
    Writable .block t ∧ c'.Legible := by
  obtain ⟨readAll⟩ := read
  obtain ⟨all, notTerminal, -, legible⟩ := readAll.2 legible
  exact ⟨.block all notTerminal ⟨trivial, by simp, legible.leading, rfl⟩, legible.afterLeading⟩

end Statements

/-- Every rule yields what `Shaped` says of it. -/
theorem derives_shaped {α : Type} {rule : Rule α} {c c' : Cursor} {a : α} (ends : c.EndsFile)
    (read : Derives α rule c a c') : Shaped α rule c a c' := by
  refine Derives.induct ?_ ends read
  intro α rule c c' a _ step
  change Step Known α rule c a c' at step
  cases rule with
  | block => exact fun legible => Block.shaped legible step
  | statements => exact Statements.shaped step
  | statement => exact fun legible => Statement.shaped legible step
  | elseIfs => exact fun legible => ElseIfs.shaped legible step
  | moreTargets => exact fun legible => MoreTargets.shaped legible step
  | moreNames cause => exact fun legible => MoreNames.shaped legible step
  | dottedName head => exact fun legible formed => DottedName.shaped legible formed step
  | expressions => exact fun legible => Expressions.shaped legible step
  | moreExpressions => exact fun legible => MoreExpressions.shaped legible step
  | expression level => exact Ladder.shaped step
  | operators level left => exact Operators.shaped step
  | suffixes head => exact Suffixes.shaped step
  | fields => exact fun legible => Fields.shaped legible step
  | parameters => exact fun legible => Parameters.shaped legible step

end Grammar

/-- All strings and block comments of the text are closed. -/
def isTerminated (source : String) : Bool :=
  (Piece.cut source.toList).all Piece.isTerminated

/-- A line comment ends with its line. -/
theorem Piece.newline_of_lineComment {c : Char} {text comment : List Char}
    (found : (first c text).1 = .lineComment comment) : ∀ d ∈ (first c text).2.head?, d = '\n' := by
  revert found
  unfold first
  split
  · simp
  · split
    · simp
    · next rest _ _ =>
      intro _ d member
      simpa using Cut.run_outside d member
    · unfold firstToken
      split
      · simp
      split
      · simp
      split
      · simp [ofWord]
      split <;> simp

/-- What a layout writes for a comment is the piece that says the same, closed if it was open. -/
theorem Piece.comment_of_note? {piece : Piece} {comment : Comment}
    (said : piece.note? = some comment.note) : (∃ text, piece = .lineComment text) ∧
      Layout.comment comment = piece ∨ ∃ text closed, piece = .blockComment text closed ∧
        Layout.comment comment = .blockComment text true := by
  obtain ⟨kind, text, span⟩ := comment
  cases piece with
  | blank | token => cases said
  | lineComment text =>
    obtain ⟨rfl, rfl⟩ := Prod.mk.inj (Option.some.inj said)
    exact .inl ⟨⟨text, rfl⟩, by simp [Layout.comment]⟩
  | blockComment text closed =>
    obtain ⟨rfl, rfl⟩ := Prod.mk.inj (Option.some.inj said)
    exact .inr ⟨text, closed, rfl, by simp [Layout.comment]⟩

/-- The tokens and comments in front of a cursor can be written again as they are. Of two comments
that begin on one line, the first leaves it open. -/
structure Cursor.Lexed (c : Cursor) : Prop where
  ends : c.EndsFile
  tokens : ∀ token ∈ c.rest, Piece.Genuine (.token token.kind token.lexeme.toList)
  comments : ∀ comment ∈ c.comments, comment.IsWritable
  lines : c.comments.Pairwise fun a b =>
    a.span.start.line = b.span.start.line → a.leavesLineOpen = true

namespace Cursor

theorem Lexed.legible {c : Cursor} (lexed : c.Lexed) : c.Legible where
  ends := lexed.ends
  names token member kind := by
    have genuine := lexed.tokens token member
    rw [kind] at genuine
    exact isIdentifier_iff.mpr genuine
  literals token member _ found := Grammar.isToken_of_literal? (lexed.tokens token member) found
  comments := lexed.comments
  lines := lexed.lines

/-- What is left in front of a cursor can be written again as it is, too. -/
theorem Lexed.of_legible {c c' : Cursor} (lexed : c.Lexed) (legible : c'.Legible)
    (left : c'.rest ⊆ c.rest) : c'.Lexed :=
  ⟨legible.ends, fun token member => lexed.tokens token (left member), legible.comments,
    legible.lines⟩

theorem rest_advance_subset (c : Cursor) : c.advance.rest ⊆ c.rest := by
  obtain ⟨rest, stop, last, comments⟩ := c
  cases rest with
  | nil => exact List.Subset.refl _
  | cons token rest => exact List.subset_cons_self ..

theorem Lexed.advance {c : Cursor} (lexed : c.Lexed) : c.advance.Lexed :=
  lexed.of_legible lexed.legible.advance c.rest_advance_subset

theorem Lexed.skip {c : Cursor} (lexed : c.Lexed) (kind : TokenKind) : (c.skip kind).Lexed := by
  unfold Cursor.skip
  split
  · exact lexed.advance
  · exact lexed

theorem Lexed.afterLeading {c : Cursor} (lexed : c.Lexed) : c.afterLeading.Lexed :=
  lexed.of_legible lexed.legible.afterLeading (List.Subset.refl _)

theorem Lexed.afterTrailing {c : Cursor} (lexed : c.Lexed) : c.afterTrailing.Lexed :=
  lexed.of_legible lexed.legible.afterTrailing (List.Subset.refl _)

/-- The token in front, unless it is the end of the file. -/
theorem Lexed.current {c : Cursor} (lexed : c.Lexed) (more : c.current.kind ≠ .eof) :
    Piece.Genuine (.token c.current.kind c.current.lexeme.toList) :=
  lexed.tokens _ (lexed.ends.current_mem more)

/-- The comments before the cursor are among the pieces. -/
theorem exists_piece_of_mem_comments {last : Span} {place : Place} {pieces : List Piece}
    {comment : Comment} (member : comment ∈ (facing last place pieces).comments) :
    ∃ piece ∈ pieces, piece.note? = some comment.note := by
  have note := List.mem_map_of_mem (f := Comment.note) member
  rwa [notes_facing, List.mem_filterMap] at note

/-- Of two comments that begin on one line, the first leaves it open. -/
theorem lines_facing_cut (text : List Char) (last : Span) (place : Place) :
    (facing last place (Piece.cut text)).comments.Pairwise fun a b =>
      a.span.start.line = b.span.start.line → a.leavesLineOpen = true := by
  fun_induction Piece.cut text generalizing place with
  | case1 => exact .nil
  | case2 c text ih =>
    have lines := ih (place.after (Piece.first c text).1.chars)
    have newline (comment : List Char) (found : (Piece.first c text).1 = .lineComment comment) :=
      Piece.newline_of_lineComment found
    generalize (Piece.first c text).2 = rest at lines newline
    generalize (Piece.first c text).1 = piece at lines newline
    cases piece with
    | blank | token => exact lines
    | lineComment comment =>
      refine List.pairwise_cons.mpr ⟨fun later member sameLine => ?_, lines⟩
      cases rest with
      | nil => simp [Piece.cut, facing] at member
      | cons d rest =>
        obtain rfl : d = '\n' := newline comment rfl d rfl
        have blank : Piece.cut ('\n' :: rest) = .blank '\n' :: Piece.cut rest :=
          Piece.fits_blank (by decide) rest
        rw [blank] at member
        -- the line feed behind the comment comes before all later ones
        change later ∈ (facing last (Place.next _ '\n') _).comments at member
        have below := (comments_facing member).2.2.2
        have above := place.line_le_after (Piece.lineComment comment).chars
        simp only [Span.between, Place.next, ↓reduceIte] at sameLine below
        omega
    | blockComment comment closed =>
      refine List.pairwise_cons.mpr ⟨fun later member sameLine => ?_, lines⟩
      simp only [Comment.leavesLineOpen, String.toList_ofList, beq_self_eq_true, Bool.true_and,
        Bool.not_eq_true', ← Bool.not_eq_true]
      intro newline
      have inside : '\n' ∈ (Piece.blockComment comment closed).chars := by
        simp [Piece.chars, List.contains_iff_mem.mp newline]
      have below := (comments_facing member).2.2.2
      have above := place.line_lt_after inside
      simp only [Span.between] at sameLine
      omega

theorem lexed_facing_cut {text : List Char}
    (terminated : ∀ piece ∈ Piece.cut text, piece.isTerminated = true) (last : Span)
    (place : Place) : (facing last place (Piece.cut text)).Lexed where
  ends := facing_endsFile _ _ _
  tokens token member :=
    Piece.genuine_of_mem_cut (mem_of_mem_rest member) (terminated _ (mem_of_mem_rest member))
  comments comment member := by
    obtain ⟨piece, inside, said⟩ := exists_piece_of_mem_comments member
    have closed := terminated piece inside
    have genuine := Piece.genuine_of_mem_cut inside closed
    rw [Comment.IsWritable]
    rcases Piece.comment_of_note? said with ⟨-, same⟩ | ⟨text, _, rfl, same⟩
    · rwa [same]
    · obtain rfl : _ = true := closed
      rwa [same]
  lines := lines_facing_cut text last place

end Cursor

/-- A program over which a cursor can read literals and comments that can be written. -/
theorem writable_of_legible {source : String} {t : SourceTree} (parsed : parse source = .ok t)
    (legible : ∀ last, (Cursor.facing last .start (Piece.cut source.toList)).Legible) :
    Writable .chunk t := by
  obtain ⟨last, start⟩ := Cursor.exists_facing_cut source
  obtain ⟨c', readChunk⟩ := parseTokens_ok_iff.mp parsed
  rw [start] at readChunk
  obtain ⟨readBody, -⟩ := readChunk
  obtain ⟨body, -⟩ := Grammar.derives_shaped (legible last).ends readBody (legible last)
  exact .chunk body (.of_span trivial)

/-- What parses is well formed, and can be written. -/
theorem writable_of_parse {source : String} {t : SourceTree}
    (terminated : isTerminated source = true) (parsed : parse source = .ok t) :
    Writable .chunk t :=
  writable_of_legible parsed fun last =>
    (Cursor.lexed_facing_cut (List.all_eq_true.mp terminated) last .start).legible

theorem exists_parse {source : String} (succeeds : (parse source).isOk = true) :
    ∃ t, parse source = .ok t := by
  cases parsed : parse source with
  | error e => simp [parsed, Except.isOk, Except.toBool] at succeeds
  | ok t => exact ⟨t, rfl⟩

end LuaTree
