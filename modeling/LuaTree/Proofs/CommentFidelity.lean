import LuaTree.Proofs.Adoption
import LuaTree.Proofs.Attachment
import LuaTree.Proofs.Parsed

/-!
# No comment gets lost

Parsing attaches every comment of a program to one node, to a statement or to a
block, and where it stands decides to which. Each rule collects the nodes of what
it yields (`derives_gathered`): pending comments that it does not attach stay
pending, and at the end of the program none is.
-/

namespace LuaTree

namespace Grammar

open Cursor

/-- A statement of which no comments have been taken yet. -/
def GathersStatement (c : Cursor) (t : SourceTree) (c' : Cursor) : Prop :=
  ∃ kind : Kind SourceTree, kind.isStatement = true ∧ t = c'.close c.current.span kind ∧
    Collects c (kind.children.flatMap Tree.nodes) c'

/-- What each rule reads are the nodes of what it yields. A rule that goes on behind a tree adds
to the nodes of the tree. -/
def Gathered : Reading
  | _, .block, c, t, c' => Collects c t.nodes c'
  | _, .statements, c, ts, c' => Collects c (ts.flatMap Tree.nodes) c' ∧
    c'.current.kind.endsBlock = true ∧
    (c' = c ∧ ts = [] ∨ ts ≠ [] ∧ Placed c c' (blockSpan c.current.span ts))
  | _, .statement, c, t, c' => GathersStatement c t c'
  | _, .elseIfs, c, ts, c' => Collects c (ts.flatMap Tree.nodes) c'
  | _, .moreTargets, c, ts, c' => Collects c (ts.flatMap Tree.nodes) c'
  | _, .moreNames _, c, ts, c' => Collects c (ts.flatMap Tree.nodes) c'
  | _, .dottedName head, c, t, c' => ∀ c₀, Collects c₀ head.nodes c → Collects c₀ t.nodes c'
  | _, .expressions, c, ts, c' => Collects c (ts.flatMap Tree.nodes) c'
  | _, .moreExpressions, c, ts, c' => Collects c (ts.flatMap Tree.nodes) c'
  | _, .expression _, c, t, c' => Collects c t.nodes c'
  | _, .operators _ left, c, t, c' => ∀ c₀, Collects c₀ left.nodes c → Collects c₀ t.nodes c'
  | _, .suffixes head, c, t, c' => ∀ c₀, Collects c₀ head.nodes c → Collects c₀ t.nodes c'
  | _, .fields, c, ts, c' => Collects c (ts.flatMap Tree.nodes) c'
  | _, .parameters, c, ts, c' => Collects c (ts.flatMap Tree.nodes) c'

/-- What the rules read, with what is to be shown of its comments. -/
def Watched : Reading :=
  fun α rule c a c' => Derives α rule c a c' ∧ Gathered α rule c a c'

section Expressions

variable {c c' : Cursor} {t : SourceTree} {ts : List SourceTree}

theorem Name.gathers (read : Name c t c') : Collects c t.nodes c' := by
  obtain ⟨kind⟩ := read
  exact (Collects.advance c).plain _ rfl rfl

theorem Expressions.gathers (read : Expressions Watched c ts c') :
    Collects c (ts.flatMap Tree.nodes) c' := by
  obtain ⟨readFirst, readMore⟩ := read
  exact readFirst.2.append readMore.2

theorem MoreExpressions.gathers (read : MoreExpressions Watched c ts c') :
    Collects c (ts.flatMap Tree.nodes) c' := by
  rcases read with stop | ⟨comma, readList⟩
  · exact .refl c
  · exact (Collects.advance c).append readList.2

theorem Enclosed.gathers {rule : Rule (List SourceTree)}
    (list : ∀ {c₁}, Watched _ rule c ts c₁ → Collects c (ts.flatMap Tree.nodes) c₁)
    (read : Enclosed Watched rule c ts c') : Collects c (ts.flatMap Tree.nodes) c' := by
  rcases read with close | ⟨start, readList, close⟩
  · exact .advance c
  · exact (list readList).next

theorem Parameters.gathers (read : Parameters Watched c ts c') :
    Collects c (ts.flatMap Tree.nodes) c' := by
  rcases read with kind | ⟨readName, stop⟩ | ⟨readName, comma, readMore⟩
  · have param : Collects c (c.leaf .varArg).nodes c.advance := (Collects.advance c).plain _ rfl rfl
    simpa using param
  · simpa using readName.gathers
  · exact readName.gathers.next.append readMore.2

theorem FunctionBody.gathers {params : List SourceTree} {body : SourceTree}
    (read : FunctionBody Watched c params body c') :
    Collects c (params.flatMap Tree.nodes ++ body.nodes) c' := by
  obtain ⟨start, readParams, readBody, close⟩ := read
  have params := readParams.gathers fun (readList : Watched _ .parameters _ _ _) => readList.2
  exact (((Collects.advance c).append params).append readBody.2).next

theorem Field.gathers (read : Field Watched c t c') : Collects c t.nodes c' := by
  rcases read with ⟨start, readKey, close, assign, readValue⟩ | ⟨readName, assign, readValue⟩ |
    ⟨noKey, noName, readValue⟩
  · have read := ((Collects.advance c).append readKey.2).next.next.append readValue.2
    exact .plain (by simpa [Kind.children] using read) _ rfl rfl
  · have read := readName.gathers.next.append readValue.2
    exact .plain (by simpa [Kind.children] using read) _ rfl rfl
  · have value : Collects c _ c' := readValue.2
    exact .plain (by simpa [Kind.children] using value) _ rfl rfl

theorem Fields.gathers (read : Fields Watched c ts c') : Collects c (ts.flatMap Tree.nodes) c' := by
  rcases read with stop | ⟨start, readField, stop⟩ | ⟨start, readField, divider, readMore⟩
  · exact .refl c
  · simpa using readField.gathers
  · exact readField.gathers.next.append readMore.2

theorem Primary.gathers (read : Primary Watched c t c') : Collects c t.nodes c' := by
  rcases read with token | readName | kind | ⟨start, readFields, close⟩ | ⟨start, readBody⟩ |
    ⟨start, readInner, close⟩
  · exact (Collects.advance c).plain _ rfl rfl
  · exact readName.gathers
  · exact (Collects.advance c).plain _ rfl rfl
  · have fields := ((Collects.advance c).append readFields.2).next
    exact fields.plain _ rfl rfl
  · have body := (Collects.advance c).append readBody.gathers
    exact .plain (by simpa [Kind.children] using body) _ rfl rfl
  · have inner := ((Collects.advance c).append readInner.2).next
    exact .plain (by simpa [Kind.children] using inner) _ rfl rfl

theorem Suffixes.gathers {head : SourceTree} {c₀ : Cursor} (before : Collects c₀ head.nodes c)
    (read : Suffixes Watched head c t c') : Collects c₀ t.nodes c' := by
  have list {c₁ c₂ : Cursor} {ts : List SourceTree} (readList : Watched _ .expressions c₁ ts c₂) :
      Collects c₁ (ts.flatMap Tree.nodes) c₂ := readList.2
  rcases read with stop | ⟨start, sameLine, readArgs, readMore⟩ |
    ⟨start, sameLine, readKey, close, readMore⟩ | ⟨start, readName, readMore⟩ |
    ⟨start, readName, parens, readArgs, readMore⟩
  · exact before
  · have call := before.next.append (readArgs.gathers list)
    exact readMore.2 c₀ (.plain call _ rfl rfl)
  · have access := (before.next.append readKey.2).next
    exact readMore.2 c₀ (.plain (by simpa [Kind.children] using access) _ rfl rfl)
  · have access := before.next.append readName.gathers
    exact readMore.2 c₀ (.plain (by simpa [Kind.children] using access) _ rfl rfl)
  · have call := (before.next.append readName.gathers).next.append (readArgs.gathers list)
    exact readMore.2 c₀ (.plain (by simpa [Kind.children] using call) _ rfl rfl)

theorem PrefixExpression.gathers (read : PrefixExpression Watched c t c') :
    Collects c t.nodes c' := by
  obtain ⟨readHead, readMore⟩ := read
  exact readMore.2 c readHead.gathers

theorem binary_gathers {c₀ c₁ : Cursor} {left right : SourceTree} (op : BinaryOp)
    (before : Collects c₀ left.nodes c) (behind : Collects c.advance right.nodes c₁) :
    Collects c₀ (binary op left right).nodes c₁ := by
  have operands := before.next.append behind
  exact .plain (by simpa [Kind.children] using operands) _ rfl rfl

theorem Power.gathers (read : Power Watched c t c') : Collects c t.nodes c' := by
  rcases read with ⟨readBase, stop⟩ | ⟨readBase, caret, readExponent⟩
  · exact readBase.gathers
  · exact binary_gathers .pow readBase.gathers readExponent.2

theorem Unary.gathers (read : Unary Watched c t c') : Collects c t.nodes c' := by
  rcases read with ⟨sign, readOperand⟩ | ⟨noSign, readPower⟩
  · have operand := (Collects.advance c).append readOperand.2
    exact .plain (by simpa [Kind.children] using operand) _ rfl rfl
  · exact readPower.gathers

theorem Operators.gathers {level : Nat} {left : SourceTree} {c₀ : Cursor}
    (before : Collects c₀ left.nodes c) (read : Operators Watched level left c t c') :
    Collects c₀ t.nodes c' := by
  rcases read with stop | ⟨sign, precedence, group, readRight, readMore⟩ |
    ⟨sign, precedence, group, readRight⟩ | ⟨sign, precedence, group, readRight⟩
  · exact before
  · exact readMore.2 c₀ (binary_gathers _ before readRight.2)
  · exact binary_gathers _ before readRight.2
  · exact binary_gathers _ before readRight.2

theorem Ladder.gathers {level : Nat} (read : Ladder Watched level c t c') :
    Collects c t.nodes c' := by
  rcases read with ⟨low, readLeft, readMore⟩ | ⟨high, readUnary⟩
  · exact readMore.2 c readLeft.2
  · exact readUnary.gathers

end Expressions

section Statements

variable {c c' : Cursor} {t : SourceTree} {ts : List SourceTree}

theorem MoreNames.gathers {cause : Cause} (read : MoreNames Watched cause c ts c') :
    Collects c (ts.flatMap Tree.nodes) c' := by
  rcases read with stop | ⟨comma, readName, readMore⟩
  · exact .refl c
  · exact ((Collects.advance c).append readName.gathers).append readMore.2

theorem MoreTargets.gathers (read : MoreTargets Watched c ts c') :
    Collects c (ts.flatMap Tree.nodes) c' := by
  rcases read with stop | ⟨comma, readTarget, readMore⟩
  · exact .refl c
  · exact ((Collects.advance c).append readTarget.gathers).append readMore.2

theorem LocalStatement.gathers (read : LocalStatement Watched c t c') :
    GathersStatement c t c' := by
  rcases read with ⟨start, readName, readBody⟩ | ⟨readName, readMore, stop⟩ |
    ⟨readName, readMore, assign, readValues⟩
  · have read := ((Collects.advance c).next.append readName.gathers).append readBody.gathers
    exact ⟨_, rfl, rfl, by simpa [Kind.children] using read⟩
  · have read := ((Collects.advance c).append readName.gathers).append readMore.2
    exact ⟨_, rfl, rfl, by simpa [Kind.children] using read⟩
  · have names := ((Collects.advance c).append readName.gathers).append readMore.2
    have read := names.next.append readValues.2
    exact ⟨_, rfl, rfl, by simpa [Kind.children] using read⟩

theorem DottedName.gathers {head : SourceTree} {c₀ : Cursor} (before : Collects c₀ head.nodes c)
    (read : DottedName Watched head c t c') : Collects c₀ t.nodes c' := by
  rcases read with ⟨noDot, noColon⟩ | ⟨start, readName, readMore⟩ | ⟨start, readName⟩
  · exact before
  · have access := before.next.append readName.gathers
    exact readMore.2 c₀ (.plain (by simpa [Kind.children] using access) _ rfl rfl)
  · have method := before.next.append readName.gathers
    exact .plain (by simpa [Kind.children] using method) _ rfl rfl

theorem FunctionStatement.gathers (read : FunctionStatement Watched c t c') :
    GathersStatement c t c' := by
  obtain ⟨readFirst, readName, readBody⟩ := read
  have name := readName.2 c ((Collects.advance c).append readFirst.gathers)
  have read := name.append readBody.gathers
  exact ⟨_, rfl, rfl, by simpa [Kind.children] using read⟩

theorem ReturnStatement.gathers (read : ReturnStatement Watched c t c') :
    GathersStatement c t c' := by
  rcases read with stop | ⟨start, readValues⟩
  · exact ⟨_, rfl, rfl, .advance c⟩
  · exact ⟨_, rfl, rfl, (Collects.advance c).append readValues.2⟩

theorem DoStatement.gathers (read : DoStatement Watched c t c') : GathersStatement c t c' := by
  obtain ⟨readBody, close⟩ := read
  have read := ((Collects.advance c).append readBody.2).next
  exact ⟨_, rfl, rfl, by simpa [Kind.children] using read⟩

theorem ElseIfs.gathers (read : ElseIfs Watched c ts c') :
    Collects c (ts.flatMap Tree.nodes) c' := by
  rcases read with stop | ⟨start, readCondition, thenKw, readBody, readMore⟩
  · exact .refl c
  · have clause := ((Collects.advance c).append readCondition.2).next.append readBody.2
    refine Collects.append (.plain ?_ _ rfl rfl) readMore.2
    simpa [Kind.children] using clause

theorem ElseClause.gathers {branch : Option SourceTree} (read : ElseClause Watched c branch c') :
    Collects c (branch.toList.flatMap Tree.nodes) c' := by
  rcases read with stop | ⟨start, readBody⟩
  · exact .refl c
  · have clause := (Collects.advance c).append readBody.2
    rw [Option.toList_some, List.flatMap_singleton]
    exact .plain (by simpa [Kind.children] using clause) _ rfl rfl

theorem IfStatement.gathers (read : IfStatement Watched c t c') : GathersStatement c t c' := by
  obtain ⟨readCondition, thenKw, readBody, readClauses, readBranch, close⟩ := read
  have first := ((Collects.advance c).append readCondition.2).next.append readBody.2
  have read := ((first.append readClauses.2).append readBranch.gathers).next
  exact ⟨_, rfl, rfl, by simpa [Kind.children] using read⟩

theorem WhileStatement.gathers (read : WhileStatement Watched c t c') :
    GathersStatement c t c' := by
  obtain ⟨readCondition, doKw, readBody, close⟩ := read
  have read := (((Collects.advance c).append readCondition.2).next.append readBody.2).next
  exact ⟨_, rfl, rfl, by simpa [Kind.children] using read⟩

theorem RepeatStatement.gathers (read : RepeatStatement Watched c t c') :
    GathersStatement c t c' := by
  obtain ⟨readBody, untilKw, readCondition⟩ := read
  have read := ((Collects.advance c).append readBody.2).next.append readCondition.2
  exact ⟨_, rfl, rfl, by simpa [Kind.children] using read⟩

theorem ForBody.gathers (read : ForBody Watched c t c') : Collects c t.nodes c' := by
  obtain ⟨doKw, readBody, close⟩ := read
  exact ((Collects.advance c).append readBody.2).next

theorem ForStep.gathers {step : Option SourceTree} (read : ForStep Watched c step c') :
    Collects c (step.toList.flatMap Tree.nodes) c' := by
  rcases read with stop | ⟨comma, readStep⟩
  · exact .refl c
  · have step := (Collects.advance c).append readStep.2
    simpa using step

theorem ForStatement.gathers (read : ForStatement Watched c t c') : GathersStatement c t c' := by
  rcases read with ⟨assign, readCounter, readStart, comma, readLimit, readStep, readBody⟩ |
    ⟨noAssign, readName, readMore, inKw, readIterators, readBody⟩
  · have start := ((Collects.advance c).append readCounter.gathers).next.append readStart.2
    have range := (start.next.append readLimit.2).append readStep.gathers
    have read := range.append readBody.gathers
    exact ⟨_, rfl, rfl, by simpa [Kind.children] using read⟩
  · have names := ((Collects.advance c).append readName.gathers).append readMore.2
    have read := (names.next.append readIterators.2).append readBody.gathers
    exact ⟨_, rfl, rfl, by simpa [Kind.children] using read⟩

theorem ExpressionStatement.gathers (read : ExpressionStatement Watched c t c') :
    GathersStatement c t c' := by
  rcases read with ⟨readFirst, readMore, assign, assignable, readValues⟩ |
    ⟨readTarget, readMore, noAssign, sign, assignable, readValue⟩ |
    ⟨readExpression, readMore, noAssign, noSign, call⟩
  · have read := (readFirst.gathers.append readMore.2).next.append readValues.2
    exact ⟨_, rfl, rfl, by simpa [Kind.children] using read⟩
  · have read := (readTarget.gathers.append readMore.2).next.append readValue.2
    exact ⟨_, rfl, rfl, by simpa [Kind.children] using read⟩
  · have read := readExpression.gathers.append readMore.2
    exact ⟨_, rfl, rfl, by simpa [Kind.children] using read⟩

/-- A statement of one word. -/
theorem gathersStatement_leaf {kind : Kind SourceTree} (ends : c.EndsFile)
    (more : c.current.kind ≠ .eof) (isStatement : kind.isStatement = true)
    (childless : kind.children = []) : GathersStatement c (c.leaf kind) c.advance := by
  have last : c.advance.last = c.current.span := by
    obtain ⟨rest, stop, last, comments⟩ := c
    cases rest with
    | nil => exact absurd ends more
    | cons token rest => rfl
  refine ⟨kind, isStatement, ?_, ?_⟩
  · rw [close, last]
    rfl
  · rw [childless]
    exact .advance c

theorem Statement.gathers (ends : c.EndsFile) (read : Statement Watched c t c') :
    GathersStatement c t c' := by
  cases read with
  | localStatement start read => exact read.gathers
  | function start read => exact read.gathers
  | returning start read => exact read.gathers
  | breaking start => exact gathersStatement_leaf ends (by simp [start]) rfl rfl
  | continuing start => exact gathersStatement_leaf ends (by simp [start]) rfl rfl
  | doBlock start read => exact read.gathers
  | ifChain start read => exact read.gathers
  | whileLoop start read => exact read.gathers
  | repeatLoop start read => exact read.gathers
  | forLoop start read => exact read.gathers
  | expression start read => exact read.gathers

theorem blockSpan_singleton (place : Span) (t : SourceTree) : blockSpan place [t] = t.span :=
  rfl

theorem blockSpan_cons {ts : List SourceTree} (some : ts ≠ []) (place other : Span)
    (t : SourceTree) : blockSpan place (t :: ts) = t.span.through (blockSpan other ts) := by
  obtain ⟨u, us, rfl⟩ := List.exists_cons_of_ne_nil some
  rw [blockSpan, blockSpan, List.getLast?_cons_cons, List.getLast?_eq_some_getLast some]
  rfl

theorem Statements.gathers (ends : c.EndsFile) (read : Statements Watched c ts c') :
    Gathered _ .statements c ts c' := by
  rcases read with stop | ⟨start, readStatement, terminal, readMore⟩
  · exact ⟨.refl c, stop, .inl ⟨rfl, rfl⟩⟩
  · obtain ⟨kind, isStatement, rfl, collects⟩ := readStatement.2
    have shortens := readStatement.1.shortens (c := c.afterLeading) ends
    obtain ⟨statement, placed⟩ := collects.statement ends isStatement shortens
    obtain ⟨more, stop, place⟩ := readMore.2
    refine ⟨statement.append more, stop, .inr ⟨by simp, ?_⟩⟩
    obtain ⟨rfl, rfl⟩ | ⟨some, later⟩ := place
    · rw [blockSpan_singleton]
      exact placed
    · rw [blockSpan_cons some]
      exact placed.append later

theorem Block.gathers (read : Block Watched c t c') : Collects c t.nodes c' := by
  obtain ⟨readAll⟩ := read
  obtain ⟨all, stop, place⟩ := readAll.2
  refine all.block stop ?_
  obtain ⟨rfl, rfl⟩ | ⟨-, placed⟩ := place
  · exact .inl ⟨rfl, rfl⟩
  · exact .inr placed

end Statements

/-- Every rule collects the nodes of what it yields. -/
theorem derives_gathered {α : Type} {rule : Rule α} {c c' : Cursor} {a : α} (ends : c.EndsFile)
    (read : Derives α rule c a c') : Gathered α rule c a c' := by
  refine Derives.induct ?_ ends read
  intro α rule c c' a ends step
  change Step Watched α rule c a c' at step
  cases rule with
  | block => exact Block.gathers step
  | statements => exact Statements.gathers ends step
  | statement => exact Statement.gathers ends step
  | elseIfs => exact ElseIfs.gathers step
  | moreTargets => exact MoreTargets.gathers step
  | moreNames cause => exact MoreNames.gathers step
  | dottedName head => exact fun c₀ before => DottedName.gathers before step
  | expressions => exact Expressions.gathers step
  | moreExpressions => exact MoreExpressions.gathers step
  | expression level => exact Ladder.gathers step
  | operators level left => exact fun c₀ before => Operators.gathers before step
  | suffixes head => exact fun c₀ before => Suffixes.gathers before step
  | fields => exact Fields.gathers step
  | parameters => exact Parameters.gathers step

end Grammar

namespace Cursor

/-- A cursor before the tokens and comments of a source text. -/
structure Opens (source : String) (c : Cursor) : Prop where
  tokens : c.tokens = tokenize source
  comments : c.comments = (Scan.ofSource source).comments
  ends : c.EndsFile
  /-- The text ends only once. -/
  noEnd : ∀ token ∈ c.rest, token.kind ≠ .eof
  ordered : InOrder c.comments
  before : ∀ x ∈ c.comments, x.span.endOffset ≤ c.stop.span.startOffset

theorem inOrder_facing (last : Span) (place : Place) (pieces : List Piece) :
    InOrder (facing last place pieces).comments := by
  induction pieces generalizing place with
  | nil => exact .nil
  | cons piece pieces ih =>
    have later := ih (place.after piece.chars)
    have behind (some : piece.chars ≠ []) (x : Comment)
        (member : x ∈ (facing last (place.after piece.chars) pieces).comments) :
        place.offset < (place.after piece.chars).offset ∧
          (place.after piece.chars).offset ≤ x.span.startOffset :=
      ⟨place.offset_lt_after some, (comments_facing member).1⟩
    cases piece with
    | blank | token => exact later
    | lineComment | blockComment =>
      exact List.pairwise_cons.mpr ⟨behind (by simp [Piece.chars]), later⟩

theorem startOffset_stop_facing (last : Span) (place : Place) (pieces : List Piece) :
    (facing last place pieces).stop.span.startOffset =
      (place.after (Piece.textOf pieces)).offset := by
  induction pieces generalizing place with
  | nil => rfl
  | cons piece pieces ih =>
    rw [Piece.textOf_cons, Place.after_append, ← ih]
    cases piece <;> rfl

theorem opens_ofTokens (source : String) :
    Opens source
      (.ofTokens (Scan.ofSource source).tokens (Scan.ofSource source).comments) := by
  obtain ⟨last, start⟩ := exists_facing_cut source
  have scan : Scan.ofSource source = _ := ofPieces_eq last .start (Piece.cut source.toList)
  rw [start]
  constructor
  · rw [tokenize, scan]
    rfl
  · rw [scan]
  · exact facing_endsFile _ _ _
  · intro token member eof
    have piece := mem_of_mem_rest member
    exact Piece.eof_not_mem_cut _ _ (eof ▸ piece)
  · exact inOrder_facing _ _ _
  · intro x member
    rw [startOffset_stop_facing]
    exact (comments_facing member).2.2.1

end Cursor

open Grammar Cursor

/-- The token that ends the program is behind all comments, so none is left there. -/
theorem comments_eq_nil {source : String} {c c' : Cursor} {body : SourceTree}
    (opens : Opens source c) (read : Derives _ .block c body c')
    (stop : c'.current.kind = .eof) : c'.comments = [] := by
  obtain @⟨statements, c₁, readAll⟩ := (derives_iff opens.ends).mp read
  have collects := (derives_gathered opens.ends readAll).1
  obtain ⟨own, consumes⟩ := collects.consumes
  have front : c₁.current = c.stop := by
    cases rest : c₁.rest with
    | nil => rw [current, rest, ← consumes.stop, List.headD_nil]
    | cons token later =>
      have member : token ∈ c.rest := by simp [consumes.rest, rest]
      change c₁.current.kind = .eof at stop
      rw [current, rest, List.headD_cons] at stop
      exact absurd stop (opens.noEnd token member)
  refine List.dropWhile_eq_nil_iff.mpr ?_
  intro x pending
  rw [isBefore, decide_eq_true_iff, front]
  exact opens.before x (collects.pending.subset pending)

/-- All comments of a program are on nodes of its tree, where they should be. -/
theorem attached_of_parse {source : String} {t : SourceTree} (parsed : parse source = .ok t) :
    (attachedComments t.nodes).Perm (Scan.ofSource source).comments ∧
      ∀ node ∈ t.nodes, Attached (tokenize source) node.2 node.1 := by
  obtain ⟨c', readChunk⟩ := parseTokens_ok_iff.mp parsed
  have opens := opens_ofTokens source
  generalize Cursor.ofTokens _ _ = c at opens readChunk
  rw [← opens.tokens, ← opens.comments]
  obtain @⟨body, _, readBody, stop⟩ := readChunk
  have block : Collects c body.nodes c' := derives_gathered opens.ends readBody
  have none := comments_eq_nil opens readBody stop
  have chunk : Collects c (Tree.nodes (.node _ (.chunk body))) c' :=
    .plain (by simpa [Kind.children] using block) (c.current.span.through c'.current.span) rfl rfl
  have whole := chunk.comments
  rw [none, List.append_nil] at whole
  exact ⟨whole, chunk.attached opens.ordered⟩

namespace Arena

/-- The nodes of the tree below a handle are those in the arena. -/
theorem Sound.nodes_tree {a : Arena} (sound : a.Sound) (id : NodeId) :
    (a.tree id).nodes =
      (a.preorder id).map fun x => (a.origin x, (a.kind x).map fun _ => ()) := by
  obtain ⟨n⟩ := id
  induction n using Nat.strongRecOn with
  | ind n ih =>
    rw [sound.tree_eq, sound.preorder_eq, Tree.nodes_node, Kind.children_map, Kind.map_map,
      List.map_cons, List.flatMap_map, List.map_flatMap]
    refine congrArg (List.cons _) (List.flatMap_congr ?_)
    intro child member
    exact ih child.index (sound.older ⟨n⟩ child member)

/-- Parsing loses no comment and attaches none twice, and each is where it should be. -/
theorem parse_keeps_comments {source : String} {t : SourceTree} (parsed : parse source = .ok t) :
    ∃ r, (ofTree t).root = some r ∧
      (((ofTree t).preorder r).flatMap fun id =>
        ((ofTree t).origin id).leading ++ ((ofTree t).origin id).trailing).Perm
          (Scan.ofSource source).comments ∧
      ∀ id ∈ (ofTree t).preorder r,
        Attached (tokenize source) ((ofTree t).kind id) ((ofTree t).origin id) := by
  obtain ⟨whole, attached⟩ := attached_of_parse parsed
  rw [← tree_ofTree t, (sound_ofTree t).nodes_tree] at whole attached
  refine ⟨top t, root_ofTree t, ?_, ?_⟩
  · rwa [attachedComments, List.flatMap_map] at whole
  · intro id member
    have here := attached _ (List.mem_map_of_mem member)
    exact here.of_map

/-- Comments before statements, inside one, behind one and before the end of a block. -/
theorem parse_keeps_comments_nested :
    ∃ t r, parse "-- a\nf( --[[b]] 1); -- c\ndo -- d\nend --[[e]] --f\n-- g" = .ok t ∧
      (ofTree t).root = some r ∧
      (((ofTree t).preorder r).flatMap fun id =>
        ((ofTree t).origin id).leading ++ ((ofTree t).origin id).trailing).Perm
          (Scan.ofSource
            "-- a\nf( --[[b]] 1); -- c\ndo -- d\nend --[[e]] --f\n-- g").comments ∧
      (∀ id ∈ (ofTree t).preorder r,
        Attached (tokenize "-- a\nf( --[[b]] 1); -- c\ndo -- d\nend --[[e]] --f\n-- g")
          ((ofTree t).kind id) ((ofTree t).origin id)) ∧
      (Scan.ofSource
        "-- a\nf( --[[b]] 1); -- c\ndo -- d\nend --[[e]] --f\n-- g").comments.map Comment.text =
        [" a", "b", " c", " d", "e", "f", " g"] := by
  obtain ⟨t, parsed⟩ : ∃ t, parse "-- a\nf( --[[b]] 1); -- c\ndo -- d\nend --[[e]] --f\n-- g" =
      .ok t := exists_parse (by decide +kernel)
  obtain ⟨r, root, whole, attached⟩ := parse_keeps_comments parsed
  exact ⟨t, r, parsed, root, whole, attached, by decide +kernel⟩

end Arena

end LuaTree
