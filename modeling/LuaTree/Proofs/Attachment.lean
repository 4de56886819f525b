import LuaTree.Proofs.Scanned
import Mathlib.Data.List.Perm.Basic
import Mathlib.Data.List.TakeWhile

/-!
# Where comments are attached

`Attached` says where the comments on a node stand among the tokens of the
program. `Collects` follows a cursor: from one place to the next some nodes were
read, each comment on them stood where it should, and no pending comment got
lost. It holds of reading nothing, of reading a token, and of what is put
together from such parts (`Collects.append`, `Collects.plain`); a statement
takes the comments before it and behind it (`Collects.statement`), a block those
before its end (`Collects.block`).
-/

namespace LuaTree

namespace Kind

variable {α β : Type}

def isBlock : Kind α → Bool
  | block .. => true
  | _ => false

@[simp] theorem isBlock_map (f : α → β) (k : Kind α) : (k.map f).isBlock = k.isBlock := by
  cases k <;> rfl

@[simp] theorem isStatement_map (f : α → β) (k : Kind α) :
    (k.map f).isStatement = k.isStatement := by
  cases k <;> rfl

/-- Blocks are no statements. -/
theorem isStatement_of_isBlock {k : Kind α} (block : k.isBlock = true) : k.isStatement = false := by
  cases k with
  | block statements => rfl
  | _ => simp [isBlock] at block

end Kind

namespace Tree

variable {ι : Type}

/-- The nodes with their kinds, each before its children. -/
def nodes : Tree ι → List (ι × Kind Unit) :=
  fold fun m k => (m, k.map fun _ => ()) :: k.children.flatten

theorem nodes_node (m : ι) (k : Kind (Tree ι)) :
    nodes (.node m k) = (m, k.map fun _ => ()) :: k.children.flatMap nodes := by
  rw [nodes, fold_node, Kind.children_map, Kind.map_map, List.flatMap_def]

end Tree

/-- The comments on some nodes. -/
def attachedComments (nodes : List (Origin × Kind Unit)) : List Comment :=
  nodes.flatMap fun node => node.1.leading ++ node.1.trailing

/-- A comment that is not empty ends before another one begins. -/
def Comment.Precedes (x y : Comment) : Prop :=
  x.span.startOffset < x.span.endOffset ∧ x.span.endOffset ≤ y.span.startOffset

/-- The comments are in source order. -/
def InOrder (comments : List Comment) : Prop :=
  comments.Pairwise Comment.Precedes

/-- The tokens reach from one end of a span to the other. -/
def Spans (tokens : List Token) (span : Span) : Prop :=
  ∃ first last, tokens.head? = some first ∧ tokens.getLast? = some last ∧
    span = first.span.through last.span

/-- A semicolon, or nothing if the next token is none. -/
def Closing (semicolon : List Token) (next : Token) : Prop :=
  semicolon = [] ∧ next.kind ≠ .semicolon ∨ ∃ token, semicolon = [token] ∧ token.kind = .semicolon

/-- A statement with its tokens, the semicolon behind them if there is one, and the next token. -/
structure StatementComments (own semicolon : List Token) (next : Token) (m : Origin) : Prop where
  closing : Closing semicolon next
  spans : Spans own m.span
  leading : ∀ first ∈ own.head?, ∀ x ∈ m.leading, x.span.endOffset ≤ first.span.startOffset
  trailing : ∀ last ∈ (own ++ semicolon).getLast?, ∀ x ∈ m.trailing,
    last.span.endOffset ≤ x.span.startOffset ∧ x.span.start.line = last.span.stop.line ∧
      x.span.endOffset ≤ next.span.startOffset

/-- A block with its tokens, a semicolon behind its last statement, and the token that ends it. An
empty block stands where that token starts. -/
structure BlockComments (own semicolon : List Token) (stop : Token) (m : Origin) : Prop where
  closing : Closing semicolon stop
  spans : Spans own m.span ∨ own = [] ∧ semicolon = [] ∧ m.span = stop.span.atStart
  ends : stop.kind.endsBlock = true
  trailing : ∀ x ∈ m.trailing, x.span.endOffset ≤ stop.span.startOffset

/-- The comments on a node of a kind stand where they should among the tokens of the program. -/
structure Attached {α : Type} (tokens : List Token) (kind : Kind α) (m : Origin) : Prop where
  leadingOnly : kind.isStatement = false → m.leading = []
  trailingOnly : kind.isStatement = false → kind.isBlock = false → m.trailing = []
  leading : InOrder m.leading
  trailing : InOrder m.trailing
  statement : kind.isStatement = true → ∃ own semicolon next,
    own ++ semicolon ++ [next] <:+: tokens ∧ StatementComments own semicolon next m
  block : kind.isBlock = true → ∃ own semicolon stop,
    own ++ semicolon ++ [stop] <:+: tokens ∧ BlockComments own semicolon stop m

theorem Attached.of_infix {tokens more : List Token} {kind : Kind Unit} {m : Origin}
    (attached : Attached tokens kind m) (among : tokens <:+: more) : Attached more kind m := by
  refine ⟨attached.leadingOnly, attached.trailingOnly, attached.leading, attached.trailing, ?_, ?_⟩
  · intro isStatement
    obtain ⟨own, semicolon, next, part, comments⟩ := attached.statement isStatement
    exact ⟨own, semicolon, next, part.trans among, comments⟩
  · intro isBlock
    obtain ⟨own, semicolon, stop, part, comments⟩ := attached.block isBlock
    exact ⟨own, semicolon, stop, part.trans among, comments⟩

/-- Where comments stand does not depend on the children of a node. -/
theorem Attached.of_map {α β : Type} {f : α → β} {tokens : List Token} {kind : Kind α} {m : Origin}
    (attached : Attached tokens (kind.map f) m) : Attached tokens kind m := by
  obtain ⟨leadingOnly, trailingOnly, leading, trailing, statement, block⟩ := attached
  rw [Kind.isStatement_map] at leadingOnly trailingOnly statement
  rw [Kind.isBlock_map] at trailingOnly block
  exact ⟨leadingOnly, trailingOnly, leading, trailing, statement, block⟩

/-- A node that is neither a statement nor a block has no comments. -/
theorem attached_ofSpan (tokens : List Token) {kind : Kind Unit} (span : Span)
    (noStatement : kind.isStatement = false) (noBlock : kind.isBlock = false) :
    Attached tokens kind (.ofSpan span) :=
  ⟨fun _ => rfl, fun _ _ => rfl, .nil, .nil, by simp [noStatement], by simp [noBlock]⟩

namespace Cursor

/-- The tokens in front, with the end of the file. -/
def tokens (c : Cursor) : List Token :=
  c.rest ++ [c.stop]

theorem exists_tokens_eq (c : Cursor) : ∃ later, c.tokens = c.current :: later := by
  obtain ⟨rest, stop, last, comments⟩ := c
  cases rest with
  | nil => exact ⟨[], rfl⟩
  | cons token rest => exact ⟨rest ++ [stop], rfl⟩

/-- From `c` to `c'` the given tokens were read. -/
structure Consumes (c : Cursor) (own : List Token) (c' : Cursor) : Prop where
  rest : c.rest = own ++ c'.rest
  stop : c'.stop = c.stop
  last : c'.last = (own.getLast?.map Token.span).getD c.last

theorem Consumes.append {c c₁ c₂ : Cursor} {first second : List Token} (left : Consumes c first c₁)
    (right : Consumes c₁ second c₂) : Consumes c (first ++ second) c₂ := by
  refine ⟨?_, right.stop.trans left.stop, ?_⟩
  · rw [left.rest, right.rest, List.append_assoc]
  · rw [right.last, left.last, List.getLast?_append]
    cases second.getLast? <;> rfl

theorem exists_consumes_advance (c : Cursor) : ∃ own, Consumes c own c.advance := by
  obtain ⟨rest, stop, last, comments⟩ := c
  cases rest with
  | nil => exact ⟨[], rfl, rfl, rfl⟩
  | cons token rest => exact ⟨[token], rfl, rfl, rfl⟩

theorem Consumes.tokens {c c' : Cursor} {own : List Token} (consumes : Consumes c own c') :
    c.tokens = own ++ c'.tokens := by
  rw [Cursor.tokens, Cursor.tokens, consumes.rest, consumes.stop, List.append_assoc]

/-- From `c` to `c'` the given nodes were read. Comments that were pending are on them or still
pending, and those on them are where they should be. -/
structure Collects (c : Cursor) (nodes : List (Origin × Kind Unit)) (c' : Cursor) : Prop where
  consumes : ∃ own, Consumes c own c'
  comments : (attachedComments nodes ++ c'.comments).Perm c.comments
  pending : c'.comments.Sublist c.comments
  attached : InOrder c.comments → ∀ node ∈ nodes, Attached c.tokens node.2 node.1

namespace Collects

variable {c c₁ c₂ : Cursor} {first second : List (Origin × Kind Unit)}

theorem refl (c : Cursor) : Collects c [] c :=
  ⟨⟨[], rfl, rfl, rfl⟩, .refl _, .refl _, by simp⟩

theorem advance (c : Cursor) : Collects c [] c.advance := by
  have comments : c.advance.comments = c.comments := by
    unfold Cursor.advance
    split <;> rfl
  exact ⟨c.exists_consumes_advance, comments ▸ .refl _, comments ▸ .refl _, by simp⟩

theorem skip (c : Cursor) (kind : TokenKind) : Collects c [] (c.skip kind) := by
  unfold Cursor.skip
  split
  · exact advance c
  · exact refl c

theorem append (left : Collects c first c₁) (right : Collects c₁ second c₂) :
    Collects c (first ++ second) c₂ := by
  obtain ⟨own, consumes⟩ := left.consumes
  obtain ⟨own', consumes'⟩ := right.consumes
  refine ⟨⟨own ++ own', consumes.append consumes'⟩, ?_, right.pending.trans left.pending, ?_⟩
  · have later := right.comments.append_left (attachedComments first)
    rw [attachedComments, List.flatMap_append, List.append_assoc]
    exact later.trans left.comments
  · intro ordered node member
    obtain member | member := List.mem_append.mp member
    · exact left.attached ordered node member
    · have attached := right.attached (ordered.sublist left.pending) node member
      rw [consumes.tokens]
      exact attached.of_infix (List.suffix_append _ _).isInfix

/-- One more token. -/
theorem next (collects : Collects c first c₁) : Collects c first c₁.advance := by
  have step := collects.append (advance c₁)
  rwa [List.append_nil] at step

/-- One more node over what was read. -/
theorem plain {kind : Kind SourceTree} (collects : Collects c (kind.children.flatMap Tree.nodes) c₁)
    (span : Span) (noStatement : kind.isStatement = false) (noBlock : kind.isBlock = false) :
    Collects c (Tree.nodes (.node (.ofSpan span) kind)) c₁ := by
  rw [Tree.nodes_node]
  refine ⟨collects.consumes, collects.comments, collects.pending, fun ordered => ?_⟩
  refine List.forall_mem_cons.mpr ⟨?_, collects.attached ordered⟩
  exact attached_ofSpan _ _ (by rwa [Kind.isStatement_map]) (by rwa [Kind.isBlock_map])

end Collects

section Statement

variable {c c₁ c₂ : Cursor}

/-- Taking comments reads no token. -/
theorem Consumes.comments {own : List Token} {pending left : List Comment}
    (consumes : Consumes { c with comments := pending } own c₁) :
    Consumes c own { c₁ with comments := left } :=
  ⟨consumes.rest, consumes.stop, consumes.last⟩

/-- The tokens that were read reach from the one in front to the one just read. -/
theorem Consumes.spans {own : List Token} (consumes : Consumes c own c₁) (some : own ≠ []) :
    Spans own (c.current.span.through c₁.last) := by
  obtain ⟨first, rest, rfl⟩ := List.exists_cons_of_ne_nil some
  have front : c.current = first := by
    rw [current, consumes.rest]
    rfl
  have back := List.getLast?_eq_some_getLast some
  refine ⟨first, _, rfl, back, ?_⟩
  rw [consumes.last, front, back]
  rfl

theorem Consumes.ne_nil {own : List Token} {n : Nat} (consumes : Consumes c own c₁)
    (shortens : Shortens (n + 1) c c₁) : own ≠ [] := by
  rintro rfl
  have same := congrArg List.length consumes.rest
  have fewer := shortens.length
  simp only [List.nil_append] at same
  omega

theorem consumes_skip (ends : c.EndsFile) : ∃ semicolon,
    Consumes c semicolon (c.skip .semicolon) ∧ Closing semicolon (c.skip .semicolon).current := by
  by_cases front : c.current.kind = .semicolon
  · rw [skip, if_pos front]
    obtain ⟨rest, stop, last, comments⟩ := c
    cases rest with
    | nil => exact absurd (front.symm.trans ends) (by decide)
    | cons token rest => exact ⟨[token], ⟨rfl, rfl, rfl⟩, .inr ⟨token, rfl, front⟩⟩
  · rw [skip, if_neg front]
    exact ⟨[], ⟨rfl, rfl, rfl⟩, .inl ⟨rfl, front⟩⟩

/-- From `c` to `c'` stand tokens with the given span, and the semicolon behind them if there is
one. -/
def Placed (c c' : Cursor) (span : Span) : Prop :=
  ∃ own semicolon, Consumes c (own ++ semicolon) c' ∧ Closing semicolon c'.current ∧ Spans own span

theorem Placed.append {first second : Span} (left : Placed c c₁ first)
    (right : Placed c₁ c₂ second) : Placed c c₂ (first.through second) := by
  obtain ⟨own, semicolon, consumes, -, head, -, isHead, -, rfl⟩ := left
  obtain ⟨own', semicolon', consumes', closing, -, last, -, isLast, rfl⟩ := right
  refine ⟨own ++ semicolon ++ own', semicolon', ?_, closing, head, last, ?_, ?_, rfl⟩
  · rw [List.append_assoc]
    exact consumes.append consumes'
  · rw [List.append_assoc, List.head?_append, isHead]
    rfl
  · rw [List.getLast?_append, isLast]
    rfl

/-- The tokens of a statement or a block, with the one behind them, are among those in front. -/
theorem Consumes.isInfix {own : List Token} (consumes : Consumes c own c₁) :
    own ++ [c₁.current] <:+: c.tokens := by
  obtain ⟨later, tokens⟩ := c₁.exists_tokens_eq
  rw [consumes.tokens, tokens]
  exact List.IsPrefix.isInfix ⟨later, List.append_assoc _ _ _⟩

theorem leading_append (c : Cursor) : c.leading ++ c.afterLeading.comments = c.comments :=
  List.takeWhile_append_dropWhile

theorem trailing_append_perm (c : Cursor) :
    (c.trailing ++ c.afterTrailing.comments).Perm c.comments := by
  have whole : c.comments.takeWhile c.isInside ++ (c.trailing ++
      (c.comments.dropWhile c.isInside).dropWhile c.trails) = c.comments := by
    rw [trailing, List.takeWhile_append_dropWhile, List.takeWhile_append_dropWhile]
  have moved := List.perm_append_comm_assoc c.trailing (c.comments.takeWhile c.isInside)
    ((c.comments.dropWhile c.isInside).dropWhile c.trails)
  rwa [whole] at moved

theorem afterTrailing_sublist (c : Cursor) : c.afterTrailing.comments.Sublist c.comments := by
  have whole := List.takeWhile_append_dropWhile (p := c.isInside) (l := c.comments)
  have fewer := (c.comments.dropWhile c.isInside).dropWhile_sublist c.trails
  exact whole ▸ fewer.append_left (c.comments.takeWhile c.isInside)

theorem isBefore_of_mem_leading {comment : Comment} (member : comment ∈ c.leading) :
    comment.span.endOffset ≤ c.current.span.startOffset := by
  have before := List.mem_takeWhile_imp member
  exact of_decide_eq_true before

/-- In order, all comments behind the first one that is not inside are not inside. -/
theorem last_le_of_mem_trailing (ordered : InOrder c.comments) {comment : Comment}
    (member : comment ∈ c.trailing) : c.last.endOffset ≤ comment.span.startOffset := by
  have behind := (List.takeWhile_sublist _).subset member
  have ordered := ordered.sublist (List.dropWhile_sublist c.isInside)
  have outside := List.head?_dropWhile_not c.isInside c.comments
  cases found : c.comments.dropWhile c.isInside with
  | nil => simp [found] at behind
  | cons first more =>
    rw [found] at behind ordered outside
    have start : c.last.endOffset ≤ first.span.startOffset := by
      simpa [isInside] using outside
    obtain rfl | later := List.mem_cons.mp behind
    · exact start
    · have precedes := (List.pairwise_cons.mp ordered).1 comment later
      have := precedes.1
      have := precedes.2
      omega

/-- The comments that a statement gets stand where they should. -/
theorem attached_statement {kind : Kind Unit} {own semicolon : List Token} {span : Span}
    (isStatement : kind.isStatement = true) (consumes : Consumes c (own ++ semicolon) c₂)
    (closing : Closing semicolon c₂.current) (spans : Spans own span)
    (pending : c₂.comments.Sublist c.comments) (ordered : InOrder c.comments) :
    Attached c.tokens kind ⟨span, c.leading, c₂.trailing⟩ := by
  have noBlock : kind.isBlock = false := by
    rw [Bool.eq_false_iff]
    intro block
    simp [Kind.isStatement_of_isBlock block] at isStatement
  have laterOrdered : InOrder c₂.comments := ordered.sublist pending
  refine ⟨by simp [isStatement], by simp [isStatement], ordered.sublist (List.takeWhile_sublist _),
    laterOrdered.sublist c₂.trailing_sublist, ?_, by simp [noBlock]⟩
  intro _
  refine ⟨own, semicolon, c₂.current, consumes.isInfix, closing, spans, ?_, ?_⟩
  · intro first isFirst x member
    have front : c.current = first := by
      rw [current, consumes.rest, List.append_assoc, List.headD_eq_head?_getD,
        List.head?_append, isFirst]
      rfl
    rw [← front]
    exact isBefore_of_mem_leading member
  · intro last isLast x member
    have back : c₂.last = last.span := by
      rw [consumes.last, isLast]
      rfl
    have behind := last_le_of_mem_trailing laterOrdered member
    have trails := List.mem_takeWhile_imp member
    rw [Cursor.trails, Bool.and_eq_true, beq_iff_eq, isBefore, decide_eq_true_iff] at trails
    rw [back] at behind trails
    exact ⟨behind, trails⟩

/-- A statement takes the comments before it and behind it. -/
theorem Collects.statement {kind : Kind SourceTree} (ends : c.EndsFile)
    (isStatement : kind.isStatement = true)
    (collects : Collects c.afterLeading (kind.children.flatMap Tree.nodes) c₁)
    (shortens : Shortens 1 c.afterLeading c₁) :
    Collects c
        (Tree.nodes ((c₁.close c.current.span kind).withComments c.leading
          (c₁.skip .semicolon).trailing))
        (c₁.skip .semicolon).afterTrailing ∧
      Placed c (c₁.skip .semicolon).afterTrailing (c.current.span.through c₁.last) := by
  obtain ⟨own, consumes⟩ := collects.consumes
  have spans : Spans own (c.current.span.through c₁.last) :=
    consumes.spans (consumes.ne_nil shortens)
  obtain ⟨semicolon, skipped, closing⟩ := consumes_skip (shortens.endsFile ends)
  have read := consumes.append skipped
  have ended := collects.append (Collects.skip c₁ .semicolon)
  rw [List.append_nil] at ended
  generalize c₁.skip .semicolon = c₂ at *
  have fewer := ended.pending.trans (List.dropWhile_sublist c.isBefore)
  refine ⟨⟨⟨_, read.comments⟩, ?_, c₂.afterTrailing_sublist.trans fewer, ?_⟩, own, semicolon,
    read.comments, closing, spans⟩
  · -- all but the leading comments were pending when the statement was read
    have later := c₂.trailing_append_perm.append_left
      (attachedComments (kind.children.flatMap Tree.nodes))
    have moved := (List.perm_append_comm_assoc _ _ _).trans (later.trans ended.comments)
    have whole := moved.append_left c.leading
    rw [leading_append] at whole
    simpa [close, Tree.withComments, Origin.withComments, Tree.nodes_node, attachedComments,
      Origin.ofSpan] using whole
  · intro ordered
    rw [close, Tree.withComments, Tree.nodes_node]
    refine List.forall_mem_cons.mpr ⟨?_, ?_⟩
    · exact attached_statement (by rwa [Kind.isStatement_map]) read.comments closing spans fewer
        ordered
    · exact collects.attached (ordered.sublist (List.dropWhile_sublist _))

/-- The comments that a block gets stand where they should. -/
theorem attached_block {kind : Kind Unit} {span : Span} (isBlock : kind.isBlock = true)
    (ends : c₁.current.kind.endsBlock = true)
    (place : c₁ = c ∧ span = c.current.span.atStart ∨ Placed c c₁ span)
    (ordered : InOrder c₁.comments) : Attached c.tokens kind ⟨span, [], c₁.leading⟩ := by
  have noStatement := Kind.isStatement_of_isBlock isBlock
  have before (x : Comment) (member : x ∈ c₁.leading) := isBefore_of_mem_leading member
  refine ⟨fun _ => rfl, by simp [isBlock], .nil, ordered.sublist (List.takeWhile_sublist _),
    by simp [noStatement], ?_⟩
  intro _
  obtain ⟨rfl, rfl⟩ | ⟨own, semicolon, consumes, closing, spans⟩ := place
  · have none : Closing [] c₁.current := by
      refine .inl ⟨rfl, ?_⟩
      intro semicolon
      rw [semicolon] at ends
      exact absurd ends (by decide)
    have here : Consumes c₁ [] c₁ := ⟨rfl, rfl, rfl⟩
    exact ⟨[], [], c₁.current, here.isInfix, none, .inr ⟨rfl, rfl, rfl⟩, ends, before⟩
  · exact ⟨own, semicolon, c₁.current, consumes.isInfix, closing, .inl spans, ends, before⟩

/-- A block takes the comments that are left before its end. -/
theorem Collects.block {ts : List SourceTree} {span : Span}
    (collects : Collects c (ts.flatMap Tree.nodes) c₁) (ends : c₁.current.kind.endsBlock = true)
    (place : c₁ = c ∧ span = c.current.span.atStart ∨ Placed c c₁ span) :
    Collects c (Tree.nodes (.node ⟨span, [], c₁.leading⟩ (.block ts))) c₁.afterLeading := by
  obtain ⟨own, consumes⟩ := collects.consumes
  refine ⟨⟨own, consumes.comments⟩, ?_, (List.dropWhile_sublist _).trans collects.pending, ?_⟩
  · have whole := collects.comments
    rw [← c₁.leading_append] at whole
    have moved := (List.perm_append_comm_assoc _ _ _).trans whole
    simpa [Tree.nodes_node, Kind.children, attachedComments] using moved
  · intro ordered
    rw [Tree.nodes_node]
    refine List.forall_mem_cons.mpr ⟨?_, collects.attached ordered⟩
    exact attached_block rfl ends place (ordered.sublist collects.pending)

end Statement

end Cursor

end LuaTree
