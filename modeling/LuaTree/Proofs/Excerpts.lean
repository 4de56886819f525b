import LuaTree.Proofs.CommentFidelity
import LuaTree.Proofs.Framing
import LuaTree.Proofs.Slots

/-!
# Every node is an excerpt

Below a program, each statement and each expression was read from tokens that
stand side by side, and these tokens alone are read as the same tree
(`derives_quoted`). For what a rule reads as a whole this is `derives_framed`.
The first operands of operators and the heads of calls are not read by a rule of
their own: it is the rule of the whole chain that would have stopped behind them.

`Heads` and `Leads` say this of a tree that has been read so far: whatever a
shorter file holds behind it is added to it in the same way.
-/

namespace LuaTree

/-- Expressions that can be returned: all but the fields of tables and the names of methods. -/
def Kind.isValue {α : Type} (kind : Kind α) : Bool :=
  kind.isExpression && !kind.isField && !kind.isMethodName

@[simp] theorem Kind.isValue_map {α β : Type} (f : α → β) (kind : Kind α) :
    (kind.map f).isValue = kind.isValue := by
  cases kind <;> rfl

theorem Kind.isValue_of_isStatement {α : Type} {kind : Kind α}
    (statement : kind.isStatement = true) : kind.isValue = false := by
  cases kind <;> first | rfl | cases statement

namespace Cursor

variable {c c₁ c₂ c' : Cursor} {ts us : List SourceTree} {t : SourceTree}

theorem reaches_advance (ends : c.EndsFile) : c.Reaches c.advance := by
  obtain ⟨rest, stop, last, comments⟩ := c
  cases rest with
  | nil => exact .refl ends
  | cons token rest => exact ⟨List.suffix_cons _ _, rfl, ends⟩

theorem rest_upTo_self (c : Cursor) : (c.upTo c).rest = [] := by
  simp [clip]

theorem kind_upTo_self (c : Cursor) : (c.upTo c).current.kind = .eof := by
  rw [current, rest_upTo_self]
  rfl

/-- Some of the tokens in front, taken alone, are read by the rule as the tree, but for comments on
it. -/
def Excerpt (c : Cursor) (rule : Rule SourceTree) (t : SourceTree) : Prop :=
  ∃ own stop comments u c', own <:+: c.rest ∧ stop.kind = .eof ∧ u.kind = t.kind ∧
    u.span = t.span ∧ c'.rest = [] ∧ ∀ last, Grammar.Derives _ rule ⟨own, stop, last, comments⟩ u c'

theorem Excerpt.of_reaches {rule : Rule SourceTree} (excerpt : c₁.Excerpt rule t)
    (reach : c.Reaches c₁) : c.Excerpt rule t := by
  obtain ⟨own, stop, comments, u, c', part, more⟩ := excerpt
  exact ⟨own, stop, comments, u, c', part.trans reach.rest.isInfix, more⟩

/-- What is read up to a cursor, with nothing behind it. -/
theorem Reaches.excerpt {rule : Rule SourceTree} (reach : c.Reaches c')
    (read : ∀ last, Grammar.Derives _ rule (c.clip c' last) t (c'.upTo c')) : c.Excerpt rule t := by
  obtain ⟨own, rest, clip⟩ := reach.exists_clip
  simp only [clip] at read
  refine ⟨own, _, _, t, _, ?_, rfl, rfl, rfl, c'.rest_upTo_self, read⟩
  rw [rest]
  exact (List.prefix_append _ _).isInfix

/-- Every statement and every value of the tree is an excerpt of what is in front. -/
inductive Quotable (c : Cursor) : SourceTree → Prop where
  | node {m : Origin} {kind : Kind SourceTree}
      (statement : kind.isStatement = true → c.Excerpt .statement (.node m kind))
      (value : kind.isValue = true → c.Excerpt (.expression 1) (.node m kind))
      (below : ∀ child ∈ kind.children, Quotable c child) : Quotable c (.node m kind)

theorem Quotable.of_reaches (quotable : c₁.Quotable t) (reach : c.Reaches c₁) : c.Quotable t := by
  induction quotable with
  | node statement value below ih =>
    exact .node (fun is => (statement is).of_reaches reach)
      (fun is => (value is).of_reaches reach) ih

theorem Quotable.withComments (quotable : c.Quotable t) (leading trailing : List Comment) :
    c.Quotable (t.withComments leading trailing) := by
  obtain ⟨statement, value, below⟩ := quotable
  exact .node statement value below

/-- From `c` to `c'` the given trees were read, and they can be quoted. -/
structure Quotes (c : Cursor) (ts : List SourceTree) (c' : Cursor) : Prop where
  reach : c.Reaches c'
  quotable : ∀ t ∈ ts, c.Quotable t

namespace Quotes

theorem refl (ends : c.EndsFile) : Quotes c [] c :=
  ⟨.refl ends, by simp⟩

theorem advance (ends : c.EndsFile) : Quotes c [] c.advance :=
  ⟨reaches_advance ends, by simp⟩

theorem append (left : Quotes c ts c₁) (right : Quotes c₁ us c₂) : Quotes c (ts ++ us) c₂ := by
  refine ⟨left.reach.trans right.reach, List.forall_mem_append.mpr ⟨left.quotable, ?_⟩⟩
  intro t member
  exact (right.quotable t member).of_reaches left.reach

/-- One more token. -/
theorem next (quotes : Quotes c ts c₁) : Quotes c ts c₁.advance :=
  ⟨quotes.reach.trans (reaches_advance quotes.reach.ends), quotes.quotable⟩

theorem skip (quotes : Quotes c ts c₁) (kind : TokenKind) : Quotes c ts (c₁.skip kind) := by
  unfold Cursor.skip
  split
  · exact quotes.next
  · exact quotes

/-- Comments are not tokens. -/
theorem comments (quotes : Quotes c ts c₁) (left : List Comment) :
    Quotes c ts { c₁ with comments := left } :=
  ⟨⟨quotes.reach.rest, quotes.reach.stop, quotes.reach.ends⟩, quotes.quotable⟩

theorem withComments (quotes : Quotes c [t] c') (leading trailing : List Comment) :
    Quotes c [t.withComments leading trailing] c' := by
  have quotable := List.forall_mem_singleton.mp quotes.quotable
  exact ⟨quotes.reach, List.forall_mem_singleton.mpr (quotable.withComments leading trailing)⟩

variable {m : Origin} {kind : Kind SourceTree} (quotes : Quotes c kind.children c')

include quotes

/-- One more node that is neither a statement nor a value. -/
theorem part (m : Origin) (noStatement : kind.isStatement = false)
    (noValue : kind.isValue = false) : Quotes c [.node m kind] c' := by
  refine ⟨quotes.reach, List.forall_mem_singleton.mpr (.node ?_ ?_ quotes.quotable)⟩
  · simp [noStatement]
  · simp [noValue]

theorem value (excerpt : c.Excerpt (.expression 1) (.node m kind))
    (noStatement : kind.isStatement = false) : Quotes c [.node m kind] c' := by
  refine ⟨quotes.reach, List.forall_mem_singleton.mpr (.node ?_ ?_ quotes.quotable)⟩
  · simp [noStatement]
  · exact fun _ => excerpt

theorem statement (excerpt : c.Excerpt .statement (.node m kind))
    (isStatement : kind.isStatement = true) : Quotes c [.node m kind] c' := by
  refine ⟨quotes.reach, List.forall_mem_singleton.mpr (.node ?_ ?_ quotes.quotable)⟩
  · exact fun _ => excerpt
  · simp [Kind.isValue_of_isStatement isStatement]

omit quotes in
/-- A value of one token. -/
theorem leaf (ends : c.EndsFile)
    (excerpt : c.Reaches c.advance → c.Excerpt (.expression 1) (c.leaf kind))
    (childless : kind.children = []) (noStatement : kind.isStatement = false) :
    Quotes c [c.leaf kind] c.advance := by
  have quotes := advance ends
  have none : Quotes c kind.children c.advance := by rwa [childless]
  exact none.value (excerpt quotes.reach) noStatement

end Quotes

end Cursor

namespace Grammar

open Cursor

section Ends

variable {c c' : Cursor} {t : SourceTree}

/-- No operator stands at the end of the file, so an expression of tight operators is one of loose
operators. -/
theorem derives_looser {level : Nat} (low : 1 ≤ level) (ends : c.EndsFile)
    (eof : c'.current.kind = .eof) (read : Derives _ (.expression level) c t c') :
    Derives _ (.expression 1) c t c' := by
  induction level with
  | zero => omega
  | succ level ih =>
    -- one level at a time: the tighter expression is the only operand of the looser one
    by_cases first : level = 0
    · subst first
      exact read
    refine ih (by omega) ((derives_iff ends).mpr ?_)
    have ends' := (read.shortens ends).endsFile ends
    by_cases loose : level < UnaryOp.precedence
    · have stop : Operators Derives level t c' t c' :=
        .done fun op sign => absurd eof (TokenKind.ne_eof_of_binaryOp? sign)
      exact .binary loose read ((derives_iff ends').mpr stop)
    · rcases (derives_iff ends).mp read with ⟨high, -, -⟩ | ⟨-, unary⟩
      · omega
      · exact .unary loose unary

theorem Unary.excerpt (reach : c.Reaches c')
    (read : ∀ last, Unary Derives (c.clip c' last) t (c'.upTo c')) :
    c.Excerpt (.expression 1) t := by
  refine reach.excerpt fun last => ?_
  have ends := endsFile_clip c c' last
  have low : 1 ≤ UnaryOp.precedence := by decide
  refine derives_looser low ends c'.kind_upTo_self ?_
  exact (derives_iff ends).mpr (.unary (Nat.lt_irrefl _) (read last))

theorem PrefixExpression.excerpt (reach : c.Reaches c')
    (read : ∀ last, PrefixExpression Derives (c.clip c' last) t (c'.upTo c')) :
    c.Excerpt (.expression 1) t := by
  refine Unary.excerpt reach fun last => ?_
  have noSign := TokenKind.unaryOp?_of_startsPrimary (read last).starts
  refine .power noSign (.plain (read last) ?_)
  rw [c'.kind_upTo_self]
  decide

end Ends

/-- A prefix expression from `c₀` on goes on with the suffixes behind `head`, which was read up to
`c`. -/
def Heads (c₀ : Cursor) (head : SourceTree) (c : Cursor) : Prop :=
  ∀ e, c.Reaches e → ∀ t c', Suffixes Derives head (c.upTo e) t c' →
    ∀ last, PrefixExpression Derives (c₀.clip e last) t c'

/-- An expression from `c₀` on goes on with the operators behind `left`, which was read up to
`c`. -/
def Leads (level : Nat) (c₀ : Cursor) (left : SourceTree) (c : Cursor) : Prop :=
  ∀ e, c.Reaches e → ∀ t c', Operators Derives level left (c.upTo e) t c' →
    ∀ last, Derives _ (.expression level) (c₀.clip e last) t c'

/-- What can be quoted of the trees that a rule reads. -/
def Quoted : Reading
  | _, .block => fun c t c' => Quotes c [t] c'
  | _, .statements => fun c ts c' => Quotes c ts c'
  | _, .statement => fun c t c' => Quotes c [t] c'
  | _, .elseIfs => fun c ts c' => Quotes c ts c'
  | _, .moreTargets => fun c ts c' => Quotes c ts c'
  | _, .moreNames _ => fun c ts c' => Quotes c ts c'
  | _, .dottedName head => fun c t c' =>
      ∀ c₀, Quotes c₀ [head] c → Heads c₀ head c → Quotes c₀ [t] c'
  | _, .expressions => fun c ts c' => Quotes c ts c'
  | _, .moreExpressions => fun c ts c' => Quotes c ts c'
  | _, .expression _ => fun c t c' => Quotes c [t] c'
  | _, .operators level left => fun c t c' =>
      ∀ c₀, Quotes c₀ [left] c → Leads level c₀ left c → Quotes c₀ [t] c'
  | _, .suffixes head => fun c t c' =>
      ∀ c₀, Quotes c₀ [head] c → Heads c₀ head c → Quotes c₀ [t] c'
  | _, .fields => fun c ts c' => Quotes c ts c'
  | _, .parameters => fun c ts c' => Quotes c ts c'

/-- What the rules read, with what is to be shown of it. -/
def Cited : Reading := fun α rule c a c' =>
  Derives α rule c a c' ∧ c.EndsFile ∧ Quoted α rule c a c'

theorem frames_cited : Frames Cited :=
  fun read => derives_framed read.2.1 read.1

section Growth

variable {c₀ c c₁ : Cursor} {head left t : SourceTree} {level : Nat}

theorem Heads.excerpt (heads : Heads c₀ head c) (reach : c₀.Reaches c) :
    c₀.Excerpt (.expression 1) head := by
  have eof := c.kind_upTo_self
  have none : EndsSuffixes (c.upTo c) := by
    refine ⟨?_, ?_, fun opener => ?_⟩
    · simp [eof]
    · simp [eof]
    · simp [eof] at opener
  exact PrefixExpression.excerpt reach (heads c (.refl reach.ends) head _ (.done none))

/-- One suffix more. -/
theorem Heads.suffix (heads : Heads c₀ head c) (read : Suffix Cited head c t c₁) :
    Heads c₀ t c₁ := by
  intro e reach u c' more last
  obtain ⟨reach, suffix⟩ := read.framed frames_cited reach
  exact heads e reach u c' (suffix.followed ((derives_iff (endsFile_clip _ _ _)).mpr more)) last

theorem Primary.heads (read : Primary Cited c t c₁) : Heads c t c₁ := by
  intro e reach u c' more last
  obtain ⟨-, head⟩ := read.framed frames_cited reach
  exact .intro (head last) ((derives_iff (endsFile_clip _ _ _)).mpr more)

theorem Leads.excerpt (leads : Leads level c₀ left c) (low : 1 ≤ level) (reach : c₀.Reaches c) :
    c₀.Excerpt (.expression 1) left := by
  refine reach.excerpt fun last => ?_
  have stop : Operators Derives level left (c.upTo c) left (c.upTo c) :=
    .done fun op sign => absurd c.kind_upTo_self (TokenKind.ne_eof_of_binaryOp? sign)
  have read := leads c (.refl reach.ends) left _ stop last
  exact derives_looser low (endsFile_clip _ _ _) c.kind_upTo_self read

end Growth

section Expressions

variable {c₀ c c' : Cursor} {t : SourceTree} {ts : List SourceTree}

theorem Primary.excerpt (reach : c.Reaches c') (read : Primary Cited c t c') :
    c.Excerpt (.expression 1) t :=
  read.heads.excerpt reach

theorem Name.quotes (ends : c.EndsFile) (read : Name c t c') : Quotes c [t] c' := by
  have excerpt (reach : c.Reaches c') := Primary.excerpt reach (.name read)
  obtain ⟨kind⟩ := read
  exact .leaf ends excerpt rfl rfl

theorem Expressions.quotes (read : Expressions Cited c ts c') : Quotes c ts c' := by
  obtain ⟨readFirst, readMore⟩ := read
  have first : Quotes c _ _ := readFirst.2.2
  exact first.append readMore.2.2

theorem MoreExpressions.quotes (ends : c.EndsFile) (read : MoreExpressions Cited c ts c') :
    Quotes c ts c' := by
  rcases read with stop | ⟨comma, readList⟩
  · exact .refl ends
  · exact (Quotes.advance ends).append readList.2.2

/-- Behind the opening parenthesis. -/
theorem Enclosed.quotes {rule : Rule (List SourceTree)} (read : Enclosed Cited rule c ts c')
    (ends : c.EndsFile) (list : ∀ c₁, Cited _ rule c ts c₁ → Quotes c ts c₁) : Quotes c ts c' := by
  rcases read with close | ⟨start, readList, close⟩
  · exact .advance ends
  · exact (list _ readList).next

theorem Enclosed.quotesArguments (ends : c.EndsFile) (read : Enclosed Cited .expressions c ts c') :
    Quotes c ts c' :=
  read.quotes ends fun _ readList => readList.2.2

theorem Parameters.quotes (ends : c.EndsFile) (read : Parameters Cited c ts c') :
    Quotes c ts c' := by
  rcases read with kind | ⟨readName, stop⟩ | ⟨readName, comma, readMore⟩
  · exact .leaf ends (fun reach => Primary.excerpt reach (.varArg kind)) rfl rfl
  · exact readName.quotes ends
  · exact (readName.quotes ends).next.append readMore.2.2

theorem FunctionBody.quotes {params : List SourceTree} {body : SourceTree} (ends : c.EndsFile)
    (read : FunctionBody Cited c params body c') : Quotes c (params ++ [body]) c' := by
  obtain ⟨start, readParams, readBody, close⟩ := read
  have opened := Quotes.advance ends
  have params := opened.append (readParams.quotes opened.reach.ends fun _ readList => readList.2.2)
  exact (params.append readBody.2.2).next

theorem Field.quotes (ends : c.EndsFile) (read : Field Cited c t c') : Quotes c [t] c' := by
  rcases read with ⟨start, readKey, close, assign, readValue⟩ | ⟨readName, assign, readValue⟩ |
    ⟨noKey, noName, readValue⟩
  · have key := ((Quotes.advance ends).append readKey.2.2).next.next
    exact (key.append readValue.2.2).part _ rfl rfl
  · have name := (readName.quotes ends).next
    exact (name.append readValue.2.2).part _ rfl rfl
  · have value : Quotes c _ c' := readValue.2.2
    exact value.part _ rfl rfl

theorem Fields.quotes (ends : c.EndsFile) (read : Fields Cited c ts c') : Quotes c ts c' := by
  rcases read with stop | ⟨start, readField, stop⟩ | ⟨start, readField, divider, readMore⟩
  · exact .refl ends
  · exact readField.quotes ends
  · exact (readField.quotes ends).next.append readMore.2.2

theorem Primary.quotes (ends : c.EndsFile) (read : Primary Cited c t c') : Quotes c [t] c' := by
  have excerpt (reach : c.Reaches c') := Primary.excerpt reach read
  have opened := Quotes.advance ends
  rcases read with token | readName | kind | ⟨start, readFields, close⟩ | ⟨start, readBody⟩ |
    ⟨start, readInner, close⟩
  · exact .leaf ends excerpt rfl rfl
  · exact readName.quotes ends
  · exact .leaf ends excerpt rfl rfl
  · have fields := (opened.append readFields.2.2).next
    exact fields.value (excerpt fields.reach) rfl
  · have body := opened.append (readBody.quotes opened.reach.ends)
    exact body.value (excerpt body.reach) rfl
  · have inner := (opened.append readInner.2.2).next
    exact inner.value (excerpt inner.reach) rfl

theorem Suffix.quotes {head : SourceTree} (before : Quotes c₀ [head] c) (heads : Heads c₀ head c)
    (read : Suffix Cited head c t c') : Quotes c₀ [t] c' := by
  have excerpt (reach : c₀.Reaches c') := (heads.suffix read).excerpt reach
  have opened := before.next
  have ends := opened.reach.ends
  rcases read with ⟨start, sameLine, readArgs⟩ | ⟨start, sameLine, readKey, close⟩ |
    ⟨start, readName⟩ | ⟨start, readName, parens, readArgs⟩
  · have call := opened.append (readArgs.quotesArguments ends)
    exact call.value (excerpt call.reach) rfl
  · have access := (opened.append readKey.2.2).next
    exact access.value (excerpt access.reach) rfl
  · have access := opened.append (readName.quotes ends)
    exact access.value (excerpt access.reach) rfl
  · have named := (opened.append (readName.quotes ends)).next
    have call := named.append (readArgs.quotesArguments named.reach.ends)
    exact call.value (excerpt call.reach) rfl

theorem Suffixes.quotes {head : SourceTree} (before : Quotes c₀ [head] c) (heads : Heads c₀ head c)
    (read : Suffixes Cited head c t c') : Quotes c₀ [t] c' := by
  obtain ⟨-, rfl, rfl⟩ | ⟨next, c₁, suffix, readMore⟩ := read.split
  · exact before
  · exact readMore.2.2 c₀ (suffix.quotes before heads) (heads.suffix suffix)

theorem PrefixExpression.quotes (ends : c.EndsFile) (read : PrefixExpression Cited c t c') :
    Quotes c [t] c' := by
  obtain ⟨readHead, readMore⟩ := read
  exact readMore.2.2 c (readHead.quotes ends) readHead.heads

theorem Unary.quotes (ends : c.EndsFile) (read : Unary Cited c t c') : Quotes c [t] c' := by
  have excerpt (reach : c.Reaches c') : c.Excerpt (.expression 1) t :=
    Unary.excerpt reach (read.framed frames_cited (.refl reach.ends)).2
  rcases read with ⟨sign, readOperand⟩ | ⟨noSign, ⟨readBase, stop⟩ | ⟨readBase, caret, readExponent⟩⟩
  · have operand := (Quotes.advance ends).append readOperand.2.2
    exact operand.value (excerpt operand.reach) rfl
  · exact readBase.quotes ends
  · have operands := (readBase.quotes ends).next.append readExponent.2.2
    exact operands.value (excerpt operands.reach) rfl

theorem Operators.quotes {level : Nat} {left : SourceTree} (before : Quotes c₀ [left] c)
    (leads : Leads level c₀ left c) (read : Operators Cited level left c t c') :
    Quotes c₀ [t] c' := by
  have positive {op : BinaryOp} (precedence : op.precedence = level) : 1 ≤ level := by
    cases op <;> exact precedence ▸ by decide
  -- the whole chain, up to its last operand
  have excerpt (low : 1 ≤ level) (reach : c₀.Reaches c') : c₀.Excerpt (.expression 1) t := by
    refine reach.excerpt fun last => ?_
    obtain ⟨reach, read⟩ := read.framed frames_cited (.refl reach.ends)
    have whole := leads c' reach t _ read last
    exact derives_looser low (endsFile_clip _ _ _) c'.kind_upTo_self whole
  rcases read with stop | @⟨op, right, _, c₁, _, sign, precedence, group, readRight, readMore⟩ |
    ⟨sign, precedence, group, readRight⟩ | ⟨sign, precedence, group, readRight⟩
  · exact before
  · have operands := before.next.append readRight.2.2
    -- the chain so far is the left operand of the next operator
    have leads' : Leads level c₀ (binary op left right) c₁ := by
      intro e reach u c' more last
      obtain ⟨reach, right⟩ := frames_cited.upTo readRight reach
      obtain ⟨reach, current, next⟩ := reach.backUpTo (TokenKind.ne_eof_of_binaryOp? sign)
      rw [← next] at right
      refine leads e reach u c' (.left (by rwa [current]) precedence group right ?_) last
      exact (derives_iff (endsFile_clip _ _ _)).mpr more
    refine readMore.2.2 c₀ (operands.value ?_ rfl) leads'
    exact leads'.excerpt (positive precedence) operands.reach
  · have operands := before.next.append readRight.2.2
    exact operands.value (excerpt (positive precedence) operands.reach) rfl
  · have operands := before.next.append readRight.2.2
    exact operands.value (excerpt (positive precedence) operands.reach) rfl

theorem Ladder.quotes {level : Nat} (ends : c.EndsFile) (read : Ladder Cited level c t c') :
    Quotes c [t] c' := by
  rcases read with @⟨left, _, c₁, _, low, readLeft, readMore⟩ | ⟨high, readUnary⟩
  · refine readMore.2.2 c readLeft.2.2 ?_
    -- the first operand binds tighter, and no operator of this level belongs to it
    intro e reach u c' more last
    obtain ⟨-, first⟩ := frames_cited.anywhere readLeft reach
    have more : Derives _ (.operators level left) (c₁.upTo e) u c' :=
      (derives_iff (endsFile_clip _ _ _)).mpr more
    exact (derives_iff (endsFile_clip _ _ _)).mpr (.binary low (first last) more)
  · exact readUnary.quotes ends

end Expressions

section Statements

variable {c₀ c c' : Cursor} {t : SourceTree} {ts : List SourceTree}

theorem MoreNames.quotes {cause : Cause} (ends : c.EndsFile)
    (read : MoreNames Cited cause c ts c') : Quotes c ts c' := by
  rcases read with stop | ⟨comma, readName, readMore⟩
  · exact .refl ends
  · have divided := Quotes.advance ends
    exact (divided.append (readName.quotes divided.reach.ends)).append readMore.2.2

theorem MoreTargets.quotes (ends : c.EndsFile) (read : MoreTargets Cited c ts c') :
    Quotes c ts c' := by
  rcases read with stop | ⟨comma, readTarget, readMore⟩
  · exact .refl ends
  · have divided := Quotes.advance ends
    exact (divided.append (readTarget.quotes divided.reach.ends)).append readMore.2.2

/-- A statement of which all parts can be quoted. -/
structure QuotesParts (c : Cursor) (t : SourceTree) (c' : Cursor) : Prop where
  isStatement : t.kind.isStatement = true
  parts : Quotes c t.kind.children c'

theorem LocalStatement.quotes (ends : c.EndsFile) (read : LocalStatement Cited c t c') :
    QuotesParts c t c' := by
  have opened := Quotes.advance ends
  refine ⟨by cases read <;> rfl, ?_⟩
  rcases read with ⟨start, readName, readBody⟩ | ⟨readName, readMore, stop⟩ |
    ⟨readName, readMore, assign, readValues⟩
  · have function := opened.next
    have named := function.append (readName.quotes function.reach.ends)
    exact named.append (readBody.quotes named.reach.ends)
  · have names := (opened.append (readName.quotes opened.reach.ends)).append readMore.2.2
    change Quotes c (_ ++ []) c'
    rwa [List.append_nil]
  · have names := (opened.append (readName.quotes opened.reach.ends)).append readMore.2.2
    exact names.next.append readValues.2.2

theorem DottedName.quotes {head : SourceTree} (before : Quotes c₀ [head] c)
    (heads : Heads c₀ head c) (read : DottedName Cited head c t c') : Quotes c₀ [t] c' := by
  rcases read with ⟨noDot, noColon⟩ | ⟨start, readName, readMore⟩ | ⟨start, readName⟩
  · exact before
  · have suffix : Suffix Cited head c _ _ := .dot start readName
    exact readMore.2.2 c₀ (suffix.quotes before heads) (heads.suffix suffix)
  · have named := before.next
    exact (named.append (readName.quotes named.reach.ends)).part _ rfl rfl

theorem FunctionStatement.quotes (ends : c.EndsFile) (read : FunctionStatement Cited c t c') :
    QuotesParts c t c' := by
  obtain ⟨readFirst, readName, readBody⟩ := read
  refine ⟨rfl, ?_⟩
  have opened := Quotes.advance ends
  have name := readName.2.2 _ (readFirst.quotes opened.reach.ends) (Primary.name readFirst).heads
  have named := opened.append name
  exact named.append (readBody.quotes named.reach.ends)

theorem ReturnStatement.quotes (ends : c.EndsFile) (read : ReturnStatement Cited c t c') :
    QuotesParts c t c' := by
  have opened := Quotes.advance ends
  rcases read with stop | ⟨start, readValues⟩
  · exact ⟨rfl, opened⟩
  · exact ⟨rfl, opened.append readValues.2.2⟩

theorem DoStatement.quotes (ends : c.EndsFile) (read : DoStatement Cited c t c') :
    QuotesParts c t c' := by
  obtain ⟨readBody, close⟩ := read
  exact ⟨rfl, ((Quotes.advance ends).append readBody.2.2).next⟩

theorem ElseIfs.quotes (ends : c.EndsFile) (read : ElseIfs Cited c ts c') : Quotes c ts c' := by
  rcases read with stop | @⟨condition, body, _, _, c₂, _, start, readCondition, thenKw, readBody,
    readMore⟩
  · exact .refl ends
  · have tested := ((Quotes.advance ends).append readCondition.2.2).next
    have clause : Quotes c [c₂.close c.current.span (.elseIf condition body)] c₂ :=
      (tested.append readBody.2.2).part _ rfl rfl
    exact clause.append readMore.2.2

theorem ElseClause.quotes {branch : Option SourceTree} (ends : c.EndsFile)
    (read : ElseClause Cited c branch c') : Quotes c branch.toList c' := by
  rcases read with stop | ⟨start, readBody⟩
  · exact .refl ends
  · exact ((Quotes.advance ends).append readBody.2.2).part _ rfl rfl

theorem IfStatement.quotes (ends : c.EndsFile) (read : IfStatement Cited c t c') :
    QuotesParts c t c' := by
  obtain ⟨readCondition, thenKw, readBody, readClauses, readBranch, close⟩ := read
  refine ⟨rfl, ?_⟩
  have condition := ((Quotes.advance ends).append readCondition.2.2).next
  have clauses := (condition.append readBody.2.2).append readClauses.2.2
  exact (clauses.append (readBranch.quotes clauses.reach.ends)).next

theorem WhileStatement.quotes (ends : c.EndsFile) (read : WhileStatement Cited c t c') :
    QuotesParts c t c' := by
  obtain ⟨readCondition, doKw, readBody, close⟩ := read
  have condition := ((Quotes.advance ends).append readCondition.2.2).next
  exact ⟨rfl, (condition.append readBody.2.2).next⟩

theorem RepeatStatement.quotes (ends : c.EndsFile) (read : RepeatStatement Cited c t c') :
    QuotesParts c t c' := by
  obtain ⟨readBody, untilKw, readCondition⟩ := read
  have body := ((Quotes.advance ends).append readBody.2.2).next
  exact ⟨rfl, body.append readCondition.2.2⟩

theorem ForBody.quotes (ends : c.EndsFile) (read : ForBody Cited c t c') : Quotes c [t] c' := by
  obtain ⟨doKw, readBody, close⟩ := read
  exact ((Quotes.advance ends).append readBody.2.2).next

theorem ForStep.quotes {step : Option SourceTree} (ends : c.EndsFile)
    (read : ForStep Cited c step c') : Quotes c step.toList c' := by
  rcases read with stop | ⟨comma, readStep⟩
  · exact .refl ends
  · exact (Quotes.advance ends).append readStep.2.2

theorem ForStatement.quotes (ends : c.EndsFile) (read : ForStatement Cited c t c') :
    QuotesParts c t c' := by
  have opened := Quotes.advance ends
  rcases read with ⟨assign, readCounter, readStart, comma, readLimit, readStep, readBody⟩ |
    ⟨noAssign, readName, readMore, inKw, readIterators, readBody⟩
  · refine ⟨rfl, ?_⟩
    have counter := (opened.append (readCounter.quotes opened.reach.ends)).next
    have limit := (counter.append readStart.2.2).next.append readLimit.2.2
    have range := limit.append (readStep.quotes limit.reach.ends)
    exact range.append (readBody.quotes range.reach.ends)
  · refine ⟨rfl, ?_⟩
    have names := (opened.append (readName.quotes opened.reach.ends)).append readMore.2.2
    have iterators := names.next.append readIterators.2.2
    exact iterators.append (readBody.quotes iterators.reach.ends)

theorem ExpressionStatement.quotes (ends : c.EndsFile) (read : ExpressionStatement Cited c t c') :
    QuotesParts c t c' := by
  rcases read with ⟨readFirst, readMore, assign, assignable, readValues⟩ |
    ⟨readTarget, readMore, noAssign, sign, assignable, readValue⟩ |
    ⟨readCall, readMore, noAssign, noSign, call⟩
  · have targets := (readFirst.quotes ends).append readMore.2.2
    exact ⟨rfl, targets.next.append readValues.2.2⟩
  · have target := (readTarget.quotes ends).append readMore.2.2
    exact ⟨rfl, target.next.append readValue.2.2⟩
  · exact ⟨rfl, (readCall.quotes ends).append readMore.2.2⟩

theorem Statement.quotesParts (ends : c.EndsFile) (read : Statement Cited c t c') :
    QuotesParts c t c' := by
  cases read with
  | localStatement start read => exact read.quotes ends
  | function start read => exact read.quotes ends
  | returning start read => exact read.quotes ends
  | breaking start => exact ⟨rfl, .advance ends⟩
  | continuing start => exact ⟨rfl, .advance ends⟩
  | doBlock start read => exact read.quotes ends
  | ifChain start read => exact read.quotes ends
  | whileLoop start read => exact read.quotes ends
  | repeatLoop start read => exact read.quotes ends
  | forLoop start read => exact read.quotes ends
  | expression start read => exact read.quotes ends

theorem Statement.quotes (ends : c.EndsFile) (read : Statement Cited c t c') : Quotes c [t] c' := by
  obtain ⟨isStatement, parts⟩ := read.quotesParts ends
  obtain ⟨-, alone⟩ := read.framed frames_cited (.refl parts.reach.ends)
  have excerpt : c.Excerpt .statement t :=
    parts.reach.excerpt fun last => (derives_iff (endsFile_clip _ _ _)).mpr (alone last)
  obtain ⟨m, kind⟩ := t
  exact parts.statement excerpt isStatement

theorem Statements.quotes (ends : c.EndsFile) (read : Statements Cited c ts c') :
    Quotes c ts c' := by
  rcases read with stop | @⟨statement, _, c₁, _, start, readStatement, terminal, readMore⟩
  · exact .refl ends
  · have front : Quotes c [] c.afterLeading := (Quotes.refl ends).comments _
    have first : Quotes c [statement] c₁ := front.append readStatement.2.2
    have dressed := first.withComments c.leading (c₁.skip .semicolon).trailing
    have closed := (dressed.skip .semicolon).comments (c₁.skip .semicolon).afterTrailing.comments
    exact closed.append readMore.2.2

theorem Block.quotes (read : Block Cited c t c') : Quotes c [t] c' := by
  obtain @⟨statements, c₁, readAll⟩ := read
  have all : Quotes c statements c₁ := readAll.2.2
  exact (all.comments _).part _ rfl rfl

end Statements

/-- Every rule reads trees that can be quoted. -/
theorem derives_quoted {α : Type} {rule : Rule α} {c c' : Cursor} {a : α} (ends : c.EndsFile)
    (read : Derives α rule c a c') : Quoted α rule c a c' := by
  refine (Derives.induct (G := fun α rule c a c' => c.EndsFile ∧ Quoted α rule c a c')
    ?_ ends read).2
  intro α rule c c' a ends step
  change Step Cited α rule c a c' at step
  refine ⟨ends, ?_⟩
  cases rule with
  | block => exact Block.quotes step
  | statements => exact Statements.quotes ends step
  | statement => exact Statement.quotes ends step
  | elseIfs => exact ElseIfs.quotes ends step
  | moreTargets => exact MoreTargets.quotes ends step
  | moreNames cause => exact MoreNames.quotes ends step
  | dottedName head => exact fun c₀ before heads => DottedName.quotes before heads step
  | expressions => exact Expressions.quotes step
  | moreExpressions => exact MoreExpressions.quotes ends step
  | expression level => exact Ladder.quotes ends step
  | operators level left => exact fun c₀ before leads => Operators.quotes before leads step
  | suffixes head => exact fun c₀ before heads => Suffixes.quotes before heads step
  | fields => exact Fields.quotes ends step
  | parameters => exact Parameters.quotes ends step

/-- Whatever an expression is made of, its span goes from the token in front to the one read
last. -/
def Spanned : Reading
  | _, .expression _, c, t, c' => t.span = c.current.span.through c'.last
  | _, .operators _ left, c, t, c' =>
    ∀ start : Span, left.span = start.through c.last → t.span = start.through c'.last
  | _, .suffixes head, c, t, c' =>
    ∀ start : Span, head.span = start.through c.last → t.span = start.through c'.last
  | _, _, _, _, _ => True

/-- What was read, with what is known of its span. -/
def Sized : Reading := fun α rule c a c' => Derives α rule c a c' ∧ Spanned α rule c a c'

section Spans

variable {c c' : Cursor} {t : SourceTree} {start : Span}

theorem span_leaf {kind : Kind SourceTree} (ends : c.EndsFile) (more : c.current.kind ≠ .eof) :
    (c.leaf kind).span = c.current.span.through c.advance.last := by
  obtain ⟨rest, stop, last, comments⟩ := c
  cases rest with
  | nil => exact absurd ends more
  | cons token rest => rfl

theorem Primary.spanned (ends : c.EndsFile) (read : Primary Sized c t c') :
    t.span = c.current.span.through c'.last := by
  rcases read with token | ⟨⟨kind⟩⟩ | kind | ⟨-, -, -⟩ | ⟨-, -⟩ | ⟨-, -, -⟩
  · exact span_leaf ends (literal?_ne_eof token)
  · exact span_leaf ends (by simp [kind])
  · exact span_leaf ends (by simp [kind])
  · rfl
  · rfl
  · rfl

theorem Suffix.spanned {head : SourceTree} (before : head.span = start.through c.last)
    (read : Suffix Sized head c t c') : t.span = start.through c'.last := by
  have starts (span : Span) : head.span.through span = start.through span := by
    rw [before]
    rfl
  rcases read with ⟨-, -, -⟩ | ⟨-, -, -, -⟩ | ⟨-, -⟩ | ⟨-, -, -, -⟩
  · exact starts _
  · exact starts _
  · exact starts _
  · exact starts _

theorem PrefixExpression.spanned (ends : c.EndsFile) (read : PrefixExpression Sized c t c') :
    t.span = c.current.span.through c'.last := by
  obtain ⟨readHead, readMore⟩ := read
  exact readMore.2 _ (readHead.spanned ends)

theorem span_binary {left right : SourceTree} {first : Span} (op : BinaryOp)
    (before : left.span = start.through c.last) (behind : right.span = first.through c'.last) :
    (binary op left right).span = start.through c'.last := by
  change left.span.through right.span = _
  rw [before, behind]
  rfl

theorem Unary.spanned (ends : c.EndsFile) (read : Unary Sized c t c') :
    t.span = c.current.span.through c'.last := by
  rcases read with @⟨_, operand, _, -, readOperand⟩ | ⟨-, ⟨readBase, -⟩ | ⟨readBase, -, readExponent⟩⟩
  · change c.current.span.through operand.span = _
    rw [readOperand.2]
    rfl
  · exact readBase.spanned ends
  · exact span_binary .pow (readBase.spanned ends) readExponent.2

theorem derives_spanned {α : Type} {rule : Rule α} {c c' : Cursor} {a : α} (ends : c.EndsFile)
    (read : Derives α rule c a c') : Spanned α rule c a c' := by
  refine Derives.induct ?_ ends read
  intro α rule c c' a ends step
  change Step Sized α rule c a c' at step
  cases rule with
  | expression level =>
    rcases step with ⟨-, readLeft, readMore⟩ | ⟨-, readUnary⟩
    · exact readMore.2 _ readLeft.2
    · exact readUnary.spanned ends
  | operators level left =>
    intro start before
    rcases step with stop | ⟨-, -, -, readRight, readMore⟩ | ⟨-, -, -, readRight⟩ |
      ⟨-, -, -, readRight⟩
    · exact before
    · exact readMore.2 start (span_binary _ before readRight.2)
    · exact span_binary _ before readRight.2
    · exact span_binary _ before readRight.2
  | suffixes head =>
    intro start before
    obtain ⟨-, rfl, rfl⟩ | ⟨next, c₁, suffix, readMore⟩ := Suffixes.split step
    · exact before
    · exact readMore.2 start (suffix.spanned before)
  | _ => trivial

/-- Tokens that are read to the last reach from one end of what is read to the other. -/
theorem spans_rest {own : List Token} (consumes : Consumes c own c') (some : Shortens 1 c c')
    (all : c'.rest = []) : Spans c.rest (c.current.span.through c'.last) := by
  have whole : c.rest = own := by rw [consumes.rest, all, List.append_nil]
  rw [whole]
  exact consumes.spans (consumes.ne_nil some)

theorem spans_of_statement (ends : c.EndsFile) (read : Derives _ .statement c t c')
    (all : c'.rest = []) : Spans c.rest t.span := by
  obtain ⟨kind, -, rfl, collects⟩ := derives_gathered ends read
  obtain ⟨own, consumes⟩ := collects.consumes
  exact spans_rest consumes (read.shortens ends) all

theorem spans_of_expression {level : Nat} (ends : c.EndsFile)
    (read : Derives _ (.expression level) c t c') (all : c'.rest = []) : Spans c.rest t.span := by
  obtain ⟨own, consumes⟩ := (derives_gathered ends read).consumes
  have span : t.span = c.current.span.through c'.last := derives_spanned ends read
  rw [span]
  exact spans_rest consumes (read.shortens ends) all

end Spans

end Grammar

/-- Every statement and every value of a program is an excerpt of its tokens. -/
theorem quotable_of_parseTokens {tokens : List Token} {comments : List Comment} {t : SourceTree}
    (parsed : parseTokens tokens comments = .ok t) :
    (Cursor.ofTokens tokens comments).Quotable t := by
  obtain ⟨c', readBody, stop⟩ := parseTokens_ok_iff.mp parsed
  have quotes : Cursor.Quotes _ _ _ :=
    Grammar.derives_quoted (Cursor.endsFile_ofTokens tokens comments) readBody
  exact .node nofun nofun quotes.quotable

end LuaTree
