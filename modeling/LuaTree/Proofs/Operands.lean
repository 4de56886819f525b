import LuaTree.Proofs.Notes
import LuaTree.Proofs.Written

/-!
# Reading written expressions

What can follow an expression decides how far the grammar reads. An expression
is read at a level of the ladder up to pieces with which nothing at that level
goes on, and comes back with the notes it was written with.

Calls, accesses and operators that group to the left are read by going on with
what has been read so far. `ReadsHead` and `ReadsLeft` therefore say that
whatever is read from there is read from the start.
-/

namespace LuaTree

open Cursor Grammar Layout

/-- Whether nothing of an expression can follow: no call, no access and no binary operator. -/
def TokenKind.endsExpression (kind : TokenKind) : Bool :=
  !([.dot, .colon, .lParen, .lBracket] : List TokenKind).contains kind && kind.binaryOp?.isNone

theorem UnaryOp.unaryOp?_token (op : UnaryOp) : op.token.unaryOp? = some op := by
  cases op <;> rfl

/-- Pieces with which no expression of operators at `level` and above goes on. -/
structure Ends (level : Nat) (rest : List Piece) : Prop where
  noDot : nextKind rest ≠ .dot
  noColon : nextKind rest ≠ .colon
  lineBreak : nextKind rest = .lParen ∨ nextKind rest = .lBracket → breaks rest = true
  operator : ∀ op, (nextKind rest).binaryOp? = some op → op.precedence < level

namespace Ends

variable {level : Nat} {rest : List Piece}

theorem mono {high : Nat} (ends : Ends level rest) (le : level ≤ high) : Ends high rest :=
  { ends with operator := fun op sign => Nat.lt_of_lt_of_le (ends.operator op sign) le }

theorem of_kind (stop : (nextKind rest).endsExpression = true) : Ends level rest := by
  obtain ⟨noSuffix, noSign⟩ := Bool.and_eq_true_iff.mp stop
  simp only [List.contains_cons, List.contains_nil, Bool.or_false, Bool.not_eq_true',
    Bool.or_eq_false_iff, beq_eq_false_iff_ne, ne_eq] at noSuffix
  obtain ⟨noDot, noColon, noParen, noBracket⟩ := noSuffix
  refine ⟨noDot, noColon, fun either => ?_, fun op sign => ?_⟩
  · exact absurd either (by simp [noParen, noBracket])
  · simp [sign] at noSign

/-- Before an operator of a lower level an operand ends. -/
theorem of_operator {op : BinaryOp} (low : op.precedence < level) :
    Ends level (spaced op.token ++ rest) := by
  have kind : nextKind (spaced op.token ++ rest) = op.token := rfl
  refine ⟨?_, ?_, ?_, ?_⟩
  · rw [kind]; cases op <;> decide
  · rw [kind]; cases op <;> decide
  · rw [kind]; cases op <;> simp [BinaryOp.token]
  · intro other sign
    rw [kind, op.binaryOp?_token] at sign
    exact Option.some.inj sign ▸ low

theorem suffixes {c : Cursor} (ends : Ends level rest) (behind : Behind rest c) :
    EndsSuffixes c := by
  have kind := behind.before.kind
  refine ⟨kind ▸ ends.noDot, kind ▸ ends.noColon, fun either => ?_⟩
  exact behind.breaksLine (ends.lineBreak (kind ▸ either))

end Ends

@[simp] theorem nextKind_word (kind : TokenKind) (rest : List Piece) :
    nextKind (Layout.word kind :: rest) = kind :=
  rfl

@[simp] theorem nextKind_space (rest : List Piece) :
    nextKind (Layout.space :: rest) = nextKind rest :=
  rfl

theorem Cursor.Before.word {kind : TokenKind} {rest : List Piece} {c : Cursor}
    (before : Before (Layout.word kind :: rest) c) :
    c.current.kind = kind ∧ Behind rest c.advance :=
  ⟨before.token.1, before.token.2.2⟩

theorem Cursor.Before.derives {α : Type} {rule : Rule α} {a : α} {pieces : List Piece}
    {c c' : Cursor}
    (before : Before pieces c) (step : Step Derives α rule c a c') : Derives α rule c a c' :=
  (derives_iff before.endsFile).mpr step

/-- Pieces that are read as something that can be called and accessed. -/
def ReadsHead (pieces : List Piece) (t : Tree Notes) : Prop :=
  ∀ rest c, Before (pieces ++ rest) c → ∃ u c₁, u.notes = t ∧ Behind rest c₁ ∧
    ∀ v c₂, Derives _ (.suffixes u) c₁ v c₂ → PrefixExpression Derives c v c₂

/-- Pieces that are read as an expression of operators at `level` and above. -/
def ReadsAt (level : Nat) (pieces : List Piece) (t : Tree Notes) : Prop :=
  ∀ rest c, Ends level rest → Before (pieces ++ rest) c → ∃ u c₁, u.notes = t ∧ Behind rest c₁ ∧
    Derives _ (.expression level) c u c₁

/-- Pieces that are read as what stands left of further operators at `level`. -/
def ReadsLeft (level : Nat) (pieces : List Piece) (t : Tree Notes) : Prop :=
  ∀ rest c, Ends (level + 1) rest → Before (pieces ++ rest) c →
    ∃ u c₁, u.notes = t ∧ Behind rest c₁ ∧
      ∀ v c₂, Derives _ (.operators level u) c₁ v c₂ → Derives _ (.expression level) c v c₂

section Levels

variable {pieces rest : List Piece} {t : Tree Notes} {c : Cursor} {level : Nat}

/-- What can be called and accessed is a prefix expression up to where nothing goes on with it. -/
theorem ReadsHead.prefixExpression (reads : ReadsHead pieces t) (ends : Ends level rest)
    (before : Before (pieces ++ rest) c) :
    ∃ u c₁, u.notes = t ∧ Behind rest c₁ ∧ PrefixExpression Derives c u c₁ := by
  obtain ⟨u, c₁, same, behind, goOn⟩ := reads rest c before
  exact ⟨u, c₁, same, behind, goOn u c₁ (behind.before.derives (.done (ends.suffixes behind)))⟩

theorem ReadsHead.readsAt (reads : ReadsHead pieces t) :
    ReadsAt UnaryOp.precedence pieces t := by
  intro rest c ends before
  obtain ⟨u, c₁, same, behind, read⟩ := reads.prefixExpression ends before
  refine ⟨u, c₁, same, behind, before.derives ?_⟩
  have noCaret : c₁.current.kind ≠ .caret := by
    rw [behind.before.kind]
    intro caret
    exact absurd (ends.operator .pow (by rw [caret]; rfl)) (by decide)
  have noSign := TokenKind.unaryOp?_of_startsPrimary read.starts
  exact .unary (by decide) (.power noSign (.plain read noCaret))

theorem ReadsAt.readsLeft (reads : ReadsAt (level + 1) pieces t)
    (low : level < UnaryOp.precedence) : ReadsLeft level pieces t := by
  intro rest c ends before
  obtain ⟨u, c₁, same, behind, read⟩ := reads rest c ends before
  refine ⟨u, c₁, same, behind, fun v c₂ readMore => ?_⟩
  exact before.derives (.binary low read readMore)

theorem ReadsLeft.readsAt (reads : ReadsLeft level pieces t) : ReadsAt level pieces t := by
  intro rest c ends before
  obtain ⟨u, c₁, same, behind, goOn⟩ := reads rest c (ends.mono (Nat.le_succ _)) before
  refine ⟨u, c₁, same, behind, goOn u c₁ (behind.before.derives (.done ?_))⟩
  intro op sign
  rw [behind.before.kind] at sign
  exact Nat.ne_of_lt (ends.operator op sign)

/-- What is read at some level is read at all lower ones. -/
theorem ReadsAt.lower {high : Nat} (reads : ReadsAt high pieces t)
    (bound : high ≤ UnaryOp.precedence) (le : level ≤ high) : ReadsAt level pieces t := by
  obtain ⟨steps, rfl⟩ := Nat.exists_eq_add_of_le le
  induction steps with
  | zero => exact reads
  | succ steps ih =>
    have left : ReadsLeft (level + steps) pieces t := ReadsAt.readsLeft reads (by omega)
    exact ih left.readsAt (by omega) (Nat.le_add_right _ _)

end Levels

/-- An expression that is read back from its text. -/
structure ReadsExpression (o : Layout) (e : SourceTree) : Prop where
  head : e.grip = .closed → ∀ depth, ReadsHead ((o.fragment e).write depth) (o.outline e)
  level : ∀ level, level ≤ UnaryOp.precedence → level ≤ e.grip.level → ∀ depth,
    ReadsAt level ((o.fragment e).write depth) (o.outline e)
  left : ∀ op, e.grip = .binary op → op.associativity = .left → ∀ depth,
    ReadsLeft op.precedence ((o.fragment e).write depth) (o.outline e)

/-- What holds together by itself is read at every level. -/
theorem ReadsExpression.of_head {o : Layout} {e : SourceTree} (closed : e.grip = .closed)
    (head : ∀ depth, ReadsHead ((o.fragment e).write depth) (o.outline e)) :
    ReadsExpression o e where
  head _ := head
  level _ bound _ depth := (head depth).readsAt.lower (Nat.le_refl _) bound
  left op binary := by simp [closed] at binary

theorem ReadsExpression.top {o : Layout} {e : SourceTree} (reads : ReadsExpression o e)
    (depth : Nat) : ReadsAt 1 ((o.fragment e).write depth) (o.outline e) := by
  refine reads.level 1 (by decide) ?_ depth
  cases e.grip with
  | binary op => cases op <;> decide
  | unary => decide
  | closed => decide

/-- A name that is read back from its text. -/
def ReadsName (o : Layout) (t : SourceTree) : Prop :=
  ∀ depth rest c, Before ((o.fragment t).write depth ++ rest) c →
    ∃ u c₁, u.notes = o.outline t ∧ Behind rest c₁ ∧ Name c u c₁

/-- A field of a table that is read back from its text. -/
def ReadsField (o : Layout) (t : SourceTree) : Prop :=
  ∀ depth rest c, Ends 1 rest → nextKind rest ≠ .assign →
    Before ((o.fragment t).write depth ++ rest) c →
    ∃ u c₁, u.notes = o.outline t ∧ Behind rest c₁ ∧ Field Derives c u c₁

@[simp] theorem Cursor.notes_close (c : Cursor) (start : Span) (kind : Kind SourceTree) :
    (c.close start kind).notes = .node ([], []) (kind.map Tree.notes) :=
  Tree.notes_node _ _

@[simp] theorem Cursor.notes_leaf (c : Cursor) (kind : Kind SourceTree) :
    (c.leaf kind).notes = .node ([], []) (kind.map Tree.notes) :=
  Tree.notes_node _ _

section Nodes

variable {o : Layout} {m : Origin}

theorem kept_of_bare (bare : m.IsBare) : o.kept m = ([], []) := by
  simp [kept, Origin.notes, bare.1, bare.2]

/-- What a primary expression reads can be called and accessed. -/
theorem readsHead_of_primary {pieces : List Piece} {t : Tree Notes}
    (primary : ∀ rest c, Before (pieces ++ rest) c →
      ∃ u c₁, u.notes = t ∧ Behind rest c₁ ∧ Primary Derives c u c₁) : ReadsHead pieces t := by
  intro rest c before
  obtain ⟨u, c₁, same, behind, read⟩ := primary rest c before
  exact ⟨u, c₁, same, behind, fun v c₂ readMore => .intro read readMore⟩

theorem reads_name {text : String} (fit : Fit m (.identifier text)) :
    ReadsName o (.node m (.identifier text)) := by
  intro depth rest c before
  rw [fragment_node] at before
  obtain ⟨kind, lexeme, behind⟩ := Before.token before
  refine ⟨_, _, ?_, behind, .intro kind⟩
  simp [lexeme, kept_of_bare fit.placed, Kind.map]

theorem reads_ofName {t : SourceTree} (closed : t.grip = .closed) (name : ReadsName o t) :
    ReadsExpression o t := by
  refine .of_head closed fun depth => readsHead_of_primary fun rest c before => ?_
  obtain ⟨u, c₁, same, behind, read⟩ := name depth rest c before
  exact ⟨u, c₁, same, behind, .name read⟩

/-- The token of a literal is read as that literal. -/
theorem literal?_of_isToken {l : Literal} (isToken : l.IsToken) {token : Token}
    (piece : Layout.literal l = .token token.kind token.lexeme.toList) :
    literal? token = some l := by
  obtain ⟨value, kind⟩ := l
  cases kind with
  | number =>
    obtain ⟨kind, text⟩ := Piece.token.inj piece
    have lexeme : value = token.lexeme := String.toList_inj.mp text
    simp [literal?, ← kind, ← lexeme]
  | string quote =>
    obtain ⟨kind, text⟩ := Piece.token.inj piece
    obtain ⟨isQuote, quotable⟩ := isToken
    have quote? : token.quote? = some quote := by simp [Token.quote?, ← kind, ← text, isQuote]
    have contents : token.contents = value := by
      simp [Token.contents, ← text, isQuote, beforeQuote_append isQuote quotable]
    simp [literal?, ← kind, quote?, contents]
  | boolean =>
    obtain ⟨kind, text⟩ := Piece.token.inj piece
    have lexeme : value = token.lexeme := String.toList_inj.mp text
    rcases isToken with same | same
    · obtain rfl : value = "true" := same
      simp [literal?, ← kind, ← lexeme]
    · obtain rfl : value = "false" := same
      simp [literal?, ← kind, ← lexeme]
  | nil =>
    obtain ⟨kind, text⟩ := Piece.token.inj piece
    obtain rfl : value = "nil" := isToken
    simp [literal?, ← kind]

theorem reads_literal {l : Literal} (isToken : l.IsToken) (fit : Fit m (.literal l)) :
    ReadsExpression o (.node m (.literal l)) := by
  refine .of_head rfl fun depth => readsHead_of_primary fun rest c before => ?_
  rw [fragment_node] at before
  obtain ⟨kind, text, piece⟩ : ∃ kind text, Layout.literal l = .token kind text := by
    unfold Layout.literal
    split <;> exact ⟨_, _, rfl⟩
  have front : Before (.token kind text :: rest) c := piece ▸ before
  obtain ⟨sameKind, lexeme, behind⟩ := front.token
  have token : literal? c.current = some l := by
    refine literal?_of_isToken isToken ?_
    rw [sameKind, lexeme, String.toList_ofList, piece]
  refine ⟨_, _, ?_, behind, .literal token⟩
  simp [kept_of_bare fit.placed, Kind.map]

theorem reads_varArg (fit : Fit m .varArg) : ReadsExpression o (.node m .varArg) := by
  refine .of_head rfl fun depth => readsHead_of_primary fun rest c before => ?_
  rw [fragment_node] at before
  obtain ⟨kind, behind⟩ := Before.word before
  refine ⟨_, _, ?_, behind, .varArg kind⟩
  simp [kept_of_bare fit.placed, Kind.map]

/-- Expressions divided by commas. -/
theorem reads_expressions {es : List SourceTree} (all : ∀ e ∈ es, ReadsExpression o e)
    (some : es ≠ []) (depth : Nat) {rest : List Piece} (ends : Ends 1 rest)
    (noComma : nextKind rest ≠ .comma) {c : Cursor}
    (before : Before (commas depth (es.map o.fragment) ++ rest) c) :
    ∃ us c₁, us.map Tree.notes = es.map o.outline ∧ Behind rest c₁ ∧
      Derives _ .expressions c us c₁ := by
  induction es generalizing c with
  | nil => exact absurd rfl some
  | cons e es ih =>
    obtain ⟨first, all⟩ := List.forall_mem_cons.mp all
    cases es with
    | nil =>
      rw [List.map_singleton, commas_singleton] at before
      obtain ⟨u, c₁, same, behind, read⟩ := first.top depth rest c ends before
      have noMore : Derives _ .moreExpressions c₁ [] c₁ :=
        behind.before.derives (.none (behind.before.kind ▸ noComma))
      exact ⟨[u], c₁, by simp [same], behind, before.derives (.intro read noMore)⟩
    | cons e' es =>
      rw [List.map_cons, List.map_cons, commas_cons_cons, List.append_assoc] at before
      obtain ⟨u, c₁, same, behind, read⟩ := first.top depth _ c (.of_kind rfl) before
      obtain ⟨comma, next⟩ := Before.word behind.before
      obtain ⟨us, c₂, sames, behind₂, readAll⟩ := ih all (by simp) next.before.blank
      have more : Derives _ .moreExpressions c₁ us c₂ :=
        behind.before.derives (.some comma readAll)
      exact ⟨u :: us, c₂, by simp [same, sames], behind₂, before.derives (.intro read more)⟩

theorem Cursor.Before.parenthesized {pieces rest : List Piece} {c : Cursor}
    (before : Before (parenthesized pieces ++ rest) c) :
    c.current.kind = .lParen ∧ Behind (pieces ++ Layout.word .rParen :: rest) c.advance := by
  simp only [Layout.parenthesized, List.cons_append, List.append_assoc, List.nil_append] at before
  exact before.word

/-- The arguments of a call. -/
theorem reads_arguments {args : List SourceTree} (all : ∀ arg ∈ args, ReadsExpression o arg)
    (depth : Nat) {rest : List Piece} {c : Cursor}
    (before : Before (parenthesized (commas depth (args.map o.fragment)) ++ rest) c) :
    c.current.kind = .lParen ∧ ∃ us c₁, us.map Tree.notes = args.map o.outline ∧ Behind rest c₁ ∧
      Enclosed Derives .expressions c.advance us c₁ := by
  obtain ⟨start, inner⟩ := before.parenthesized
  refine ⟨start, ?_⟩
  by_cases none : args = []
  · subst none
    obtain ⟨close, behind⟩ := Before.word inner.before
    exact ⟨[], _, rfl, behind, .none close⟩
  · obtain ⟨us, c₁, same, behind, read⟩ :=
      reads_expressions all none depth (.of_kind rfl) (by simp) inner.before
    obtain ⟨close, behind⟩ := Before.word behind.before
    refine ⟨us, _, same, behind, .some ?_ read close⟩
    intro stop
    have starts := startsExpression_of_expressions inner.before.endsFile read
    rw [stop] at starts
    exact absurd starts (by decide)

theorem head_fragment {e : SourceTree} (closed : e.grip.needsPrefixParens = false) (depth : Nat) :
    Layout.head (o.fragment e) depth = (o.fragment e).write depth := by
  simp [Layout.head, guarded, closed]

theorem reads_call {f : SourceTree} {args : List SourceTree} (callee : ReadsExpression o f)
    (arguments : ∀ arg ∈ args, ReadsExpression o arg) (fit : Fit m (.functionCall f args)) :
    ReadsExpression o (.node m (.functionCall f args)) := by
  refine .of_head rfl fun depth rest c before => ?_
  have closed := (Grip.needsPrefixParens_eq_false_iff _).mp fit.snug
  simp only [fragment_node, Kind.map, node, head_fragment fit.snug, List.append_assoc] at before
  obtain ⟨u, c₁, same, behind, goOn⟩ := callee.head closed depth _ c before
  obtain ⟨start, us, c₂, sames, behind₂, read⟩ := reads_arguments arguments depth behind.before
  refine ⟨c₂.close u.span (.functionCall u us), c₂, ?_, behind₂, fun v c₃ readMore => ?_⟩
  · simp [kept_of_bare fit.placed, Kind.map, same, sames]
  · exact goOn v c₃ (behind.before.derives (.call start behind.sameLine read readMore))

theorem reads_methodCall {e n : SourceTree} {args : List SourceTree}
    (receiver : ReadsExpression o e) (method : ReadsName o n)
    (arguments : ∀ arg ∈ args, ReadsExpression o arg) (fit : Fit m (.methodCall e n args)) :
    ReadsExpression o (.node m (.methodCall e n args)) := by
  refine .of_head rfl fun depth rest c before => ?_
  have closed := (Grip.needsPrefixParens_eq_false_iff _).mp fit.snug
  simp only [fragment_node, Kind.map, node, head_fragment fit.snug, List.append_assoc,
    List.cons_append] at before
  obtain ⟨u, c₁, same, behind, goOn⟩ := receiver.head closed depth _ c before
  obtain ⟨start, behindColon⟩ := Before.word behind.before
  obtain ⟨n', c₂, sameName, behind₂, readName⟩ := method depth _ _ behindColon.before
  obtain ⟨parens, us, c₃, sames, behind₃, read⟩ := reads_arguments arguments depth behind₂.before
  refine ⟨c₃.close u.span (.methodCall u n' us), c₃, ?_, behind₃, fun v c₄ readMore => ?_⟩
  · simp [kept_of_bare fit.placed, Kind.map, same, sameName, sames]
  · exact goOn v c₄ (behind.before.derives (.method start readName parens read readMore))

theorem reads_member {t key : SourceTree} (table : ReadsExpression o t) (name : ReadsName o key)
    (fit : Fit m (.access .dot t key)) : ReadsExpression o (.node m (.access .dot t key)) := by
  refine .of_head rfl fun depth rest c before => ?_
  have closed := (Grip.needsPrefixParens_eq_false_iff _).mp fit.snug
  simp only [fragment_node, Kind.map, node, head_fragment fit.snug, List.append_assoc,
    List.cons_append] at before
  obtain ⟨u, c₁, same, behind, goOn⟩ := table.head closed depth _ c before
  obtain ⟨start, behindDot⟩ := Before.word behind.before
  obtain ⟨k, c₂, sameKey, behind₂, readName⟩ := name depth _ _ behindDot.before
  refine ⟨c₂.close u.span (.access .dot u k), c₂, ?_, behind₂, fun v c₃ readMore => ?_⟩
  · simp [kept_of_bare fit.placed, Kind.map, same, sameKey]
  · exact goOn v c₃ (behind.before.derives (.dot start readName readMore))

theorem reads_index {t e : SourceTree} (table : ReadsExpression o t) (key : ReadsExpression o e)
    (fit : Fit m (.access .bracket t e)) : ReadsExpression o (.node m (.access .bracket t e)) := by
  refine .of_head rfl fun depth rest c before => ?_
  have closed := (Grip.needsPrefixParens_eq_false_iff _).mp fit.snug
  simp only [fragment_node, Kind.map, node, head_fragment fit.snug, List.append_assoc,
    List.cons_append, List.nil_append] at before
  obtain ⟨u, c₁, same, behind, goOn⟩ := table.head closed depth _ c before
  obtain ⟨start, inner⟩ := Before.word behind.before
  obtain ⟨k, c₂, sameKey, behind₂, readKey⟩ := key.top depth _ _ (.of_kind rfl) inner.before
  obtain ⟨close, behind₃⟩ := Before.word behind₂.before
  refine ⟨c₂.advance.close u.span (.access .bracket u k), _, ?_, behind₃, fun v c₃ readMore => ?_⟩
  · simp [kept_of_bare fit.placed, Kind.map, same, sameKey]
  · exact goOn v c₃
      (behind.before.derives (.index start behind.sameLine readKey close readMore))

theorem reads_paren {e : SourceTree} (inner : ReadsExpression o e) (fit : Fit m (.paren e)) :
    ReadsExpression o (.node m (.paren e)) := by
  refine .of_head rfl fun depth => readsHead_of_primary fun rest c before => ?_
  simp only [fragment_node, Kind.map, node] at before
  obtain ⟨start, inside⟩ := before.parenthesized
  obtain ⟨u, c₁, same, behind, read⟩ := inner.top depth _ _ (.of_kind rfl) inside.before
  obtain ⟨close, behind⟩ := Before.word behind.before
  refine ⟨_, _, ?_, behind, .paren start read close⟩
  simp [kept_of_bare fit.placed, Kind.map, same]

theorem guarded_fragment {e : SourceTree} {parens : Bool} (none : parens = false) (depth : Nat) :
    guarded parens (o.fragment e) depth = (o.fragment e).write depth := by
  simp [guarded, none]

theorem Cursor.Before.gap {op : UnaryOp} {pieces rest : List Piece} {c : Cursor}
    (before : Before (unaryGap op pieces ++ rest) c) : Before rest c := by
  cases op with
  | not => exact before.blank
  | len => exact before
  | neg =>
    simp only [unaryGap] at before
    split at before
    · exact before.blank
    · exact before

theorem reads_unary {op : UnaryOp} {e : SourceTree} (operand : ReadsExpression o e)
    (fit : Fit m (.unary op e)) : ReadsExpression o (.node m (.unary op e)) where
  head closed := by simp [Tree.grip, Tree.kind, Kind.grip] at closed
  left other binary := by simp [Tree.grip, Tree.kind, Kind.grip] at binary
  level level bound _ depth := by
    refine ReadsAt.lower ?_ (Nat.le_refl _) bound
    intro rest c ends before
    have tight := (Grip.isLooseBinary_eq_false_iff _).mp fit.snug
    simp only [fragment_node, Kind.map, node, fragment_grip, guarded_fragment fit.snug,
      List.append_assoc, List.cons_append] at before
    obtain ⟨kind, behind⟩ := Before.word before
    have sign : c.current.kind.unaryOp? = some op := by rw [kind, op.unaryOp?_token]
    obtain ⟨u, c₁, same, behind, read⟩ :=
      operand.level _ (Nat.le_refl _) tight depth rest _ ends behind.before.gap
    refine ⟨_, _, ?_, behind, before.derives (.unary (by decide) (.op sign read))⟩
    simp [kept_of_bare fit.placed, Kind.map, same]

@[simp] theorem notes_binary (op : BinaryOp) (l r : SourceTree) :
    (Grammar.binary op l r).notes = .node ([], []) (.binary op l.notes r.notes) :=
  Tree.notes_node _ _

/-- The sign of a binary operator between its operands. -/
theorem Cursor.Before.sign {op : BinaryOp} {rest : List Piece} {c : Cursor}
    (before : Before (spaced op.token ++ rest) c) :
    c.current.kind.binaryOp? = some op ∧ Before rest c.advance := by
  obtain ⟨kind, behind⟩ := Before.word before.blank
  exact ⟨by rw [kind, op.binaryOp?_token], behind.before.blank⟩

theorem reads_pow {l r : SourceTree} (left : ReadsExpression o l) (right : ReadsExpression o r)
    (fit : Fit m (.binary .pow l r)) : ReadsExpression o (.node m (.binary .pow l r)) where
  head closed := by simp [Tree.grip, Tree.kind, Kind.grip] at closed
  left op binary group := by
    obtain rfl : BinaryOp.pow = op := by simpa [Tree.grip, Tree.kind, Kind.grip] using binary
    exact absurd group (by decide)
  level level bound _ depth := by
    refine ReadsAt.lower ?_ (Nat.le_refl _) bound
    intro rest c ends before
    have closed := (Grip.needsParens_pow_left_eq_false_iff _).mp fit.snug.1
    have tight := (Grip.isLooseBinary_eq_false_iff _).mp fit.snug.2
    simp only [fragment_node, Kind.map, node, fragment_grip, guarded_fragment fit.snug.1,
      guarded_fragment fit.snug.2, List.append_assoc] at before
    obtain ⟨u, c₁, same, behind, base⟩ :=
      (left.head closed depth).prefixExpression (.of_operator (Nat.lt_succ_self _)) before
    have caret : c₁.current.kind = .caret := behind.before.kind
    obtain ⟨-, next⟩ := Before.sign behind.before
    obtain ⟨v, c₂, same₂, behind₂, exponent⟩ :=
      right.level _ (Nat.le_refl _) tight depth rest _ ends next
    have noSign := TokenKind.unaryOp?_of_startsPrimary base.starts
    refine ⟨_, _, ?_, behind₂,
      before.derives (.unary (by decide) (.power noSign (.pow base caret exponent)))⟩
    simp [kept_of_bare fit.placed, Kind.map, same, same₂]

/-- The left operand of an operator that groups to the left. -/
theorem ReadsExpression.readsLeft {op : BinaryOp} {l : SourceTree} (left : ReadsExpression o l)
    (low : op.precedence < UnaryOp.precedence) (group : op.associativity = .left)
    (le : op.precedence ≤ l.grip.level) (depth : Nat) :
    ReadsLeft op.precedence ((o.fragment l).write depth) (o.outline l) := by
  by_cases above : op.precedence < l.grip.level
  · exact (left.level _ low above depth).readsLeft low
  · have same : op.precedence = l.grip.level := by omega
    cases grip : l.grip with
    | binary other =>
      rw [grip] at same
      have grouped : other.associativity = .left := BinaryOp.associativity_eq same ▸ group
      have precedence : op.precedence = other.precedence := same
      rw [precedence]
      exact left.left other grip grouped depth
    | unary =>
      rw [grip] at same
      exact absurd same (Nat.ne_of_lt low)
    | closed =>
      rw [grip] at same
      exact absurd same (Nat.ne_of_lt (Grip.precedence_lt_closed op))

theorem write_binary {op : BinaryOp} {l r : SourceTree} (fit : Fit m (.binary op l r))
    (depth : Nat) : (o.fragment (.node m (.binary op l r))).write depth =
      (o.fragment l).write depth ++ (spaced op.token ++ (o.fragment r).write depth) := by
  simp only [fragment_node, Kind.map, node, fragment_grip, guarded_fragment fit.snug.1,
    guarded_fragment fit.snug.2, List.append_assoc]

/-- An operator between an operand above its level and one that it can be read with. -/
theorem readsAt_binary {op : BinaryOp} {l r : SourceTree} (left : ReadsExpression o l)
    (low : op.precedence < UnaryOp.precedence) (above : op.precedence < l.grip.level)
    (fit : Fit m (.binary op l r)) (depth : Nat) {level : Nat} (atLeast : op.precedence ≤ level)
    (right : ReadsAt level ((o.fragment r).write depth) (o.outline r))
    (operators : ∀ {u v c c'}, c.current.kind.binaryOp? = some op →
      Derives _ (.expression level) c.advance v c' →
      Operators Derives op.precedence u c (Grammar.binary op u v) c') :
    ReadsAt op.precedence ((o.fragment (.node m (.binary op l r))).write depth)
      (o.outline (.node m (.binary op l r))) := by
  intro rest c ends before
  rw [write_binary fit, List.append_assoc, List.append_assoc] at before
  obtain ⟨u, c₁, same, behind, readLeft⟩ :=
    left.level _ low above depth _ c (.of_operator (Nat.lt_succ_self _)) before
  obtain ⟨sign, next⟩ := Before.sign behind.before
  obtain ⟨v, c₂, same₂, behind₂, readRight⟩ := right rest _ (ends.mono atLeast) next
  refine ⟨_, _, ?_, behind₂, before.derives
    (.binary low readLeft (behind.before.derives (operators sign readRight)))⟩
  simp [kept_of_bare fit.placed, Kind.map, same, same₂]

/-- An operator that groups to the left, with further ones behind it. -/
theorem readsLeft_binary {op : BinaryOp} {l r : SourceTree} (group : op.associativity = .left)
    (fit : Fit m (.binary op l r)) (depth : Nat)
    (left : ReadsLeft op.precedence ((o.fragment l).write depth) (o.outline l))
    (right : ReadsAt (op.precedence + 1) ((o.fragment r).write depth) (o.outline r)) :
    ReadsLeft op.precedence ((o.fragment (.node m (.binary op l r))).write depth)
      (o.outline (.node m (.binary op l r))) := by
  intro rest c ends before
  rw [write_binary fit, List.append_assoc, List.append_assoc] at before
  obtain ⟨u, c₁, same, behind, goOn⟩ := left _ c (.of_operator (Nat.lt_succ_self _)) before
  obtain ⟨sign, next⟩ := Before.sign behind.before
  obtain ⟨v, c₂, same₂, behind₂, readRight⟩ := right rest _ ends next
  refine ⟨Grammar.binary op u v, c₂, ?_, behind₂, fun w c₃ readMore => ?_⟩
  · simp [kept_of_bare fit.placed, Kind.map, same, same₂]
  · exact goOn w c₃ (behind.before.derives (.left sign rfl group readRight readMore))

theorem reads_binary {op : BinaryOp} {l r : SourceTree} (left : ReadsExpression o l)
    (right : ReadsExpression o r) (fit : Fit m (.binary op l r)) :
    ReadsExpression o (.node m (.binary op l r)) := by
  by_cases low : op.precedence < UnaryOp.precedence
  · have notPow := BinaryOp.ne_pow_of_precedence low
    have snugLeft := (Grip.needsParens_eq_false_iff _ (by simp)).mp fit.snug.1
    have snugRight := (Grip.needsParens_eq_false_iff _ (by simp [notPow])).mp fit.snug.2
    simp only [BinaryOp.isRelational, BinaryOp.isRightAssociative] at snugLeft snugRight
    have atLevel : ∀ depth, ReadsAt op.precedence
        ((o.fragment (.node m (.binary op l r))).write depth)
        (o.outline (.node m (.binary op l r))) ∧
        (op.associativity = .left → ReadsLeft op.precedence
          ((o.fragment (.node m (.binary op l r))).write depth)
          (o.outline (.node m (.binary op l r)))) := by
      intro depth
      cases group : op.associativity with
      | left =>
        simp [group] at snugLeft snugRight
        have reads := readsLeft_binary group fit depth
          (left.readsLeft low group (by omega) depth) (right.level _ low snugRight depth)
        exact ⟨reads.readsAt, fun _ => reads⟩
      | right =>
        simp [group] at snugLeft snugRight
        refine ⟨readsAt_binary left low snugLeft fit depth (Nat.le_refl _)
          (right.level _ (Nat.le_of_lt low) (by omega) depth) ?_, nofun⟩
        exact fun sign read => .right sign rfl group read
      | none =>
        simp [group] at snugLeft snugRight
        refine ⟨readsAt_binary left low snugLeft fit depth (Nat.le_succ _)
          (right.level _ low snugRight depth) ?_, nofun⟩
        exact fun sign read => .single sign rfl group read
    exact {
      head := fun closed => by simp [Tree.grip, Tree.kind, Kind.grip] at closed
      level := fun level _ le depth => (atLevel depth).1.lower (Nat.le_of_lt low) le
      left := fun other binary group depth => by
        obtain rfl : op = other := by simpa [Tree.grip, Tree.kind, Kind.grip] using binary
        exact (atLevel depth).2 group }
  · obtain rfl : op = .pow := by cases op <;> first | rfl | exact absurd (by decide) low
    exact reads_pow left right fit

theorem reads_positional {e : SourceTree} (value : ReadsExpression o e)
    (fit : Fit m (.field .positional none e)) :
    ReadsField o (.node m (.field .positional none e)) := by
  intro depth rest c ends noAssign before
  simp only [fragment_node, Kind.map, Option.map_none, node] at before
  obtain ⟨u, c₁, same, behind, read⟩ := value.top depth rest c ends before
  obtain ⟨starts, assigns⟩ := derives_begins before.endsFile read
  have noKey : c.current.kind ≠ .lBracket := by
    intro bracket
    rw [bracket] at starts
    exact absurd starts (by decide)
  have noName : ¬ (c.current.kind = .identifier ∧ c.following.kind = .assign) := by
    rintro ⟨name, assign⟩
    exact noAssign (behind.before.kind ▸ assigns name assign)
  refine ⟨_, _, ?_, behind, .positional noKey noName read⟩
  simp [kept_of_bare fit.placed, Kind.map, same]

theorem reads_named {key e : SourceTree} (name : ReadsName o key) (value : ReadsExpression o e)
    (fit : Fit m (.field .named (some key) e)) :
    ReadsField o (.node m (.field .named (some key) e)) := by
  intro depth rest c ends _ before
  simp only [fragment_node, Kind.map, Option.map_some, node, List.append_assoc] at before
  obtain ⟨k, c₁, sameKey, behind, readName⟩ := name depth _ c before
  obtain ⟨assign, next⟩ := Before.word behind.before.blank
  obtain ⟨u, c₂, same, behind₂, read⟩ := value.top depth rest _ ends next.before.blank
  have following : c.following.kind = .assign := by
    obtain ⟨-⟩ := readName
    rw [← current_advance, assign]
  refine ⟨_, _, ?_, behind₂, .named readName following read⟩
  simp [kept_of_bare fit.placed, Kind.map, sameKey, same]

theorem reads_bracketed {k e : SourceTree} (key : ReadsExpression o k)
    (value : ReadsExpression o e) (fit : Fit m (.field .bracketed (some k) e)) :
    ReadsField o (.node m (.field .bracketed (some k) e)) := by
  intro depth rest c ends _ before
  simp only [fragment_node, Kind.map, Option.map_some, node, List.append_assoc,
    List.cons_append] at before
  obtain ⟨start, inner⟩ := Before.word before
  obtain ⟨u, c₁, same, behind, readKey⟩ := key.top depth _ _ (.of_kind rfl) inner.before
  obtain ⟨close, behind₂⟩ := Before.word behind.before
  obtain ⟨assign, next⟩ := Before.word behind₂.before.blank
  obtain ⟨v, c₂, same₂, behind₃, readValue⟩ := value.top depth rest _ ends next.before.blank
  refine ⟨_, _, ?_, behind₃, .bracketed start readKey close assign readValue⟩
  simp [kept_of_bare fit.placed, Kind.map, same, same₂]

theorem Grammar.Field.starts {c c' : Cursor} {t : SourceTree} (ends : c.EndsFile)
    (read : Field Derives c t c') :
    ¬ (c.current.kind = .rBrace ∨ c.current.kind = .eof) := by
  rcases read with ⟨start, -, -, -, -⟩ | ⟨⟨name⟩, -, -⟩ | ⟨-, -, readValue⟩
  · simp [start]
  · simp [name]
  · have starts := startsExpression_of_expression ends readValue
    rintro (stop | stop) <;> rw [stop] at starts <;> exact absurd starts (by decide)

/-- Fields divided by commas, up to the closing brace. -/
theorem reads_fields {fs : List SourceTree} (all : ∀ f ∈ fs, ReadsField o f) (depth : Nat)
    {rest : List Piece} (close : nextKind rest = .rBrace) {c : Cursor}
    (before : Before (commas depth (fs.map o.fragment) ++ rest) c) :
    ∃ us c₁, us.map Tree.notes = fs.map o.outline ∧ Before rest c₁ ∧
      Derives _ .fields c us c₁ := by
  induction fs generalizing c with
  | nil => exact ⟨[], c, rfl, before, before.derives (.none (.inl (before.kind.trans close)))⟩
  | cons f fs ih =>
    obtain ⟨first, all⟩ := List.forall_mem_cons.mp all
    cases fs with
    | nil =>
      rw [List.map_singleton, commas_singleton] at before
      have ends : Ends 1 rest := .of_kind (by rw [close]; rfl)
      obtain ⟨u, c₁, same, behind, read⟩ := first depth rest c ends (by simp [close]) before
      have stop : ¬ (c₁.current.kind = .comma ∨ c₁.current.kind = .semicolon) := by
        simp [behind.before.kind, close]
      exact ⟨[u], c₁, by simp [same], behind.before,
        before.derives (.last (read.starts before.endsFile) read stop)⟩
    | cons f' fs =>
      rw [List.map_cons, List.map_cons, commas_cons_cons, List.append_assoc] at before
      obtain ⟨u, c₁, same, behind, read⟩ := first depth _ c (.of_kind rfl) (by simp) before
      obtain ⟨comma, next⟩ := Before.word behind.before
      obtain ⟨us, c₂, sames, before₂, readAll⟩ := ih all next.before.blank
      exact ⟨u :: us, c₂, by simp [same, sames], before₂,
        before.derives (.more (read.starts before.endsFile) read (.inl comma) readAll)⟩

theorem reads_table {fs : List SourceTree} (fields : ∀ f ∈ fs, ReadsField o f)
    (fit : Fit m (.table fs)) : ReadsExpression o (.node m (.table fs)) := by
  refine .of_head rfl fun depth => readsHead_of_primary fun rest c before => ?_
  simp only [fragment_node, Kind.map, node, List.cons_append, List.append_assoc,
    List.nil_append] at before
  obtain ⟨start, inner⟩ := Before.word before
  obtain ⟨us, c₁, sames, before₁, read⟩ := reads_fields fields depth (by simp) inner.before
  obtain ⟨close, behind⟩ := Before.word before₁
  refine ⟨_, _, ?_, behind, .table start read close⟩
  simp [kept_of_bare fit.placed, Kind.map, sames]

end Nodes

end LuaTree
