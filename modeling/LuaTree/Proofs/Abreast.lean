import LuaTree.Proofs.Notes
import Mathlib.Data.List.Forall2

/-!
# Readings side by side

Two lists of tokens may differ in where their tokens stand and in the comments
between them. Read side by side, they are read the same way, as long as opening
parentheses and brackets agree on whether they begin a line: no rule looks at
anything else. Both readings yield the same tree, or both fail for the same
cause at tokens with the same index (`parseTokens_viewed`).

How much the texts of names and literals and the positions of nodes count is a
parameter. With `Blur.clear` trees are compared but for positions, with
`Blur.blind` by their shape alone.
-/

namespace LuaTree

/-- What is left of names, literals and positions when trees are compared. -/
structure Blur where
  name : String → String
  literal : Literal → Literal
  place : Position → Position

/-- All texts count. -/
def Blur.clear : Blur := ⟨id, id, fun _ => default⟩

/-- No text counts. -/
def Blur.blind : Blur := ⟨fun _ => "", fun _ => default, fun _ => default⟩

namespace Kind

variable {α β : Type}

/-- A node with its text blurred. -/
def blur (b : Blur) : Kind α → Kind α
  | identifier name => identifier (b.name name)
  | literal l => literal (b.literal l)
  | kind => kind

theorem map_blur (b : Blur) (f : α → β) (kind : Kind α) :
    (kind.blur b).map f = (kind.map f).blur b := by
  cases kind <;> rfl

@[simp] theorem isTerminal_blur (b : Blur) (kind : Kind α) :
    (kind.blur b).isTerminal = kind.isTerminal := by
  cases kind <;> rfl

@[simp] theorem isAssignable_blur (b : Blur) (kind : Kind α) :
    (kind.blur b).isAssignable = kind.isAssignable := by
  cases kind <;> rfl

@[simp] theorem isCallLike_blur (b : Blur) (kind : Kind α) :
    (kind.blur b).isCallLike = kind.isCallLike := by
  cases kind <;> rfl

end Kind

namespace Tree

variable {ι : Type} (b : Blur)

/-- The tree without its marks and with its texts blurred. -/
def blurred : Tree ι → Tree Unit :=
  fold fun _ kind => .node () (kind.blur b)

@[simp] theorem blurred_node (m : ι) (kind : Kind (Tree ι)) :
    blurred b (.node m kind) = .node () ((kind.map (blurred b)).blur b) :=
  fold_node _ _ _

/-- The tree with its texts and positions blurred. -/
def viewed : SourceTree → Tree (Position × Position) :=
  fold fun m kind => .node (b.place m.span.start, b.place m.span.stop) (kind.blur b)

@[simp] theorem viewed_node (m : Origin) (kind : Kind SourceTree) :
    viewed b (.node m kind) =
      .node (b.place m.span.start, b.place m.span.stop) ((kind.map (viewed b)).blur b) :=
  fold_node _ _ _

theorem mark_viewed (t : SourceTree) :
    (t.viewed b).mark = (b.place t.span.start, b.place t.span.stop) := by
  obtain ⟨m, kind⟩ := t
  rw [viewed_node]
  rfl

theorem kind_viewed (t : SourceTree) : (t.viewed b).kind = (t.kind.map (viewed b)).blur b := by
  obtain ⟨m, kind⟩ := t
  rw [viewed_node]
  rfl

/-- Positions can be blurred later. -/
theorem blurred_eq_mapMark (t : SourceTree) :
    t.blurred b = (t.viewed b).mapMark fun _ => () := by
  induction t using Tree.induct with
  | step m kind ih =>
    rw [blurred_node, viewed_node, mapMark_node, Kind.map_blur, Kind.map_map,
      Kind.map_congr kind ih]
    rfl

@[simp] theorem viewed_withComments (t : SourceTree) (leading trailing : List Comment) :
    (t.withComments leading trailing).viewed b = t.viewed b := by
  obtain ⟨m, kind⟩ := t
  rw [withComments, viewed_node, viewed_node]
  rfl

@[simp] theorem blurred_withComments (t : SourceTree) (leading trailing : List Comment) :
    (t.withComments leading trailing).blurred b = t.blurred b := by
  obtain ⟨m, kind⟩ := t
  rw [withComments, blurred_node, blurred_node]

end Tree

/-- Spans with the same positions, as far as positions count. -/
structure Blur.SamePlace (b : Blur) (p q : Span) : Prop where
  start : b.place p.start = b.place q.start
  stop : b.place p.stop = b.place q.stop

/-- Tokens that may differ in their offsets and in what is blurred. -/
structure Token.Alike (b : Blur) (t u : Token) : Prop where
  kind : t.kind = u.kind
  name : t.kind = .identifier → b.name t.lexeme = b.name u.lexeme
  literal : (Grammar.literal? t).map b.literal = (Grammar.literal? u).map b.literal
  place : b.SamePlace t.span u.span

theorem Token.alike_of_eof {b : Blur} {t u : Token} (first : t.kind = .eof)
    (second : u.kind = .eof) (place : b.SamePlace t.span u.span) : t.Alike b u := by
  refine ⟨first.trans second.symm, fun name => ?_, ?_, place⟩
  · rw [first] at name
    cases name
  · simp [Grammar.literal?, first, second]

/-- Whether the token can go on with an expression only on the line where that expression ends. -/
def TokenKind.isOpener (kind : TokenKind) : Bool :=
  kind == .lParen || kind == .lBracket

/-- Whether the token is an opener that starts on a later line than the one before it ends. -/
def Token.opensLine (before token : Token) : Bool :=
  token.kind.isOpener && before.span.stop.line < token.span.start.line

/-- Tokens side by side, behind the spans `p` and `q`. -/
inductive Aligned (b : Blur) : Span → Span → List Token → List Token → Prop where
  | nil {p q : Span} : Aligned b p q [] []
  | cons {p q : Span} {t u : Token} {ts us : List Token} (alike : t.Alike b u)
      (breaks : t.kind.isOpener = true →
        (p.stop.line < t.span.start.line ↔ q.stop.line < u.span.start.line))
      (rest : Aligned b t.span u.span ts us) : Aligned b p q (t :: ts) (u :: us)

namespace Cursor

/-- Cursors at the same place of two readings side by side, in which the pairs of tokens that stand
side by side are given. -/
structure Abreast (b : Blur) (pairs : List (Token × Token)) (c d : Cursor) : Prop where
  first : c.EndsFile
  second : d.EndsFile
  aligned : Aligned b c.last d.last c.rest d.rest
  suffix : (c.rest ++ [c.stop]).zip (d.rest ++ [d.stop]) <:+ pairs
  last : b.SamePlace c.last d.last
  stop : b.SamePlace c.stop.span d.stop.span

namespace Abreast

variable {b : Blur} {pairs : List (Token × Token)} {c d : Cursor} (abreast : Abreast b pairs c d)

include abreast

theorem current : c.current.Alike b d.current := by
  obtain ⟨rest, stop, last, comments⟩ := c
  obtain ⟨rest', stop', last', comments'⟩ := d
  cases abreast.aligned with
  | nil => exact Token.alike_of_eof abreast.first abreast.second abreast.stop
  | cons alike breaks rest => exact alike

theorem current_mem : (c.current, d.current) ∈ pairs := by
  obtain ⟨rest, stop, last, comments⟩ := c
  obtain ⟨rest', stop', last', comments'⟩ := d
  refine abreast.suffix.subset ?_
  cases abreast.aligned with
  | nil => exact List.mem_cons_self
  | cons alike breaks rest => exact List.mem_cons_self

theorem following : c.following.kind = d.following.kind := by
  obtain ⟨rest, stop, last, comments⟩ := c
  obtain ⟨rest', stop', last', comments'⟩ := d
  have ends : stop.kind = stop'.kind := abreast.first.trans abreast.second.symm
  cases abreast.aligned with
  | nil => exact ends
  | cons alike breaks rest =>
    cases rest with
    | nil => exact ends
    | cons alike breaks rest => exact alike.kind

theorem breaksLine (opener : c.current.kind.isOpener = true) : c.breaksLine = d.breaksLine := by
  obtain ⟨rest, stop, last, comments⟩ := c
  obtain ⟨rest', stop', last', comments'⟩ := d
  cases abreast.aligned with
  | nil =>
    have ends : stop.kind = .eof := abreast.first
    rw [show Cursor.current _ = stop from rfl, ends] at opener
    cases opener
  | cons alike breaks rest => exact decide_eq_decide.mpr (breaks opener)

theorem advance : Abreast b pairs c.advance d.advance := by
  obtain ⟨rest, stop, last, comments⟩ := c
  obtain ⟨rest', stop', last', comments'⟩ := d
  cases abreast.aligned with
  | nil => exact abreast
  | cons alike breaks rest =>
    exact ⟨abreast.first, abreast.second, rest, (List.suffix_cons _ _).trans abreast.suffix,
      alike.place, abreast.stop⟩

/-- Comments are no tokens. -/
theorem comments (left right : List Comment) :
    Abreast b pairs { c with comments := left } { d with comments := right } :=
  ⟨abreast.first, abreast.second, abreast.aligned, abreast.suffix, abreast.last, abreast.stop⟩

end Abreast

end Cursor

/-- The same tree, as far as its texts count. -/
@[simp] abbrev Blur.Same (b : Blur) (t u : SourceTree) : Prop :=
  t.blurred b = u.blurred b

/-- The same tree, as far as its texts and positions count. -/
@[simp] abbrev Blur.SameView (b : Blur) (t u : SourceTree) : Prop :=
  t.viewed b = u.viewed b

@[simp] abbrev Blur.SameViews (b : Blur) (ts us : List SourceTree) : Prop :=
  ts.map (Tree.viewed b) = us.map (Tree.viewed b)

@[simp] abbrev Blur.SameView? (b : Blur) (t u : Option SourceTree) : Prop :=
  t.map (Tree.viewed b) = u.map (Tree.viewed b)

section SameView

variable {b : Blur} {t u : SourceTree} (same : b.SameView t u)

include same

theorem Blur.SameView.blurred : b.Same t u := by
  rw [Blur.Same, Tree.blurred_eq_mapMark, Tree.blurred_eq_mapMark, same]

theorem Blur.SameView.place : b.SamePlace t.span u.span := by
  have marks := congrArg Tree.mark same
  rw [Tree.mark_viewed, Tree.mark_viewed] at marks
  exact ⟨(Prod.mk.inj marks).1, (Prod.mk.inj marks).2⟩

theorem Blur.SameView.kind :
    (t.kind.map (Tree.viewed b)).blur b = (u.kind.map (Tree.viewed b)).blur b := by
  rw [← Tree.kind_viewed, ← Tree.kind_viewed, same]

theorem Blur.SameView.isTerminal : t.kind.isTerminal = u.kind.isTerminal := by
  have kind := congrArg Kind.isTerminal (Blur.SameView.kind same)
  simpa using kind

theorem Blur.SameView.isCallLike : t.kind.isCallLike = u.kind.isCallLike := by
  have kind := congrArg Kind.isCallLike (Blur.SameView.kind same)
  simpa using kind

end SameView

theorem Blur.SameViews.all_isAssignable {b : Blur} {ts us : List SourceTree}
    (same : b.SameViews ts us) :
    ts.all (·.kind.isAssignable) = us.all (·.kind.isAssignable) := by
  have kinds (t : SourceTree) : (t.viewed b).kind.isAssignable = t.kind.isAssignable := by
    rw [Tree.kind_viewed, Kind.isAssignable_blur, Kind.isAssignable_map]
  have all := congrArg (List.all · (·.kind.isAssignable)) same
  simpa [List.all_map, Function.comp_def, kinds] using all

/-- Nodes with the same kind and the same positions. -/
theorem Blur.sameView_node {b : Blur} {m n : Origin} {k l : Kind SourceTree}
    (place : b.SamePlace m.span n.span)
    (same : (k.map (Tree.viewed b)).blur b = (l.map (Tree.viewed b)).blur b) :
    b.SameView (.node m k) (.node n l) := by
  rw [Blur.SameView, Tree.viewed_node, Tree.viewed_node, place.start, place.stop, same]

theorem Blur.SamePlace.through {b : Blur} {p q p' q' : Span} (first : b.SamePlace p q)
    (last : b.SamePlace p' q') : b.SamePlace (p.through p') (q.through q') :=
  ⟨first.start, last.stop⟩

theorem Blur.sameView_binary {b : Blur} {op : BinaryOp} {l r l' r' : SourceTree}
    (left : b.SameView l l') (right : b.SameView r r') :
    b.SameView (Grammar.binary op l r) (Grammar.binary op l' r') :=
  sameView_node (left.place.through right.place) (by simp [Kind.map, left, right])

theorem Blur.SamePlace.atStart {b : Blur} {p q : Span} (place : b.SamePlace p q) :
    b.SamePlace p.atStart q.atStart :=
  ⟨place.start, place.start⟩

namespace TokenReader

variable {α β γ δ : Type} {b : Blur} {pairs : List (Token × Token)} {R : α → β → Prop}
  {S : γ → δ → Prop}

/-- Two outcomes of reading with cursors abreast: values that are related, or the same error at the
tokens in front. -/
inductive Matched (b : Blur) (pairs : List (Token × Token)) (R : α → β → Prop) :
    Except Failure (α × Cursor) → Except Failure (β × Cursor) → Prop where
  | ok {x : α} {y : β} {c d : Cursor} (related : R x y) (abreast : c.Abreast b pairs d) :
      Matched b pairs R (.ok (x, c)) (.ok (y, d))
  | error {c d : Cursor} (cause : Cause) (abreast : c.Abreast b pairs d) :
      Matched b pairs R (.error ⟨⟨cause, c.current.kind, c.current.span.start⟩, c⟩)
        (.error ⟨⟨cause, d.current.kind, d.current.span.start⟩, d⟩)

/-- Two readers have matching outcomes from cursors abreast. -/
def Agree (b : Blur) (pairs : List (Token × Token)) (R : α → β → Prop) (x : TokenReader α)
    (y : TokenReader β) : Prop :=
  ∀ c d : Cursor, c.Abreast b pairs d → Matched b pairs R (x.run c) (y.run d)

theorem agree_pure {x : α} {y : β} (related : R x y) : Agree b pairs R (pure x) (pure y) :=
  fun _ _ abreast => .ok related abreast

theorem Agree.bind {x : TokenReader α} {y : TokenReader β} {f : α → TokenReader γ}
    {g : β → TokenReader δ} (first : Agree b pairs R x y)
    (second : ∀ v w, R v w → Agree b pairs S (f v) (g w)) :
    Agree b pairs S (x >>= f) (y >>= g) := by
  intro c d abreast
  rw [StateT.run_bind, StateT.run_bind]
  have matched := first c d abreast
  generalize x.run c = left at matched
  generalize y.run d = right at matched
  cases matched with
  | ok related abreast => exact second _ _ related _ _ abreast
  | error cause abreast => exact .error cause abreast

/-- A reader that gives both readings the same value. -/
theorem Agree.bind_eq {x : TokenReader α} {f : α → TokenReader γ} {g : α → TokenReader δ}
    (first : Agree b pairs Eq x x) (second : ∀ v, Agree b pairs S (f v) (g v)) :
    Agree b pairs S (x >>= f) (x >>= g) :=
  first.bind fun v _ same => same ▸ second v

theorem Agree.ite {p : Prop} [Decidable p] {x x' : TokenReader α} {y y' : TokenReader β}
    (yes : Agree b pairs R x y) (no : Agree b pairs R x' y') :
    Agree b pairs R (if p then x else x') (if p then y else y') := by
  split
  · exact yes
  · exact no

/-- Two ways to a value, and what is done with it. -/
theorem Agree.ite_bind {p : Prop} [Decidable p] {x x' : TokenReader α} {y y' : TokenReader β}
    {f : α → TokenReader γ} {g : β → TokenReader δ} (yes : Agree b pairs R x y)
    (no : Agree b pairs R x' y') (further : ∀ v w, R v w → Agree b pairs S (f v) (g w)) :
    Agree b pairs S (if p then x >>= f else x' >>= f) (if p then y >>= g else y' >>= g) :=
  .ite (yes.bind further) (no.bind further)

theorem agree_fail (cause : Cause) : Agree b pairs R (fail cause) (fail cause) :=
  fun _ _ abreast => .error cause abreast

theorem agree_getThe : Agree b pairs (Cursor.Abreast b pairs) (getThe Cursor) (getThe Cursor) :=
  fun _ _ abreast => .ok abreast abreast

theorem agree_peek : Agree b pairs (Token.Alike b) peek peek :=
  fun _ _ abreast => .ok abreast.current abreast

theorem agree_peekKind : Agree b pairs Eq peekKind peekKind :=
  fun _ _ abreast => .ok abreast.current.kind abreast

theorem agree_followingKind : Agree b pairs Eq followingKind followingKind :=
  fun _ _ abreast => .ok abreast.following abreast

theorem agree_next : Agree b pairs (Token.Alike b) next next :=
  fun _ _ abreast => .ok abreast.current abreast.advance

theorem agree_accept (kind : TokenKind) : Agree b pairs Eq (accept kind) (accept kind) :=
  agree_peekKind.bind_eq fun _ =>
    .ite (agree_next.bind fun _ _ _ => agree_pure rfl) (agree_pure rfl)

theorem agree_expect (kind : TokenKind) (cause : Cause) :
    Agree b pairs (fun t u => t.kind = kind ∧ t.Alike b u) (expect kind cause)
      (expect kind cause) := by
  intro c d abreast
  change Matched _ _ _
    ((if c.current.kind = kind then next else fail cause : TokenReader Token).run c)
    ((if d.current.kind = kind then next else fail cause : TokenReader Token).run d)
  rw [← abreast.current.kind]
  split
  · next there => exact .ok ⟨there, abreast.current⟩ abreast.advance
  · exact agree_fail cause c d abreast

theorem agree_make {m n : Origin} (place : b.SamePlace m.span n.span) {k l : Kind SourceTree}
    (same : (k.map (Tree.viewed b)).blur b = (l.map (Tree.viewed b)).blur b) :
    Agree b pairs b.SameView (make m k) (make n l) :=
  agree_pure (Blur.sameView_node place same)

theorem agree_spanOf {t u : SourceTree} (same : b.SameView t u) :
    Agree b pairs b.SamePlace (spanOf t) (spanOf u) :=
  agree_pure (Blur.SameView.place same)

/-- What is looked at of the kind of a node. -/
theorem agree_kindOf {t u : SourceTree} (same : b.SameView t u) :
    Agree b pairs (fun k l => k.isTerminal = l.isTerminal ∧ k.isCallLike = l.isCallLike) (kindOf t)
      (kindOf u) :=
  agree_pure ⟨Blur.SameView.isTerminal same, Blur.SameView.isCallLike same⟩

theorem agree_attach {t u : SourceTree} (leading leading' trailing trailing' : List Comment)
    (same : b.SameView t u) :
    Agree b pairs b.SameView (attach t leading trailing) (attach u leading' trailing') :=
  agree_pure (by simpa using same)

theorem agree_nodeFrom {p q : Span} (place : b.SamePlace p q) {k l : Kind SourceTree}
    (same : (k.map (Tree.viewed b)).blur b = (l.map (Tree.viewed b)).blur b) :
    Agree b pairs b.SameView (nodeFrom p k) (nodeFrom q l) :=
  fun _ _ abreast => .ok (Blur.sameView_node (place.through abreast.last) same) abreast

theorem agree_atBlockEnd : Agree b pairs Eq atBlockEnd atBlockEnd := by
  refine agree_peekKind.bind_eq fun kind => ?_
  split <;> exact agree_pure rfl

theorem agree_takeLeading : Agree b pairs (fun _ _ => True) takeLeading takeLeading :=
  fun _ _ abreast => .ok trivial (abreast.comments _ _)

theorem agree_takeTrailing : Agree b pairs (fun _ _ => True) takeTrailing takeTrailing :=
  fun _ _ abreast => .ok trivial (abreast.comments _ _)

end TokenReader

namespace Grammar

open TokenReader

/-- The rules yield the same from cursors abreast. -/
structure RulesAgree (b : Blur) (pairs : List (Token × Token)) (rules : Rules) : Prop where
  block : Agree b pairs b.SameView (rules _ .block) (rules _ .block)
  statements : Agree b pairs b.SameViews (rules _ .statements) (rules _ .statements)
  statement : Agree b pairs b.SameView (rules _ .statement) (rules _ .statement)
  elseIfs : Agree b pairs b.SameViews (rules _ .elseIfs) (rules _ .elseIfs)
  moreTargets : Agree b pairs b.SameViews (rules _ .moreTargets) (rules _ .moreTargets)
  moreNames : ∀ cause,
    Agree b pairs b.SameViews (rules _ (.moreNames cause)) (rules _ (.moreNames cause))
  dottedName : ∀ t u, b.SameView t u →
    Agree b pairs b.SameView (rules _ (.dottedName t)) (rules _ (.dottedName u))
  expressions : Agree b pairs b.SameViews (rules _ .expressions) (rules _ .expressions)
  moreExpressions : Agree b pairs b.SameViews (rules _ .moreExpressions) (rules _ .moreExpressions)
  expression : ∀ level,
    Agree b pairs b.SameView (rules _ (.expression level)) (rules _ (.expression level))
  operators : ∀ level t u, b.SameView t u →
    Agree b pairs b.SameView (rules _ (.operators level t)) (rules _ (.operators level u))
  suffixes : ∀ t u, b.SameView t u →
    Agree b pairs b.SameView (rules _ (.suffixes t)) (rules _ (.suffixes u))
  fields : Agree b pairs b.SameViews (rules _ .fields) (rules _ .fields)
  parameters : Agree b pairs b.SameViews (rules _ .parameters) (rules _ .parameters)

variable {b : Blur} {pairs : List (Token × Token)} {rules : Rules}

theorem agree_name (cause : Cause) : Agree b pairs b.SameView (name cause) (name cause) := by
  refine (agree_expect .identifier cause).bind fun t u alike => ?_
  exact agree_make alike.2.place (by simp [Kind.map, Kind.blur, alike.2.name alike.1])

section Productions

variable (agree : RulesAgree b pairs rules)

include agree

theorem agree_expressions : Agree b pairs b.SameViews (expressions rules) (expressions rules) := by
  refine (agree.expression 1).bind fun t u same => ?_
  refine agree.moreExpressions.bind fun ts us more => ?_
  exact agree_pure (by simp [same, more])

theorem agree_moreExpressions :
    Agree b pairs b.SameViews (moreExpressions rules) (moreExpressions rules) := by
  refine (agree_accept .comma).bind_eq fun comma => ?_
  exact .ite agree.expressions (agree_pure rfl)

theorem agree_arguments (cause : Cause) :
    Agree b pairs b.SameViews (arguments rules cause) (arguments rules cause) := by
  refine agree_peekKind.bind_eq fun kind => ?_
  refine Agree.ite_bind (R := b.SameViews) (agree_pure rfl) agree.expressions fun ts us same => ?_
  exact (agree_expect .rParen cause).bind fun _ _ _ => agree_pure same

theorem agree_parameters :
    Agree b pairs b.SameViews (parameters rules) (parameters rules) := by
  refine agree_peekKind.bind_eq fun kind => Agree.ite ?_ ?_
  · refine agree_next.bind fun p q alike => ?_
    refine (agree_make (k := .varArg) (l := .varArg) alike.place rfl).bind fun t u same => ?_
    exact agree_pure (by simp [same])
  · refine (agree_name .parameterName).bind fun t u same => ?_
    refine (agree_accept .comma).bind_eq fun comma => Agree.ite ?_ ?_
    · exact agree.parameters.bind fun ts us more => agree_pure (by simp [same, more])
    · exact agree_pure (by simp [same])

theorem agree_functionBody :
    Agree b pairs (fun f g => b.SameViews f.1 g.1 ∧ b.SameView f.2 g.2) (functionBody rules)
      (functionBody rules) := by
  refine (agree_expect .lParen .openParameters).bind fun _ _ _ => ?_
  refine agree_peekKind.bind_eq fun kind => ?_
  refine Agree.ite_bind (R := b.SameViews) (agree_pure rfl) agree.parameters fun ps qs same => ?_
  refine (agree_expect .rParen .closeParameters).bind fun _ _ _ => ?_
  refine agree.block.bind fun t u body => ?_
  exact (agree_expect .endKw .endOfFunction).bind fun _ _ _ => agree_pure ⟨same, body⟩

theorem agree_field : Agree b pairs b.SameView (field rules) (field rules) := by
  refine agree_peek.bind fun p q alike => ?_
  refine (agree_accept .lBracket).bind_eq fun bracket => Agree.ite ?_ ?_
  · refine (agree.expression 1).bind fun key key' sameKey => ?_
    refine (agree_expect .rBracket .closeKey).bind fun _ _ _ => ?_
    refine (agree_expect .assign .assignAfterKey).bind fun _ _ _ => ?_
    refine (agree.expression 1).bind fun value value' sameValue => ?_
    exact agree_nodeFrom alike.place (by simp [Kind.map, sameKey, sameValue])
  · refine agree_peekKind.bind_eq fun kind => ?_
    refine agree_followingKind.bind_eq fun following => Agree.ite ?_ ?_
    · refine (agree_name .name).bind fun key key' sameKey => ?_
      refine agree_next.bind fun _ _ _ => ?_
      refine (agree.expression 1).bind fun value value' sameValue => ?_
      exact agree_nodeFrom alike.place (by simp [Kind.map, sameKey, sameValue])
    · refine (agree.expression 1).bind fun value value' sameValue => ?_
      exact agree_nodeFrom alike.place (by simp [Kind.map, sameValue])

theorem agree_fields : Agree b pairs b.SameViews (fields rules) (fields rules) := by
  refine agree_peekKind.bind_eq fun kind => ?_
  split
  · exact agree_pure rfl
  · exact agree_pure rfl
  · refine (agree_field agree).bind fun t u same => ?_
    refine agree_peekKind.bind_eq fun kind => ?_
    split
    · refine agree_next.bind fun _ _ _ => ?_
      exact agree.fields.bind fun ts us more => agree_pure (by simp [same, more])
    · refine agree_next.bind fun _ _ _ => ?_
      exact agree.fields.bind fun ts us more => agree_pure (by simp [same, more])
    · exact agree_pure (by simp [same])

theorem agree_primary : Agree b pairs b.SameView (primary rules) (primary rules) := by
  refine agree_peek.bind fun p q alike => ?_
  have literals := alike.literal
  cases first : literal? p with
  | some l =>
    obtain ⟨l', second, same⟩ : ∃ l', literal? q = some l' ∧ b.literal l' = b.literal l := by
      simpa [first, eq_comm] using literals
    rw [second]
    refine agree_next.bind fun _ _ _ => ?_
    exact agree_make alike.place (by simp [Kind.map, Kind.blur, same])
  | none =>
    have second : literal? q = none :=
      Option.map_eq_none_iff.mp (by rw [← literals, first]; rfl)
    rw [second, ← alike.kind]
    dsimp only
    split
    · exact agree_name .name
    · exact agree_next.bind fun _ _ _ => agree_make alike.place rfl
    · refine agree_next.bind fun _ _ _ => ?_
      refine agree.fields.bind fun ts us same => ?_
      refine (agree_expect .rBrace .closeTable).bind fun _ _ _ => ?_
      exact agree_nodeFrom alike.place (by simp [Kind.map, same])
    · refine agree_next.bind fun _ _ _ => ?_
      refine (agree_functionBody agree).bind fun f g same => ?_
      exact agree_nodeFrom alike.place (by simp [Kind.map, same.1, same.2])
    · refine agree_next.bind fun _ _ _ => ?_
      refine (agree.expression 1).bind fun t u same => ?_
      refine (agree_expect .rParen .closeParen).bind fun _ _ _ => ?_
      exact agree_nodeFrom alike.place (by simp [Kind.map, same])
    · exact agree_fail .expression

/-- The one place where a line break matters. -/
theorem agree_suffixes {t u : SourceTree} (head : b.SameView t u) :
    Agree b pairs b.SameView (suffixes rules t) (suffixes rules u) := by
  refine agree_getThe.bind fun c d abreast => ?_
  refine (agree_spanOf head).bind fun start start' place => ?_
  have kind := abreast.current.kind
  have breaks := abreast.breaksLine
  rw [← kind]
  split
  · next opener =>
    rw [breaks (by rw [opener]; rfl)]
    refine Agree.ite (agree_pure head) ?_
    refine agree_next.bind fun _ _ _ => ?_
    refine (agree_arguments agree .closeArguments).bind fun ts us same => ?_
    refine (agree_nodeFrom place (by simp [Kind.map, head, same])).bind fun _ _ call => ?_
    exact agree.suffixes _ _ call
  · next opener =>
    rw [breaks (by rw [opener]; rfl)]
    refine Agree.ite (agree_pure head) ?_
    refine agree_next.bind fun _ _ _ => ?_
    refine (agree.expression 1).bind fun key key' same => ?_
    refine (agree_expect .rBracket .closeKey).bind fun _ _ _ => ?_
    refine (agree_nodeFrom place (by simp [Kind.map, head, same])).bind fun _ _ access => ?_
    exact agree.suffixes _ _ access
  · refine agree_next.bind fun _ _ _ => ?_
    refine (agree_name .nameAfterDot).bind fun key key' same => ?_
    refine (agree_nodeFrom place (by simp [Kind.map, head, same])).bind fun _ _ access => ?_
    exact agree.suffixes _ _ access
  · refine agree_next.bind fun _ _ _ => ?_
    refine (agree_name .methodName).bind fun method method' sameMethod => ?_
    refine (agree_expect .lParen .openMethodArguments).bind fun _ _ _ => ?_
    refine (agree_arguments agree .closeMethodArguments).bind fun ts us same => ?_
    refine (agree_nodeFrom place (by simp [Kind.map, head, sameMethod, same])).bind
      fun _ _ call => ?_
    exact agree.suffixes _ _ call
  · exact agree_pure head

omit agree in
theorem agree_operation {op : BinaryOp} {l r l' r' : SourceTree} (left : b.SameView l l')
    (right : b.SameView r r') :
    Agree b pairs b.SameView (operation op l r) (operation op l' r') :=
  agree_pure (Blur.sameView_binary left right)

theorem agree_prefixExpression :
    Agree b pairs b.SameView (prefixExpression rules) (prefixExpression rules) :=
  (agree_primary agree).bind fun t u same => agree.suffixes t u same

theorem agree_power : Agree b pairs b.SameView (power rules) (power rules) := by
  refine (agree_prefixExpression agree).bind fun left left' sameLeft => ?_
  refine agree_peekKind.bind_eq fun kind => ?_
  split
  · refine agree_next.bind fun _ _ _ => ?_
    refine (agree.expression unaryLevel).bind fun right right' sameRight => ?_
    exact agree_operation sameLeft sameRight
  · exact agree_pure sameLeft

theorem agree_unary : Agree b pairs b.SameView (unary rules) (unary rules) := by
  refine agree_peek.bind fun p q alike => ?_
  rw [← alike.kind]
  split
  · refine agree_next.bind fun _ _ _ => ?_
    refine (agree.expression unaryLevel).bind fun t u same => ?_
    refine (agree_spanOf same).bind fun _ _ place => ?_
    exact agree_make (alike.place.through place) (by simp [Kind.map, same])
  · exact agree_power agree

theorem agree_operators (level : Nat) {t u : SourceTree} (left : b.SameView t u) :
    Agree b pairs b.SameView (operators rules level t) (operators rules level u) := by
  refine agree_peekKind.bind_eq fun kind => ?_
  split
  · exact agree_pure left
  · refine agree_next.bind fun _ _ _ => ?_
    split
    · refine (agree.expression (level + 1)).bind fun right right' same => ?_
      refine (agree_operation left same).bind fun _ _ both => ?_
      exact agree.operators level _ _ both
    · exact (agree.expression level).bind fun right right' same => agree_operation left same
    · exact (agree.expression (level + 1)).bind fun right right' same => agree_operation left same

theorem agree_ladder (level : Nat) :
    Agree b pairs b.SameView (ladder rules level) (ladder rules level) := by
  refine Agree.ite ?_ (agree_unary agree)
  exact (agree.expression (level + 1)).bind fun t u same => agree.operators level t u same

theorem agree_moreNames (cause : Cause) :
    Agree b pairs b.SameViews (moreNames rules cause) (moreNames rules cause) := by
  refine (agree_accept .comma).bind_eq fun comma => Agree.ite ?_ (agree_pure rfl)
  refine (agree_name cause).bind fun t u same => ?_
  exact (agree.moreNames cause).bind fun ts us more => agree_pure (by simp [same, more])

theorem agree_moreTargets : Agree b pairs b.SameViews (moreTargets rules) (moreTargets rules) := by
  refine (agree_accept .comma).bind_eq fun comma => Agree.ite ?_ (agree_pure rfl)
  refine (agree_prefixExpression agree).bind fun t u same => ?_
  exact agree.moreTargets.bind fun ts us more => agree_pure (by simp [same, more])

theorem agree_localStatement :
    Agree b pairs b.SameView (localStatement rules) (localStatement rules) := by
  refine agree_next.bind fun p q alike => ?_
  refine (agree_accept .functionKw).bind_eq fun function => Agree.ite ?_ ?_
  · refine (agree_name .localFunctionName).bind fun t u sameName => ?_
    refine (agree_functionBody agree).bind fun f g same => ?_
    exact agree_nodeFrom alike.place (by simp [Kind.map, sameName, same.1, same.2])
  · refine (agree_name .localName).bind fun t u same => ?_
    refine (agree.moreNames .name).bind fun ts us more => ?_
    refine (agree_accept .assign).bind_eq fun assign => ?_
    refine Agree.ite_bind (R := b.SameViews) agree.expressions (agree_pure rfl)
      fun vs ws values => ?_
    exact agree_nodeFrom alike.place (by simp [Kind.map, same, more, values])

theorem agree_dottedName {t u : SourceTree} (head : b.SameView t u) :
    Agree b pairs b.SameView (dottedName rules t) (dottedName rules u) := by
  refine (agree_spanOf head).bind fun start start' place => ?_
  refine agree_peekKind.bind_eq fun kind => ?_
  split
  · refine agree_next.bind fun _ _ _ => ?_
    refine (agree_name .nameAfterDot).bind fun key key' same => ?_
    refine (agree_nodeFrom place (by simp [Kind.map, head, same])).bind fun _ _ access => ?_
    exact agree.dottedName _ _ access
  · refine agree_next.bind fun _ _ _ => ?_
    refine (agree_name .methodName).bind fun method method' same => ?_
    exact agree_nodeFrom place (by simp [Kind.map, head, same])
  · exact agree_pure head

theorem agree_functionStatement :
    Agree b pairs b.SameView (functionStatement rules) (functionStatement rules) := by
  refine agree_next.bind fun p q alike => ?_
  refine (agree_name .functionName).bind fun first first' sameFirst => ?_
  refine (agree.dottedName _ _ sameFirst).bind fun t u sameName => ?_
  refine (agree_functionBody agree).bind fun f g same => ?_
  exact agree_nodeFrom alike.place (by simp [Kind.map, sameName, same.1, same.2])

theorem agree_returnStatement :
    Agree b pairs b.SameView (returnStatement rules) (returnStatement rules) := by
  refine agree_next.bind fun p q alike => ?_
  refine agree_peekKind.bind_eq fun kind => ?_
  refine agree_atBlockEnd.bind_eq fun stop => ?_
  refine Agree.ite_bind (R := b.SameViews) (agree_pure rfl) agree.expressions fun ts us same => ?_
  exact agree_nodeFrom alike.place (by simp [Kind.map, same])

theorem agree_doStatement : Agree b pairs b.SameView (doStatement rules) (doStatement rules) := by
  refine agree_next.bind fun p q alike => ?_
  refine agree.block.bind fun t u same => ?_
  refine (agree_expect .endKw .endOfDo).bind fun _ _ _ => ?_
  exact agree_nodeFrom alike.place (by simp [Kind.map, same])

theorem agree_elseIfs : Agree b pairs b.SameViews (elseIfs rules) (elseIfs rules) := by
  refine agree_peekKind.bind_eq fun kind => Agree.ite ?_ (agree_pure rfl)
  refine agree_next.bind fun p q alike => ?_
  refine (agree.expression 1).bind fun condition condition' sameCondition => ?_
  refine (agree_expect .thenKw .thenAfterElseIf).bind fun _ _ _ => ?_
  refine agree.block.bind fun body body' sameBody => ?_
  refine (agree_nodeFrom alike.place (by simp [Kind.map, sameCondition, sameBody])).bind
    fun t u same => ?_
  exact agree.elseIfs.bind fun ts us more => agree_pure (by simp [same, more])

theorem agree_elseClause : Agree b pairs b.SameView? (elseClause? rules) (elseClause? rules) := by
  refine agree_peekKind.bind_eq fun kind => Agree.ite ?_ (agree_pure rfl)
  refine agree_next.bind fun p q alike => ?_
  refine agree.block.bind fun body body' same => ?_
  refine (agree_nodeFrom alike.place (by simp [Kind.map, same])).bind fun t u clause => ?_
  exact agree_pure (by simp [clause])

theorem agree_ifStatement : Agree b pairs b.SameView (ifStatement rules) (ifStatement rules) := by
  refine agree_next.bind fun p q alike => ?_
  refine (agree.expression 1).bind fun condition condition' sameCondition => ?_
  refine (agree_expect .thenKw .thenAfterIf).bind fun _ _ _ => ?_
  refine agree.block.bind fun body body' sameBody => ?_
  refine agree.elseIfs.bind fun clauses clauses' sameClauses => ?_
  refine (agree_elseClause agree).bind fun branch branch' sameBranch => ?_
  refine (agree_expect .endKw .endOfIf).bind fun _ _ _ => ?_
  exact agree_nodeFrom alike.place
    (by simp [Kind.map, sameCondition, sameBody, sameClauses, sameBranch])

theorem agree_whileStatement :
    Agree b pairs b.SameView (whileStatement rules) (whileStatement rules) := by
  refine agree_next.bind fun p q alike => ?_
  refine (agree.expression 1).bind fun condition condition' sameCondition => ?_
  refine (agree_expect .doKw .doAfterWhile).bind fun _ _ _ => ?_
  refine agree.block.bind fun body body' sameBody => ?_
  refine (agree_expect .endKw .endOfWhile).bind fun _ _ _ => ?_
  exact agree_nodeFrom alike.place (by simp [Kind.map, sameCondition, sameBody])

theorem agree_repeatStatement :
    Agree b pairs b.SameView (repeatStatement rules) (repeatStatement rules) := by
  refine agree_next.bind fun p q alike => ?_
  refine agree.block.bind fun body body' sameBody => ?_
  refine (agree_expect .untilKw .untilAfterRepeat).bind fun _ _ _ => ?_
  refine (agree.expression 1).bind fun condition condition' sameCondition => ?_
  exact agree_nodeFrom alike.place (by simp [Kind.map, sameCondition, sameBody])

theorem agree_forBody : Agree b pairs b.SameView (forBody rules) (forBody rules) := by
  refine (agree_expect .doKw .doAfterFor).bind fun _ _ _ => ?_
  refine agree.block.bind fun body body' same => ?_
  exact (agree_expect .endKw .endOfFor).bind fun _ _ _ => agree_pure same

theorem agree_forStatement :
    Agree b pairs b.SameView (forStatement rules) (forStatement rules) := by
  refine agree_next.bind fun p q alike => ?_
  refine agree_followingKind.bind_eq fun following => ?_
  refine (agree_name .forName).bind fun first first' sameFirst => Agree.ite ?_ ?_
  · refine agree_next.bind fun _ _ _ => ?_
    refine (agree.expression 1).bind fun start start' sameStart => ?_
    refine (agree_expect .comma .commaAfterStart).bind fun _ _ _ => ?_
    refine (agree.expression 1).bind fun limit limit' sameLimit => ?_
    refine (agree_accept .comma).bind_eq fun comma => ?_
    refine Agree.ite_bind (R := b.SameView?) ?_ (agree_pure rfl) fun step step' sameStep => ?_
    · exact (agree.expression 1).bind fun t u same => agree_pure (by simp [same])
    · refine (agree_forBody agree).bind fun body body' sameBody => ?_
      exact agree_nodeFrom alike.place
        (by simp [Kind.map, sameFirst, sameStart, sameLimit, sameStep, sameBody])
  · refine (agree.moreNames .loopVariable).bind fun names names' sameNames => ?_
    refine (agree_expect .inKw .inAfterNames).bind fun _ _ _ => ?_
    refine agree.expressions.bind fun iterators iterators' sameIterators => ?_
    refine (agree_forBody agree).bind fun body body' sameBody => ?_
    exact agree_nodeFrom alike.place
      (by simp [Kind.map, sameFirst, sameNames, sameIterators, sameBody])

omit agree in
theorem agree_checkAssignable {ts us : List SourceTree} (same : b.SameViews ts us) :
    Agree b pairs Eq (checkAssignable ts) (checkAssignable us) := by
  rw [checkAssignable_eq, checkAssignable_eq, Blur.SameViews.all_isAssignable same]
  exact .ite (agree_pure rfl) (agree_fail .assignTarget)

theorem agree_expressionStatement :
    Agree b pairs b.SameView (expressionStatement rules) (expressionStatement rules) := by
  refine agree_peek.bind fun p q alike => ?_
  refine (agree_prefixExpression agree).bind fun first first' sameFirst => ?_
  refine agree.moreTargets.bind fun more more' sameMore => ?_
  refine agree_peekKind.bind_eq fun kind => Agree.ite ?_ ?_
  · have targets : b.SameViews (first :: more) (first' :: more') := by simp [sameFirst, sameMore]
    refine (agree_checkAssignable targets).bind fun _ _ _ => ?_
    refine agree_next.bind fun _ _ _ => ?_
    refine agree.expressions.bind fun values values' sameValues => ?_
    exact agree_nodeFrom alike.place (by simp [Kind.map, sameFirst, sameMore, sameValues])
  · cases more with
    | nil =>
      obtain rfl : more' = [] := by simpa using sameMore
      cases kind.assignOp? with
      | some op =>
        refine (agree_checkAssignable (by simp [sameFirst])).bind fun _ _ _ => ?_
        refine agree_next.bind fun _ _ _ => ?_
        refine (agree.expression 1).bind fun value value' sameValue => ?_
        exact agree_nodeFrom alike.place (by simp [Kind.map, sameFirst, sameValue])
      | none =>
        refine (agree_kindOf sameFirst).bind fun k l sameKind => ?_
        rw [sameKind.2]
        refine .ite ?_ (agree_fail .statement)
        exact agree_nodeFrom alike.place (by simp [Kind.map, sameFirst])
    | cons t ts =>
      cases more' with
      | nil => exact absurd sameMore (by simp)
      | cons u us => exact agree_fail .statement

theorem agree_statement : Agree b pairs b.SameView (statement rules) (statement rules) := by
  refine agree_peekKind.bind_eq fun kind => ?_
  split
  · exact agree_localStatement agree
  · exact agree_functionStatement agree
  · exact agree_returnStatement agree
  · exact agree_next.bind fun _ _ alike => agree_make alike.place rfl
  · exact agree_next.bind fun _ _ alike => agree_make alike.place rfl
  · exact agree_doStatement agree
  · exact agree_ifStatement agree
  · exact agree_whileStatement agree
  · exact agree_repeatStatement agree
  · exact agree_forStatement agree
  · exact agree_expressionStatement agree

theorem agree_statements : Agree b pairs b.SameViews (statements rules) (statements rules) := by
  refine agree_atBlockEnd.bind_eq fun stop => Agree.ite (agree_pure rfl) ?_
  refine agree_takeLeading.bind fun leading leading' _ => ?_
  refine agree.statement.bind fun t u same => ?_
  refine (agree_accept .semicolon).bind_eq fun _ => ?_
  refine agree_takeTrailing.bind fun trailing trailing' _ => ?_
  refine (agree_attach leading leading' trailing trailing' same).bind fun t u same => ?_
  refine (agree_kindOf same).bind fun k l sameKind => ?_
  refine agree_atBlockEnd.bind_eq fun stop => ?_
  rw [sameKind.1]
  refine Agree.ite ?_ ?_
  · exact (agree_fail (R := fun _ _ => False) .afterTerminal).bind fun _ _ never => never.elim
  · refine agree.statements.bind fun ts us more => agree_pure ?_
    simp [same, more]

omit agree in
theorem samePlace_blockSpan {p q : Span} (place : b.SamePlace p q) {ts us : List SourceTree}
    (same : b.SameViews ts us) : b.SamePlace (blockSpan p ts) (blockSpan q us) := by
  have first : b.SameView? ts.head? us.head? := by
    simpa [List.head?_map] using congrArg List.head? same
  have last : b.SameView? ts.getLast? us.getLast? := by
    simpa [List.getLast?_map] using congrArg List.getLast? same
  cases ts with
  | nil =>
    obtain rfl : us = [] := by simpa using same
    exact place.atStart
  | cons t ts =>
    cases us with
    | nil => exact absurd same (by simp)
    | cons u us =>
      simp only [blockSpan, List.head?_cons, List.getLast?_cons, Blur.SameView?,
        Option.map_some, Option.some.injEq] at first last ⊢
      exact (Blur.SameView.place first).through (Blur.SameView.place last)

theorem agree_block : Agree b pairs b.SameView (block rules) (block rules) := by
  refine agree_peek.bind fun p q alike => ?_
  refine agree.statements.bind fun ts us same => ?_
  rw [spanOfBlock_eq, spanOfBlock_eq]
  refine (agree_pure (samePlace_blockSpan alike.place same)).bind fun _ _ place => ?_
  refine agree_takeLeading.bind fun _ _ _ => ?_
  exact agree_make place (by simp [Kind.map, same])

theorem agree_chunk : Agree b pairs b.SameView (chunk rules) (chunk rules) := by
  refine agree_peek.bind fun p q alike => ?_
  refine agree.block.bind fun t u same => ?_
  refine agree_peekKind.bind_eq fun kind => Agree.ite ?_ ?_
  · exact (agree_fail (R := fun _ _ => False) .endOfFile).bind fun _ _ never => never.elim
  · refine agree_peek.bind fun _ _ stop => ?_
    exact agree_make (alike.place.through stop.place) (by simp [Kind.map, same])

end Productions

/-- One application of the productions keeps the agreement. -/
theorem RulesAgree.step (agree : RulesAgree b pairs rules) : RulesAgree b pairs (step rules) where
  block := agree_block agree
  statements := agree_statements agree
  statement := agree_statement agree
  elseIfs := agree_elseIfs agree
  moreTargets := agree_moreTargets agree
  moreNames := agree_moreNames agree
  dottedName _ _ head := agree_dottedName agree head
  expressions := agree_expressions agree
  moreExpressions := agree_moreExpressions agree
  expression := agree_ladder agree
  operators level _ _ left := agree_operators agree level left
  suffixes _ _ head := agree_suffixes agree head
  fields := agree_fields agree
  parameters := agree_parameters agree

theorem rulesAgree (depth : Nat) : RulesAgree b pairs (Grammar.rules depth) := by
  induction depth with
  | zero => constructor <;> intros <;> exact agree_fail .nesting
  | succ depth ih => exact ih.step

end Grammar

theorem Aligned.length_eq {b : Blur} {p q : Span} {ts us : List Token}
    (aligned : Aligned b p q ts us) : ts.length = us.length := by
  induction aligned with
  | nil => rfl
  | cons alike breaks rest ih => rw [List.length_cons, List.length_cons, ih]

theorem Aligned.of_append {b : Blur} {p q : Span} {ts us xs ys : List Token}
    (aligned : Aligned b p q (ts ++ xs) (us ++ ys)) (length : ts.length = us.length) :
    Aligned b p q ts us := by
  induction ts generalizing us p q with
  | nil =>
    obtain rfl : us = [] := List.length_eq_zero_iff.mp length.symm
    exact .nil
  | cons t ts ih =>
    cases us with
    | nil => exact absurd length (by simp)
    | cons u us =>
      cases aligned with
      | cons alike breaks rest => exact .cons alike breaks (ih rest (Nat.succ.inj length))

/-- Tokens are side by side if they are alike one by one and the same of them open lines. -/
theorem aligned_of_forall₂ {b : Blur} {ts us : List Token}
    (alike : List.Forall₂ (Token.Alike b) ts us) {p q : Span}
    (first : ∀ t ∈ ts.head?, ∀ u ∈ us.head?, t.kind.isOpener = true →
      (p.stop.line < t.span.start.line ↔ q.stop.line < u.span.start.line))
    (breaks : List.zipWith Token.opensLine ts ts.tail = List.zipWith Token.opensLine us us.tail) :
    Aligned b p q ts us := by
  induction alike generalizing p q with
  | nil => exact .nil
  | @cons t u ts us here rest ih =>
    refine .cons here (first t rfl u rfl) ?_
    cases rest with
    | nil => exact .nil
    | @cons t' u' ts us here' rest =>
      obtain ⟨next, later⟩ := List.cons.inj breaks
      refine ih (fun x head y head' opener => ?_) later
      obtain rfl := Option.some.inj head
      obtain rfl := Option.some.inj head'
      rw [Token.opensLine, Token.opensLine, ← here'.kind, opener, Bool.true_and, Bool.true_and]
        at next
      exact decide_eq_decide.mp next

/-- What a rule reads, it reads from a cursor abreast too, up to a cursor abreast. -/
theorem Grammar.exists_derives_abreast {b : Blur} {pairs : List (Token × Token)} {c c' d : Cursor}
    {t : SourceTree} {rule : Rule SourceTree} (abreast : c.Abreast b pairs d)
    (agree : ∀ {rules}, RulesAgree b pairs rules →
      TokenReader.Agree b pairs b.SameView (rules _ rule) (rules _ rule))
    (read : Derives _ rule c t c') :
    ∃ u d', Derives _ rule d u d' ∧ b.Same t u ∧ c'.Abreast b pairs d' := by
  have length := abreast.aligned.length_eq
  have weights : weight rule d = weight rule c := by rw [weight, weight, length]
  have given : (rules (weight rule c + 1) _ rule : TokenReader SourceTree).run c = .ok (t, c') :=
    read
  have matched := agree (rulesAgree (weight rule c + 1)) _ _ abreast
  rw [given] at matched
  generalize beside : (rules (weight rule c + 1) _ rule : TokenReader SourceTree).run d = outcome
    at matched
  cases matched with
  | @ok _ u _ d' same abreast =>
    refine ⟨u, d', ?_, Blur.SameView.blurred same, abreast⟩
    rw [Derives, weights]
    exact beside

theorem Grammar.derives_abreast {b : Blur} {pairs : List (Token × Token)} {c c' d : Cursor}
    {t : SourceTree} {rule : Rule SourceTree} (abreast : c.Abreast b pairs d)
    (agree : ∀ {rules}, RulesAgree b pairs rules →
      TokenReader.Agree b pairs b.SameView (rules _ rule) (rules _ rule))
    (read : Derives _ rule c t c') : ∃ u d', Derives _ rule d u d' ∧ b.Same t u := by
  obtain ⟨u, d', beside, same, -⟩ := exists_derives_abreast abreast agree read
  exact ⟨u, d', beside, same⟩

/-- Tokens side by side give the same program, or the same error at tokens side by side. -/
theorem parseTokens_viewed {b : Blur} {pairs : List (Token × Token)} {ts us : List Token}
    {cs ds : List Comment}
    (abreast : (Cursor.ofTokens ts cs).Abreast b pairs (Cursor.ofTokens us ds)) :
    (∃ t u, parseTokens ts cs = .ok t ∧ parseTokens us ds = .ok u ∧ b.SameView t u) ∨
      ∃ cause, ∃ x ∈ pairs, x.1.kind = x.2.kind ∧
        parseTokens ts cs = .error ⟨cause, x.1.kind, x.1.span.start⟩ ∧
        parseTokens us ds = .error ⟨cause, x.2.kind, x.2.span.start⟩ := by
  have matched := Grammar.agree_chunk (Grammar.rulesAgree
    (Grammar.depth (Cursor.ofTokens ts cs).rest.length)) _ _ abreast
  have length := abreast.aligned.length_eq
  simp only [parseTokens, readTokens, Grammar.program, ← length]
  generalize StateT.run _ (Cursor.ofTokens ts cs) = left at matched
  generalize StateT.run _ (Cursor.ofTokens us ds) = right at matched
  cases matched with
  | ok same abreast => exact .inl ⟨_, _, rfl, rfl, same⟩
  | error cause abreast =>
    exact .inr ⟨cause, _, abreast.current_mem, abreast.current.kind, rfl, rfl⟩

theorem parseTokens_matched {b : Blur} {pairs : List (Token × Token)} {ts us : List Token}
    {cs ds : List Comment}
    (abreast : (Cursor.ofTokens ts cs).Abreast b pairs (Cursor.ofTokens us ds)) :
    (∃ t u, parseTokens ts cs = .ok t ∧ parseTokens us ds = .ok u ∧ b.Same t u) ∨
      ∃ cause, ∃ x ∈ pairs, x.1.kind = x.2.kind ∧
        parseTokens ts cs = .error ⟨cause, x.1.kind, x.1.span.start⟩ ∧
        parseTokens us ds = .error ⟨cause, x.2.kind, x.2.span.start⟩ := by
  obtain ⟨t, u, left, right, same⟩ | failure := parseTokens_viewed abreast
  · exact .inl ⟨t, u, left, right, same.blurred⟩
  · exact .inr failure

end LuaTree
