import LuaTree.Proofs.CommentFidelity
import LuaTree.Proofs.Tiling
import LuaTree.Proofs.WellShaped

/-!
# Spans of nodes and of their children

The children of a node lie in its span, one behind the other. There is one
exception: an empty block stands where the next token starts, but a clause of an
`if` ends with the last token that was read. The empty body of a clause therefore
lies behind the clause (`spans_nest_iff`). Every other body has a word behind it
that belongs to the node, or ends with a statement of its own.

`Lays` follows a cursor: from some offset on, trees were read that stand in a row,
up to another offset that is not behind the token in front.
-/

namespace LuaTree

/-- The body of a clause of an `if`, when it has no children. -/
def Kind.bareBody? {α : Type} (childless : α → Bool) : Kind α → Option α
  | elseIf _ body | elseBlock body => if childless body then some body else none
  | _ => none

theorem Kind.children_of_bareBody? {α : Type} {childless : α → Bool} {kind : Kind α} {body : α}
    (bare : kind.bareBody? childless = some body) :
    kind.children = kind.children.dropLast ++ [body] := by
  cases kind with
  | elseIf condition b =>
    simp only [bareBody?, Option.ite_none_right_eq_some, Option.some.injEq] at bare
    rw [← bare.2]
    rfl
  | elseBlock b =>
    simp only [bareBody?, Option.ite_none_right_eq_some, Option.some.injEq] at bare
    rw [← bare.2]
    rfl
  | _ => cases bare

namespace Arena

variable (a : Arena)

/-- The body of a clause of an `if`, when it has no statements. -/
def bareBody? (p : NodeId) : Option NodeId :=
  (a.kind p).bareBody? fun body => (a.children body).isEmpty

/-- The children of the node lie in its span, one behind the other. -/
structure Nests (p : NodeId) : Prop where
  ordered : (a.span p).startOffset ≤ (a.span p).endOffset
  inside : ∀ c ∈ a.children p, (a.span p).startOffset ≤ (a.span c).startOffset ∧
    (a.span c).startOffset ≤ (a.span c).endOffset ∧ (a.span c).endOffset ≤ (a.span p).endOffset
  siblings : (a.children p).Pairwise fun c d => (a.span c).endOffset ≤ (a.span d).startOffset

/-- The last child of the node is an empty span behind its end; all other children lie in its span,
one behind the other. -/
structure Overhangs (p last : NodeId) : Prop where
  ordered : (a.span p).startOffset ≤ (a.span p).endOffset
  final : ∃ others, a.children p = others ++ [last] ∧
    ∀ c ∈ others, (a.span p).startOffset ≤ (a.span c).startOffset ∧
      (a.span c).startOffset ≤ (a.span c).endOffset ∧ (a.span c).endOffset ≤ (a.span p).endOffset
  siblings : (a.children p).Pairwise fun c d => (a.span c).endOffset ≤ (a.span d).startOffset
  empty : (a.span last).startOffset = (a.span last).endOffset
  behind : (a.span p).endOffset < (a.span last).startOffset

end Arena

/-- The trees stand one behind the other between two offsets. -/
def InRow (low : Nat) : List SourceTree → Nat → Prop
  | [], high => low ≤ high
  | t :: ts, high => low ≤ t.span.startOffset ∧ t.span.startOffset ≤ t.span.endOffset ∧
    InRow t.span.endOffset ts high

namespace InRow

variable {low middle high : Nat} {t : SourceTree} {ts us : List SourceTree}

theorem le (row : InRow low ts high) : low ≤ high := by
  induction ts generalizing low with
  | nil => exact row
  | cons t ts ih =>
    obtain ⟨start, ordered, rest⟩ := row
    have := ih rest
    omega

theorem append (left : InRow low ts middle) (right : InRow middle us high) :
    InRow low (ts ++ us) high := by
  induction ts generalizing low with
  | nil =>
    change low ≤ middle at left
    cases us with
    | nil => exact Nat.le_trans left right
    | cons u us => exact ⟨Nat.le_trans left right.1, right.2⟩
  | cons t ts ih => exact ⟨left.1, left.2.1, ih left.2.2⟩

theorem of_append (row : InRow low (ts ++ us) high) :
    ∃ middle, InRow low ts middle ∧ InRow middle us high := by
  induction ts generalizing low with
  | nil => exact ⟨low, Nat.le_refl low, row⟩
  | cons t ts ih =>
    obtain ⟨middle, left, right⟩ := ih row.2.2
    exact ⟨middle, ⟨row.1, row.2.1, left⟩, right⟩

theorem widen {high' : Nat} (row : InRow low ts high) (more : high ≤ high') :
    InRow low ts high' := by
  have none : InRow high [] high' := more
  have wide := row.append none
  rwa [List.append_nil] at wide

theorem lower {low' : Nat} (row : InRow low ts high) (less : low' ≤ low) : InRow low' ts high := by
  have none : InRow low' [] low := less
  exact none.append row

/-- A row can begin where its first tree does. -/
theorem from_head (row : InRow low (t :: ts) high) : InRow t.span.startOffset (t :: ts) high :=
  ⟨Nat.le_refl _, row.2⟩

/-- A row can end where its last tree does. -/
theorem to_last (row : InRow low (ts ++ [t]) high) :
    InRow low (ts ++ [t]) t.span.endOffset ∧ t.span.endOffset ≤ high := by
  obtain ⟨middle, left, start, ordered, stop⟩ := row.of_append
  have single : InRow middle [t] t.span.endOffset := ⟨start, ordered, Nat.le_refl _⟩
  exact ⟨left.append single, stop⟩

/-- A block begins and ends with its statements. -/
theorem blockSpan (row : InRow low ts high) (some : ts ≠ []) (place : Span) :
    low ≤ (Grammar.blockSpan place ts).startOffset ∧
      InRow (Grammar.blockSpan place ts).startOffset ts (Grammar.blockSpan place ts).endOffset ∧
      (Grammar.blockSpan place ts).endOffset ≤ high := by
  have ends : (Grammar.blockSpan place ts).endOffset = (ts.getLast some).span.endOffset := by
    obtain ⟨t, ts, rfl⟩ := List.exists_cons_of_ne_nil some
    rw [Grammar.blockSpan, List.head?_cons, List.getLast?_eq_some_getLast some]
    rfl
  have starts : low ≤ (Grammar.blockSpan place ts).startOffset ∧
      InRow (Grammar.blockSpan place ts).startOffset ts high := by
    obtain ⟨t, ts, rfl⟩ := List.exists_cons_of_ne_nil some
    rw [Grammar.blockSpan, List.head?_cons, List.getLast?_eq_some_getLast some]
    exact ⟨row.1, row.from_head⟩
  have last := starts.2
  rw [← List.dropLast_concat_getLast some] at last
  have tight := last.to_last
  rw [List.dropLast_concat_getLast some, ← ends] at tight
  exact ⟨starts.1, tight⟩

theorem of_mem (row : InRow low ts high) (member : t ∈ ts) :
    low ≤ t.span.startOffset ∧ t.span.startOffset ≤ t.span.endOffset ∧ t.span.endOffset ≤ high := by
  induction ts generalizing low with
  | nil => exact absurd member List.not_mem_nil
  | cons u us ih =>
    obtain ⟨start, ordered, rest⟩ := row
    rcases List.mem_cons.mp member with rfl | member
    · exact ⟨start, ordered, rest.le⟩
    · obtain ⟨start', inside⟩ := ih rest member
      exact ⟨by omega, inside⟩

theorem pairwise (row : InRow low ts high) :
    ts.Pairwise fun t u => t.span.endOffset ≤ u.span.startOffset := by
  induction ts generalizing low with
  | nil => exact .nil
  | cons t ts ih => exact .cons (fun u member => (of_mem row.2.2 member).1) (ih row.2.2)

end InRow

/-- The children of a node stand in a row inside its span, but for the empty body of a clause. -/
def RowInside (span : Span) (kind : Kind SourceTree) : Prop :=
  match kind.bareBody? fun body => body.kind.children.isEmpty with
  | none => InRow span.startOffset kind.children span.endOffset
  | some body => InRow span.startOffset kind.children.dropLast span.endOffset ∧
    body.span.startOffset = body.span.endOffset ∧ span.endOffset < body.span.startOffset

/-- Every node of the tree has its children in a row. -/
inductive RowsInside : SourceTree → Prop where
  | node {m : Origin} {kind : Kind SourceTree} (here : RowInside m.span kind)
      (below : ∀ c ∈ kind.children, RowsInside c) : RowsInside (.node m kind)

theorem RowsInside.withComments {t : SourceTree} (rows : RowsInside t)
    (leading trailing : List Comment) : RowsInside (t.withComments leading trailing) := by
  cases rows with
  | node here below => exact .node here below

theorem span_withComments (leading trailing : List Comment) (t : SourceTree) :
    (t.withComments leading trailing).span = t.span := by
  cases t
  rfl

namespace Cursor

/-- The offset where the token in front starts. -/
def front (c : Cursor) : Nat :=
  c.current.span.startOffset

/-- The offset where the token just read ends. -/
def back (c : Cursor) : Nat :=
  c.last.endOffset

/-- The tokens in front stand one behind the other, and two keywords do not touch. -/
structure Ordered (c : Cursor) : Prop where
  ends : c.EndsFile
  forward : ∀ token ∈ c.tokens, token.span.startOffset ≤ token.span.endOffset
  inOrder : c.tokens.Pairwise fun x y => x.span.endOffset ≤ y.span.startOffset
  apart : c.tokens.IsChain fun x y => x.kind ∈ TokenKind.keywords →
    y.kind ∈ TokenKind.keywords → x.span.endOffset < y.span.startOffset

theorem Ordered.advance {c : Cursor} (ordered : c.Ordered) : c.advance.Ordered := by
  obtain ⟨rest, stop, last, comments⟩ := c
  cases rest with
  | nil => exact ordered
  | cons token rest =>
    obtain ⟨ends, forward, inOrder, apart⟩ := ordered
    exact ⟨ends, (List.forall_mem_cons.mp forward).2, inOrder.of_cons, apart.of_cons⟩

theorem Ordered.comments {c : Cursor} (ordered : c.Ordered) (pending : List Comment) :
    { c with comments := pending }.Ordered :=
  ⟨ordered.ends, ordered.forward, ordered.inOrder, ordered.apart⟩

/-- Reading a token. -/
theorem Ordered.front_le {c : Cursor} (ordered : c.Ordered) (more : c.current.kind ≠ .eof) :
    c.advance.last = c.current.span ∧ c.front ≤ c.advance.back ∧
      c.advance.back ≤ c.advance.front ∧ (c.current.kind ∈ TokenKind.keywords →
        c.advance.current.kind ∈ TokenKind.keywords → c.advance.back < c.advance.front) := by
  obtain ⟨ends, forward, inOrder, apart⟩ := ordered
  obtain ⟨rest, stop, last, comments⟩ := c
  cases rest with
  | nil => exact absurd ends more
  | cons token rest =>
    have self := forward token List.mem_cons_self
    cases rest with
    | nil =>
      refine ⟨rfl, self, (List.pairwise_cons.mp inOrder).1 _ List.mem_cons_self, ?_⟩
      exact apart.rel
    | cons next rest =>
      refine ⟨rfl, self, (List.pairwise_cons.mp inOrder).1 _ List.mem_cons_self, ?_⟩
      exact apart.rel

theorem Ordered.forward_current {c : Cursor} (ordered : c.Ordered) :
    c.front ≤ c.current.span.endOffset := by
  obtain ⟨later, tokens⟩ := c.exists_tokens_eq
  exact ordered.forward c.current (by rw [tokens]; exact List.mem_cons_self)

/-- Trees were read that stand in a row between two offsets, the second one not behind the token in
front of the cursor. -/
structure Lays (low : Nat) (ts : List SourceTree) (high : Nat) (c : Cursor) : Prop where
  row : InRow low ts high
  rows : ∀ t ∈ ts, RowsInside t
  past : high ≤ c.front
  ordered : c.Ordered

namespace Lays

variable {low high high' : Nat} {ts us : List SourceTree} {c c' : Cursor}

/-- What was read stands before what is read next. -/
theorem append (left : Lays low ts high c) (right : Lays c.front us high' c') :
    Lays low (ts ++ us) high' c' :=
  ⟨(left.row.widen left.past).append right.row,
    List.forall_mem_append.mpr ⟨left.rows, right.rows⟩, right.past, right.ordered⟩

/-- One more token. -/
theorem next (lays : Lays low ts high c) (more : c.current.kind ≠ .eof) :
    Lays low ts c.advance.back c.advance := by
  obtain ⟨-, long, past, -⟩ := lays.ordered.front_le more
  exact ⟨lays.row.widen (Nat.le_trans lays.past long), lays.rows, past, lays.ordered.advance⟩

/-- The first token. -/
theorem start (ordered : c.Ordered) (more : c.current.kind ≠ .eof) :
    Lays c.front [] c.advance.back c.advance := by
  obtain ⟨-, long, past, -⟩ := ordered.front_le more
  exact ⟨long, by simp, past, ordered.advance⟩

theorem comments (lays : Lays low ts high c) (pending : List Comment) :
    Lays low ts high { c with comments := pending } :=
  ⟨lays.row, lays.rows, lays.past, lays.ordered.comments pending⟩

theorem withComments {t : SourceTree} (lays : Lays low [t] high c)
    (leading trailing : List Comment) : Lays low [t.withComments leading trailing] high c := by
  refine ⟨?_, ?_, lays.past, lays.ordered⟩
  · simpa only [InRow, span_withComments] using lays.row
  · have rows := List.forall_mem_singleton.mp lays.rows
    exact List.forall_mem_singleton.mpr (rows.withComments _ _)

/-- One more node over what was read. -/
theorem node {kind : Kind SourceTree} (lays : Lays low kind.children high c) (span : Span)
    (start : low = span.startOffset) (stop : high = span.endOffset)
    (notBare : kind.bareBody? (fun body => body.kind.children.isEmpty) = none) :
    Lays low [.node (.ofSpan span) kind] high c := by
  subst start stop
  refine ⟨⟨Nat.le_refl _, lays.row.le, Nat.le_refl _⟩, ?_, lays.past, lays.ordered⟩
  refine List.forall_mem_singleton.mpr (.node ?_ lays.rows)
  rw [RowInside, notBare]
  exact lays.row

/-- A node from the first token to the last. -/
theorem close {kind : Kind SourceTree} {start : Span}
    (lays : Lays start.startOffset kind.children c.back c)
    (notBare : kind.bareBody? (fun body => body.kind.children.isEmpty) = none) :
    Lays start.startOffset [c.close start kind] c.back c :=
  lays.node (start.through c.last) rfl rfl notBare

theorem lower {low' : Nat} (lays : Lays low ts high c) (less : low' ≤ low) :
    Lays low' ts high c :=
  ⟨lays.row.lower less, lays.rows, lays.past, lays.ordered⟩

theorem fromHead {head : SourceTree} (lays : Lays low (head :: ts) high c) :
    Lays head.span.startOffset (head :: ts) high c :=
  ⟨lays.row.from_head, lays.rows, lays.past, lays.ordered⟩

/-- A node from the start of its first child to the last token. -/
theorem closeHead {kind : Kind SourceTree} {head : SourceTree}
    (lays : Lays low (head :: ts) c.back c) (children : kind.children = head :: ts)
    (notBare : kind.bareBody? (fun body => body.kind.children.isEmpty) = none) :
    Lays low [c.close head.span kind] c.back c := by
  have inside := lays.fromHead
  rw [← children] at inside
  exact (inside.close notBare).lower lays.row.1

/-- A node up to the end of its last child. -/
theorem toLast {kind : Kind SourceTree} {first : Span} {last : SourceTree}
    (lays : Lays first.startOffset (ts ++ [last]) high c) (children : kind.children = ts ++ [last])
    (notBare : kind.bareBody? (fun body => body.kind.children.isEmpty) = none) :
    Lays first.startOffset [.node (.ofSpan (first.through last.span)) kind] high c := by
  obtain ⟨row, short⟩ := lays.row.to_last
  have inside : Lays first.startOffset kind.children last.span.endOffset c := by
    rw [children]
    exact ⟨row, lays.rows, Nat.le_trans short lays.past, lays.ordered⟩
  have node := inside.node (first.through last.span) rfl rfl notBare
  exact ⟨node.row.widen short, node.rows, lays.past, lays.ordered⟩

theorem widen (lays : Lays low ts high c) : Lays low ts c.front c :=
  ⟨lays.row.widen lays.past, lays.rows, Nat.le_refl _, lays.ordered⟩

/-- A node of one token. -/
theorem leaf {kind : Kind SourceTree} (ordered : c.Ordered) (more : c.current.kind ≠ .eof)
    (childless : kind.children = [])
    (notBare : kind.bareBody? (fun body => body.kind.children.isEmpty) = none) :
    Lays c.front [c.leaf kind] c.advance.back c.advance := by
  have lays := start ordered more
  have span : c.current.span = c.advance.last := (ordered.front_le more).1.symm
  rw [← childless] at lays
  exact lays.node c.current.span rfl (congrArg Span.endOffset span.symm) notBare

end Lays

end Cursor

namespace Grammar

open Cursor

/-- A block before a word: it stands before that word, and only an empty one reaches up to it. -/
structure BlockLaid (c : Cursor) (t : SourceTree) (c' : Cursor) : Prop where
  rows : RowsInside t
  ordered : c'.Ordered
  place : t.kind.children = [] ∧ t.span = c.current.span.atStart ∧ c'.current = c.current ∧
      c'.last = c.last ∨
    t.kind.children ≠ [] ∧ Lays c.front [t] c'.back c'

/-- What the trees that a rule reads have to do with the offsets of its tokens. -/
def Laid : Reading
  | _, .block => fun c t c' => c.Ordered → BlockLaid c t c'
  | _, .statements => fun c ts c' =>
    c.Ordered → ts = [] ∧ c' = c ∨ ts ≠ [] ∧ Lays c.front ts c'.back c'
  | _, .statement => fun c t c' => c.Ordered → Lays c.front [t] c'.back c'
  | _, .elseIfs => fun c ts c' => ∀ {low : Nat} {us : List SourceTree} {high : Nat},
      Lays low us high c → c'.current.kind ∈ TokenKind.keywords → Lays low (us ++ ts) c'.front c'
  | _, .moreTargets => fun c ts c' => ∀ {low : Nat} {us : List SourceTree},
      Lays low us c.back c → Lays low (us ++ ts) c'.back c'
  | _, .moreNames _ => fun c ts c' => ∀ {low : Nat} {us : List SourceTree},
      Lays low us c.back c → Lays low (us ++ ts) c'.back c'
  | _, .dottedName head => fun c t c' => ∀ {low : Nat},
      Lays low [head] c.back c → Lays low [t] c'.back c'
  | _, .expressions => fun c ts c' => c.Ordered → Lays c.front ts c'.back c'
  | _, .moreExpressions => fun c ts c' => ∀ {low : Nat} {us : List SourceTree},
      Lays low us c.back c → Lays low (us ++ ts) c'.back c'
  | _, .expression _ => fun c t c' => c.Ordered → Lays c.front [t] c'.back c'
  | _, .operators _ left => fun c t c' => ∀ {low : Nat},
      Lays low [left] c.back c → Lays low [t] c'.back c'
  | _, .suffixes head => fun c t c' => ∀ {low : Nat},
      Lays low [head] c.back c → Lays low [t] c'.back c'
  | _, .fields => fun c ts c' => ∀ {low : Nat} {us : List SourceTree},
      Lays low us c.back c → Lays low (us ++ ts) c'.back c'
  | _, .parameters => fun c ts c' => c.Ordered → Lays c.front ts c'.back c'

/-- What was read, with what is known of the offsets. -/
def Measured : Reading := fun α rule c a c' => Derives α rule c a c' ∧ Laid α rule c a c'

section Expressions

variable {c c' : Cursor} {t : SourceTree} {ts us : List SourceTree} {low : Nat}

theorem Name.lays (ordered : c.Ordered) (read : Name c t c') : Lays c.front [t] c'.back c' := by
  obtain ⟨kind⟩ := read
  exact .leaf ordered (by simp [kind]) rfl rfl

theorem Expressions.lays (ordered : c.Ordered) (read : Expressions Measured c ts c') :
    Lays c.front ts c'.back c' := by
  obtain ⟨readFirst, readMore⟩ := read
  exact readMore.2 (readFirst.2 ordered)

theorem MoreExpressions.lays (before : Lays low us c.back c)
    (read : MoreExpressions Measured c ts c') : Lays low (us ++ ts) c'.back c' := by
  rcases read with stop | ⟨comma, readList⟩
  · rwa [List.append_nil]
  · have divided := before.next (by simp [comma])
    exact divided.append (readList.2 divided.ordered)

/-- Behind the opening parenthesis. -/
theorem Enclosed.lays {rule : Rule (List SourceTree)}
    (list : ∀ c₁, Measured _ rule c ts c₁ → c.Ordered → Lays c.front ts c₁.back c₁)
    (before : Lays low us c.back c) (read : Enclosed Measured rule c ts c') :
    Lays low (us ++ ts) c'.back c' := by
  rcases read with close | ⟨start, readList, close⟩
  · rw [List.append_nil]
    exact before.next (by simp [close])
  · have inside := before.append (list _ readList before.ordered)
    exact inside.next (by simp [close])

theorem Enclosed.laysArguments (before : Lays low us c.back c)
    (read : Enclosed Measured .expressions c ts c') : Lays low (us ++ ts) c'.back c' :=
  read.lays (fun _ => And.right) before

theorem Parameters.lays (ordered : c.Ordered) (read : Parameters Measured c ts c') :
    Lays c.front ts c'.back c' := by
  rcases read with kind | ⟨readName, stop⟩ | ⟨readName, comma, readMore⟩
  · exact .leaf ordered (by simp [kind]) rfl rfl
  · exact readName.lays ordered
  · have divided := (readName.lays ordered).next (by simp [comma])
    exact divided.append (readMore.2 divided.ordered)

/-- A block with the words around it. -/
theorem BlockLaid.lays (laid : BlockLaid c t c') :
    Lays c.front [t] c'.front c' := by
  have single : ∀ u ∈ [t], RowsInside u := List.forall_mem_singleton.mpr laid.rows
  obtain ⟨-, place, current, -⟩ | ⟨-, lays⟩ := laid.place
  · have same : c'.front = c.front := by rw [front, current, front]
    refine ⟨?_, single, Nat.le_refl _, laid.ordered⟩
    rw [same]
    refine ⟨?_, ?_, ?_⟩ <;> rw [place] <;> exact Nat.le_refl _
  · exact ⟨lays.row.widen lays.past, single, Nat.le_refl _, laid.ordered⟩

theorem FunctionBody.lays {params : List SourceTree} {body : SourceTree}
    (before : Lays low us c.back c) (read : FunctionBody Measured c params body c') :
    Lays low (us ++ (params ++ [body])) c'.back c' := by
  obtain ⟨start, readParams, readBody, close⟩ := read
  have opened := before.next (by simp [start])
  have inside := readParams.lays (fun _ => And.right) opened
  have whole := inside.append (readBody.2 inside.ordered).lays
  rw [← List.append_assoc]
  exact whole.next (by simp [close])

theorem Field.lays (ordered : c.Ordered) (read : Field Measured c t c') :
    Lays c.front [t] c'.back c' := by
  rcases read with ⟨start, readKey, close, assign, readValue⟩ | ⟨readName, assign, readValue⟩ |
    ⟨noKey, noName, readValue⟩
  · have opened := Lays.start ordered (by simp [start])
    have key := (opened.append (readKey.2 opened.ordered)).next (by simp [close])
    have assigned := key.next (by simp [assign])
    exact (assigned.append (readValue.2 assigned.ordered)).close rfl
  · have key := readName.lays ordered
    obtain ⟨kind⟩ := readName
    have assigned := key.next (by rw [c.current_advance, assign]; decide)
    exact (assigned.append (readValue.2 assigned.ordered)).close rfl
  · exact (readValue.2 ordered).close rfl

theorem Fields.lays (before : Lays low us c.back c) (read : Fields Measured c ts c') :
    Lays low (us ++ ts) c'.back c' := by
  rcases read with stop | ⟨start, readField, stop⟩ | ⟨start, readField, divider, readMore⟩
  · rwa [List.append_nil]
  · exact before.append (readField.lays before.ordered)
  · have field := before.append (readField.lays before.ordered)
    have divided := field.next (by rcases divider with comma | semicolon <;> simp [*])
    have all := readMore.2 divided
    rwa [List.append_assoc] at all

theorem Primary.lays (ordered : c.Ordered) (read : Primary Measured c t c') :
    Lays c.front [t] c'.back c' := by
  rcases read with token | readName | kind | ⟨start, readFields, close⟩ | ⟨start, readBody⟩ |
    ⟨start, readInner, close⟩
  · exact .leaf ordered (literal?_ne_eof token) rfl rfl
  · exact readName.lays ordered
  · exact .leaf ordered (by simp [kind]) rfl rfl
  · have opened := Lays.start ordered (by simp [start])
    exact ((readFields.2 opened).next (by simp [close])).close rfl
  · have opened := Lays.start ordered (by simp [start])
    exact (readBody.lays opened).close rfl
  · have opened := Lays.start ordered (by simp [start])
    have inner := opened.append (readInner.2 opened.ordered)
    exact (inner.next (by simp [close])).close rfl

theorem Suffixes.lays {head : SourceTree} (before : Lays low [head] c.back c)
    (read : Suffixes Measured head c t c') : Lays low [t] c'.back c' := by
  rcases read with stop | ⟨start, sameLine, readArgs, readMore⟩ |
    ⟨start, sameLine, readKey, close, readMore⟩ | ⟨start, readName, readMore⟩ |
    ⟨start, readName, parens, readArgs, readMore⟩
  · exact before
  · have opened := before.next (by simp [start])
    exact readMore.2 ((readArgs.laysArguments opened).closeHead rfl rfl)
  · have opened := before.next (by simp [start])
    have key := opened.append (readKey.2 opened.ordered)
    exact readMore.2 ((key.next (by simp [close])).closeHead rfl rfl)
  · have dotted := before.next (by simp [start])
    exact readMore.2 ((dotted.append (readName.lays dotted.ordered)).closeHead rfl rfl)
  · have marked := before.next (by simp [start])
    have named := marked.append (readName.lays marked.ordered)
    have opened := named.next (by simp [parens])
    exact readMore.2 ((readArgs.laysArguments opened).closeHead rfl rfl)

theorem PrefixExpression.lays (ordered : c.Ordered) (read : PrefixExpression Measured c t c') :
    Lays c.front [t] c'.back c' := by
  obtain ⟨readHead, readMore⟩ := read
  exact readMore.2 (readHead.lays ordered)

theorem binary_lays {left right : SourceTree} (op : BinaryOp) (more : c.current.kind ≠ .eof)
    (before : Lays low [left] c.back c)
    (behind : c.advance.Ordered → Lays c.advance.front [right] c'.back c') :
    Lays low [binary op left right] c'.back c' := by
  have signed := before.next more
  have operands := signed.append (behind signed.ordered)
  have pair : Lays left.span.startOffset ([left] ++ [right]) c'.back c' := operands.fromHead
  exact (pair.toLast rfl rfl).lower operands.row.1

theorem Power.lays (ordered : c.Ordered) (read : Power Measured c t c') :
    Lays c.front [t] c'.back c' := by
  rcases read with ⟨readBase, stop⟩ | ⟨readBase, caret, readExponent⟩
  · exact readBase.lays ordered
  · exact binary_lays .pow (by simp [caret]) (readBase.lays ordered) readExponent.2

theorem Unary.lays (ordered : c.Ordered) (read : Unary Measured c t c') :
    Lays c.front [t] c'.back c' := by
  rcases read with ⟨sign, readOperand⟩ | ⟨noSign, readPower⟩
  · have signed := Lays.start ordered (TokenKind.ne_eof_of_unaryOp? sign)
    have operand : Lays c.current.span.startOffset ([] ++ [_]) c'.back c' :=
      signed.append (readOperand.2 signed.ordered)
    exact operand.toLast rfl rfl
  · exact readPower.lays ordered

theorem Operators.lays {level : Nat} {left : SourceTree} (before : Lays low [left] c.back c)
    (read : Operators Measured level left c t c') : Lays low [t] c'.back c' := by
  rcases read with stop | ⟨sign, precedence, group, readRight, readMore⟩ |
    ⟨sign, precedence, group, readRight⟩ | ⟨sign, precedence, group, readRight⟩
  · exact before
  · exact readMore.2 (binary_lays _ (TokenKind.ne_eof_of_binaryOp? sign) before readRight.2)
  · exact binary_lays _ (TokenKind.ne_eof_of_binaryOp? sign) before readRight.2
  · exact binary_lays _ (TokenKind.ne_eof_of_binaryOp? sign) before readRight.2

theorem Ladder.lays {level : Nat} (ordered : c.Ordered) (read : Ladder Measured level c t c') :
    Lays c.front [t] c'.back c' := by
  rcases read with ⟨low, readLeft, readMore⟩ | ⟨high, readUnary⟩
  · exact readMore.2 (readLeft.2 ordered)
  · exact readUnary.lays ordered

end Expressions

section Statements

variable {c c' : Cursor} {t : SourceTree} {ts us : List SourceTree} {low high : Nat}

theorem MoreNames.lays {cause : Cause} (before : Lays low us c.back c)
    (read : MoreNames Measured cause c ts c') : Lays low (us ++ ts) c'.back c' := by
  rcases read with stop | ⟨comma, readName, readMore⟩
  · rwa [List.append_nil]
  · have divided := before.next (by simp [comma])
    have all := readMore.2 (divided.append (readName.lays divided.ordered))
    rwa [List.append_assoc] at all

theorem MoreTargets.lays (before : Lays low us c.back c) (read : MoreTargets Measured c ts c') :
    Lays low (us ++ ts) c'.back c' := by
  rcases read with stop | ⟨comma, readTarget, readMore⟩
  · rwa [List.append_nil]
  · have divided := before.next (by simp [comma])
    have all := readMore.2 (divided.append (readTarget.lays divided.ordered))
    rwa [List.append_assoc] at all

theorem LocalStatement.lays (ordered : c.Ordered) (start : c.current.kind = .localKw)
    (read : LocalStatement Measured c t c') : Lays c.front [t] c'.back c' := by
  have opened := Lays.start ordered (by simp [start])
  rcases read with ⟨word, readName, readBody⟩ | @⟨name, names, _, _, readName, readMore, stop⟩ |
    ⟨readName, readMore, assign, readValues⟩
  · have defined := opened.next (by simp [word])
    have named := defined.append (readName.lays defined.ordered)
    exact (readBody.lays named).close rfl
  · have named := opened.append (readName.lays opened.ordered)
    have all : Lays c.front (Kind.localNames (name :: names) []).children c'.back c' := by
      rw [Kind.children, List.append_nil]
      exact readMore.2 named
    exact all.close rfl
  · have named := opened.append (readName.lays opened.ordered)
    have assigned := (readMore.2 named).next (by simp [assign])
    exact (assigned.append (readValues.2 assigned.ordered)).close rfl

theorem DottedName.lays {head : SourceTree} (before : Lays low [head] c.back c)
    (read : DottedName Measured head c t c') : Lays low [t] c'.back c' := by
  rcases read with ⟨noDot, noColon⟩ | ⟨start, readName, readMore⟩ | ⟨start, readName⟩
  · exact before
  · have dotted := before.next (by simp [start])
    exact readMore.2 ((dotted.append (readName.lays dotted.ordered)).closeHead rfl rfl)
  · have marked := before.next (by simp [start])
    exact (marked.append (readName.lays marked.ordered)).closeHead rfl rfl

theorem FunctionStatement.lays (ordered : c.Ordered) (start : c.current.kind = .functionKw)
    (read : FunctionStatement Measured c t c') : Lays c.front [t] c'.back c' := by
  obtain ⟨readFirst, readName, readBody⟩ := read
  have opened := Lays.start ordered (by simp [start])
  have named := readName.2 (opened.append (readFirst.lays opened.ordered))
  exact (readBody.lays named).close rfl

theorem ReturnStatement.lays (ordered : c.Ordered) (start : c.current.kind = .returnKw)
    (read : ReturnStatement Measured c t c') : Lays c.front [t] c'.back c' := by
  have opened := Lays.start ordered (by simp [start])
  rcases read with stop | ⟨more, readValues⟩
  · exact opened.close rfl
  · exact (opened.append (readValues.2 opened.ordered)).close rfl

/-- A body between two words of its node. -/
theorem body_lays (before : Lays low us high c) (read : Measured _ .block c t c')
    (close : c'.current.kind ≠ .eof) : Lays low (us ++ [t]) c'.advance.back c'.advance :=
  (before.append (read.2 before.ordered).lays).next close

theorem DoStatement.lays (ordered : c.Ordered) (start : c.current.kind = .doKw)
    (read : DoStatement Measured c t c') : Lays c.front [t] c'.back c' := by
  obtain ⟨readBody, close⟩ := read
  have opened := Lays.start ordered (by simp [start])
  exact (body_lays opened readBody (by simp [close])).close rfl

/-- A clause of an `if` before a word. Its body, if it is empty, stands where that word starts. -/
theorem clause_lays (kind : Kind SourceTree) {start : Span} {body : SourceTree}
    (before : Lays start.startOffset us c.back c) (laid : BlockLaid c body c')
    (children : kind.children = us ++ [body])
    (clause : kind.bareBody? (fun body => body.kind.children.isEmpty) =
      if body.kind.children.isEmpty then some body else none)
    (apart : c'.current = c.current → c.back < c.front) :
    Lays start.startOffset [c'.close start kind] c'.front c' := by
  obtain ⟨empty, place, current, last⟩ | ⟨some, lays⟩ := laid.place
  · -- the clause ends with the word before the body, and the body is at the word behind it
    have gap := apart current
    have same : c'.front = c.front := by rw [front, current, front]
    have stop : (start.through c'.last).endOffset = c.back := by rw [last]; rfl
    rw [empty] at clause
    refine ⟨⟨Nat.le_refl _, ?_, ?_⟩, ?_, Nat.le_refl _, laid.ordered⟩
    · change _ ≤ (start.through c'.last).endOffset
      rw [stop]
      exact before.row.le
    · change (start.through c'.last).endOffset ≤ c'.front
      omega
    · refine List.forall_mem_singleton.mpr (.node ?_ ?_)
      · change RowInside (start.through c'.last) kind
        rw [RowInside, clause]
        refine ⟨?_, ?_, ?_⟩
        · rw [stop, children, List.dropLast_concat]
          exact before.row
        · rw [place]
          rfl
        · rw [stop, place]
          exact gap
      · rw [children]
        exact List.forall_mem_append.mpr ⟨before.rows, List.forall_mem_singleton.mpr laid.rows⟩
  · have inside := before.append lays
    rw [← children] at inside
    rw [List.isEmpty_eq_false_iff.mpr some] at clause
    exact (inside.close clause).widen

theorem ElseIfs.lays (before : Lays low us high c) (read : ElseIfs Measured c ts c')
    (word : c'.current.kind ∈ TokenKind.keywords) : Lays low (us ++ ts) c'.front c' := by
  rcases read with stop | @⟨condition, body, clauses, c₁, c₂, _, start, readCondition, thenKw,
    readBody, readMore⟩
  · rw [List.append_nil]
    exact before.widen
  · have opened := Lays.start before.ordered (by simp [start])
    have tested := opened.append (readCondition.2 opened.ordered)
    have entered := tested.next (by simp [thenKw])
    -- what ends the body is `elseif` again, or the word behind all clauses
    have next : c₂.current.kind ∈ TokenKind.keywords := by
      have ends := (readBody.2 entered.ordered).ordered.ends
      rcases (derives_iff ends).mp readMore.1 with stop | ⟨again, -, -, -, -⟩
      · exact word
      · rw [again]
        decide
    have clause := clause_lays (.elseIf condition body) entered (readBody.2 entered.ordered)
      rfl rfl fun same => by
        refine (tested.ordered.front_le (by simp [thenKw])).2.2.2 (by rw [thenKw]; decide) ?_
        rwa [← same]
    have all := readMore.2 (before.append clause) word
    rwa [List.append_assoc] at all

theorem ElseClause.lays {branch : Option SourceTree} (before : Lays low us high c)
    (read : ElseClause Measured c branch c') (word : c'.current.kind ∈ TokenKind.keywords) :
    Lays low (us ++ branch.toList) c'.front c' := by
  rcases read with stop | @⟨body, _, start, readBody⟩
  · rw [Option.toList_none, List.append_nil]
    exact before.widen
  · have opened := Lays.start before.ordered (by simp [start])
    have clause := clause_lays (.elseBlock body) opened (readBody.2 opened.ordered) rfl rfl
      fun same => by
        refine (before.ordered.front_le (by simp [start])).2.2.2 (by rw [start]; decide) ?_
        rwa [← same]
    exact before.append clause

theorem IfStatement.lays (ordered : c.Ordered) (start : c.current.kind = .ifKw)
    (read : IfStatement Measured c t c') : Lays c.front [t] c'.back c' := by
  obtain @⟨condition, body, clauses, branch, c₁, c₂, c₃, c₄, readCondition, thenKw, readBody,
    readClauses, readBranch, close⟩ := read
  have opened := Lays.start ordered (by simp [start])
  have tested := opened.append (readCondition.2 opened.ordered)
  have entered := tested.next (by simp [thenKw])
  have first := entered.append (readBody.2 entered.ordered).lays
  have last : c₄.current.kind ∈ TokenKind.keywords := by
    rw [close]
    decide
  have next : c₃.current.kind ∈ TokenKind.keywords := by
    rcases readBranch with stop | ⟨word, -⟩
    · exact last
    · rw [word]
      decide
  have all := readBranch.lays (readClauses.2 first next) last
  exact (all.next (by simp [close])).close rfl

theorem WhileStatement.lays (ordered : c.Ordered) (start : c.current.kind = .whileKw)
    (read : WhileStatement Measured c t c') : Lays c.front [t] c'.back c' := by
  obtain ⟨readCondition, doKw, readBody, close⟩ := read
  have opened := Lays.start ordered (by simp [start])
  have tested := opened.append (readCondition.2 opened.ordered)
  exact (body_lays (tested.next (by simp [doKw])) readBody (by simp [close])).close rfl

theorem RepeatStatement.lays (ordered : c.Ordered) (start : c.current.kind = .repeatKw)
    (read : RepeatStatement Measured c t c') : Lays c.front [t] c'.back c' := by
  obtain ⟨readBody, untilKw, readCondition⟩ := read
  have opened := Lays.start ordered (by simp [start])
  have body := body_lays opened readBody (by simp [untilKw])
  exact (body.append (readCondition.2 body.ordered)).close rfl

theorem ForBody.lays (before : Lays low us high c) (read : ForBody Measured c t c') :
    Lays low (us ++ [t]) c'.back c' := by
  obtain ⟨doKw, readBody, close⟩ := read
  exact body_lays (before.next (by simp [doKw])) readBody (by simp [close])

theorem ForStep.lays {step : Option SourceTree} (before : Lays low us c.back c)
    (read : ForStep Measured c step c') : Lays low (us ++ step.toList) c'.back c' := by
  rcases read with stop | ⟨comma, readStep⟩
  · rwa [Option.toList_none, List.append_nil]
  · have divided := before.next (by simp [comma])
    exact divided.append (readStep.2 divided.ordered)

theorem ForStatement.lays (ordered : c.Ordered) (start : c.current.kind = .forKw)
    (read : ForStatement Measured c t c') : Lays c.front [t] c'.back c' := by
  have opened := Lays.start ordered (by simp [start])
  rcases read with ⟨assign, readCounter, readStart, comma, readLimit, readStep, readBody⟩ |
    ⟨noAssign, readName, readMore, inKw, readIterators, readBody⟩
  · have counter := opened.append (readCounter.lays opened.ordered)
    obtain ⟨kind⟩ := readCounter
    have assigned := counter.next (by rw [Cursor.current_advance, assign]; decide)
    have first := (assigned.append (readStart.2 assigned.ordered)).next (by simp [comma])
    have range := readStep.lays (first.append (readLimit.2 first.ordered))
    exact (readBody.lays range).close rfl
  · have names := readMore.2 (opened.append (readName.lays opened.ordered))
    have entered := names.next (by simp [inKw])
    have iterators := entered.append (readIterators.2 entered.ordered)
    exact (readBody.lays iterators).close rfl

theorem ExpressionStatement.lays (ordered : c.Ordered)
    (read : ExpressionStatement Measured c t c') : Lays c.front [t] c'.back c' := by
  rcases read with ⟨readFirst, readMore, assign, assignable, readValues⟩ |
    ⟨readTarget, readMore, noAssign, sign, assignable, readValue⟩ |
    ⟨readExpression, readMore, noAssign, noSign, call⟩
  · have targets := readMore.2 (readFirst.lays ordered)
    have assigned := targets.next (by simp [assign])
    exact (assigned.append (readValues.2 assigned.ordered)).close rfl
  · have target := readMore.2 (readTarget.lays ordered)
    have assigned := target.next (TokenKind.ne_eof_of_assignOp? sign)
    exact (assigned.append (readValue.2 assigned.ordered)).close rfl
  · exact (readMore.2 (readExpression.lays ordered)).close rfl

theorem Statement.lays (ordered : c.Ordered) (read : Statement Measured c t c') :
    Lays c.front [t] c'.back c' := by
  cases read with
  | localStatement start read => exact read.lays ordered start
  | function start read => exact read.lays ordered start
  | returning start read => exact read.lays ordered start
  | breaking start => exact .leaf ordered (by simp [start]) rfl rfl
  | continuing start => exact .leaf ordered (by simp [start]) rfl rfl
  | doBlock start read => exact read.lays ordered start
  | ifChain start read => exact read.lays ordered start
  | whileLoop start read => exact read.lays ordered start
  | repeatLoop start read => exact read.lays ordered start
  | forLoop start read => exact read.lays ordered start
  | expression start read => exact read.lays ordered

theorem skip_lays (before : Lays low us c.back c) :
    Lays low us (c.skip .semicolon).back (c.skip .semicolon) := by
  by_cases semicolon : c.current.kind = .semicolon
  · rw [skip, if_pos semicolon]
    exact before.next (by simp [semicolon])
  · rw [skip, if_neg semicolon]
    exact before

theorem Statements.lays (ordered : c.Ordered) (read : Statements Measured c ts c') :
    ts = [] ∧ c' = c ∨ ts ≠ [] ∧ Lays c.front ts c'.back c' := by
  rcases read with stop | @⟨statement, statements, c₁, _, start, readStatement, terminal, readMore⟩
  · exact .inl ⟨rfl, rfl⟩
  · right
    refine ⟨List.cons_ne_nil _ _, ?_⟩
    have plain : Lays c.front [statement] c₁.back c₁ := readStatement.2 (ordered.comments _)
    have dressed := plain.withComments c.leading (c₁.skip .semicolon).trailing
    have first := (skip_lays dressed).comments (c₁.skip .semicolon).afterTrailing.comments
    obtain ⟨rfl, rfl⟩ | ⟨-, more⟩ := readMore.2 first.ordered
    · exact first
    · exact first.append more

theorem Block.lays (ordered : c.Ordered) (read : Block Measured c t c') : BlockLaid c t c' := by
  obtain @⟨statements, c₁, readAll⟩ := read
  obtain ⟨rfl, rfl⟩ | ⟨some, lays⟩ := readAll.2 ordered
  · refine ⟨.node (Nat.le_refl _) (by simp [Kind.children]), ordered.comments _, .inl ?_⟩
    exact ⟨rfl, rfl, rfl, rfl⟩
  · obtain ⟨start, row, stop⟩ := lays.row.blockSpan some c.current.span
    have rows : RowsInside
        (.node ⟨blockSpan c.current.span statements, [], c₁.leading⟩ (.block statements)) :=
      .node row lays.rows
    refine ⟨rows, lays.ordered.comments _, .inr ⟨some, ?_⟩⟩
    refine ⟨⟨start, row.le, stop⟩, List.forall_mem_singleton.mpr rows, lays.past, ?_⟩
    exact lays.ordered.comments _

end Statements

/-- Every rule reads trees that stand in a row. -/
theorem derives_laid {α : Type} {rule : Rule α} {c c' : Cursor} {a : α} (ends : c.EndsFile)
    (read : Derives α rule c a c') : Laid α rule c a c' := by
  refine Derives.induct ?_ ends read
  intro α rule c c' a ends step
  change Step Measured α rule c a c' at step
  cases rule with
  | block => exact fun ordered => Block.lays ordered step
  | statements => exact fun ordered => Statements.lays ordered step
  | statement => exact fun ordered => Statement.lays ordered step
  | elseIfs => exact fun before word => ElseIfs.lays before step word
  | moreTargets => exact fun before => MoreTargets.lays before step
  | moreNames cause => exact fun before => MoreNames.lays before step
  | dottedName head => exact fun before => DottedName.lays before step
  | expressions => exact fun ordered => Expressions.lays ordered step
  | moreExpressions => exact fun before => MoreExpressions.lays before step
  | expression level => exact fun ordered => Ladder.lays ordered step
  | operators level left => exact fun before => Operators.lays before step
  | suffixes head => exact fun before => Suffixes.lays before step
  | fields => exact fun before => Fields.lays before step
  | parameters => exact fun ordered => Parameters.lays ordered step

end Grammar

open Grammar Cursor

theorem ordered_ofTokens (source : String) :
    (Cursor.ofTokens (Scan.ofSource source).tokens (Scan.ofSource source).comments).Ordered := by
  have opens := opens_ofTokens source
  have tokens : _ = (Scan.ofSource source).tokens := opens.tokens
  constructor
  · exact opens.ends
  · intro token member
    rw [tokens] at member
    have among : token.span ∈ (Scan.ofSource source).spans :=
      List.mem_append_left _ (List.mem_map_of_mem member)
    exact (Scan.within_of_mem_spans among).ordered
  · rw [tokens]
    exact Scan.tokens_pairwise source
  · rw [tokens]
    exact Scan.tokens_apart .start source.toList

theorem rowsInside_of_parse {source : String} {t : SourceTree} (parsed : parse source = .ok t) :
    RowsInside t := by
  obtain ⟨c', readBody, stop⟩ := parseTokens_ok_iff.mp parsed
  have ordered := ordered_ofTokens source
  have laid : BlockLaid _ _ _ := derives_laid ordered.ends readBody ordered
  have inside := laid.lays
  refine .node ?_ inside.rows
  exact inside.row.widen laid.ordered.forward_current

namespace Arena

variable {a : Arena} {t : SourceTree}

theorem Sound.bareBody?_tree (sound : a.Sound) (p : NodeId) :
    ((a.kind p).map a.tree).bareBody? (fun body => body.kind.children.isEmpty) =
      (a.bareBody? p).map a.tree := by
  have childless (b : NodeId) : (a.tree b).kind.children.isEmpty = (a.children b).isEmpty := by
    have kind : (a.tree b).kind = (a.kind b).map a.tree := by
      rw [sound.tree_eq]
      rfl
    rw [kind, Kind.children_map, List.isEmpty_map]
    rfl
  rw [bareBody?]
  cases a.kind p with
  | elseIf condition body =>
    simp only [Kind.map, Kind.bareBody?, childless]
    split <;> rfl
  | elseBlock body =>
    simp only [Kind.map, Kind.bareBody?, childless]
    split <;> rfl
  | _ => rfl

theorem Sound.span_tree (sound : a.Sound) (p : NodeId) : (a.tree p).span = a.span p := by
  rw [sound.tree_eq]
  rfl

/-- Children in a row, said of handles. -/
theorem Sound.of_inRow (sound : a.Sound) {low high : Nat} {ids : List NodeId}
    (row : InRow low (ids.map a.tree) high) :
    (∀ c ∈ ids, low ≤ (a.span c).startOffset ∧
        (a.span c).startOffset ≤ (a.span c).endOffset ∧ (a.span c).endOffset ≤ high) ∧
      ids.Pairwise fun c d => (a.span c).endOffset ≤ (a.span d).startOffset := by
  constructor
  · intro c member
    rw [← sound.span_tree c]
    exact row.of_mem (List.mem_map_of_mem member)
  · have pairwise := row.pairwise
    rw [List.pairwise_map] at pairwise
    simpa only [sound.span_tree] using pairwise

theorem Sound.nests (sound : a.Sound) {p : NodeId} (plain : a.bareBody? p = none)
    (row : RowInside (a.span p) ((a.kind p).map a.tree)) : a.Nests p := by
  rw [RowInside, sound.bareBody?_tree, plain] at row
  change InRow _ _ _ at row
  have ordered := row.le
  rw [Kind.children_map] at row
  obtain ⟨inside, siblings⟩ := sound.of_inRow row
  exact ⟨ordered, inside, siblings⟩

theorem Sound.overhangs (sound : a.Sound) {p body : NodeId} (bare : a.bareBody? p = some body)
    (row : RowInside (a.span p) ((a.kind p).map a.tree)) : a.Overhangs p body := by
  rw [RowInside, sound.bareBody?_tree, bare] at row
  obtain ⟨row, empty, behind⟩ := row
  have ordered := row.le
  rw [sound.span_tree] at empty behind
  rw [Kind.children_map, ← List.map_dropLast] at row
  obtain ⟨inside, apart⟩ := sound.of_inRow row
  have children := Kind.children_of_bareBody? bare
  refine ⟨ordered, ⟨_, children, inside⟩, ?_, empty, behind⟩
  rw [Arena.children, children, List.pairwise_append]
  refine ⟨apart, List.pairwise_singleton _ _, ?_⟩
  intro c member d final
  rw [List.mem_singleton] at final
  have short := (inside c member).2.2
  rw [final]
  omega

/-- The children of a node of a program lie in its span, one behind the other, unless it is a clause
of an `if` with an empty body; that body lies behind the clause. -/
theorem spans_nest_iff {source : String} (parsed : parse source = .ok t) {p : NodeId}
    (present : (ofTree t).contains p = true) :
    ((ofTree t).Nests p ↔ (ofTree t).bareBody? p = none) ∧
      ∀ body, (ofTree t).bareBody? p = some body → (ofTree t).Overhangs p body := by
  have sound := sound_ofTree t
  have rows : RowsInside ((ofTree t).tree p) := by
    refine forall_tree (rowsInside_of_parse parsed) ?_ p (contains_iff.mp present)
    intro m k rows c child
    cases rows with
    | node here below => exact below c child
  rw [sound.tree_eq] at rows
  obtain ⟨here, -⟩ := rows
  constructor
  · constructor
    · intro nests
      by_contra bare
      obtain ⟨body, bare⟩ := Option.ne_none_iff_exists'.mp bare
      have overhangs := sound.overhangs bare here
      obtain ⟨others, children, -⟩ := overhangs.final
      have inside := nests.inside body (by rw [children]; simp)
      have behind := overhangs.behind
      omega
    · intro plain
      exact sound.nests plain here
  · intro body bare
    exact sound.overhangs bare here

/-- The handles of the parts of `if x then else end`. -/
theorem emptyElse_parts {t : SourceTree} (parsed : parse "if x then else end" = .ok t) :
    (ofTree t).contains ⟨3⟩ = true ∧ (ofTree t).contains ⟨4⟩ = true ∧
      (ofTree t).kind ⟨3⟩ = .elseBlock ⟨2⟩ ∧ (ofTree t).kind ⟨4⟩ = .ifChain ⟨0⟩ ⟨1⟩ [] (some ⟨3⟩) ∧
      (ofTree t).children ⟨2⟩ = [] ∧ ((ofTree t).span ⟨3⟩).endOffset = 14 ∧
      ((ofTree t).span ⟨2⟩).endOffset = 15 := by
  have computed : (parse "if x then else end").toOption.all (fun t =>
      (ofTree t).contains ⟨3⟩ = true ∧ (ofTree t).contains ⟨4⟩ = true ∧
        (ofTree t).kind ⟨3⟩ = .elseBlock ⟨2⟩ ∧
        (ofTree t).kind ⟨4⟩ = .ifChain ⟨0⟩ ⟨1⟩ [] (some ⟨3⟩) ∧
        (ofTree t).children ⟨2⟩ = [] ∧ ((ofTree t).span ⟨3⟩).endOffset = 14 ∧
        ((ofTree t).span ⟨2⟩).endOffset = 15) = true := by
    decide +kernel
  rw [parsed] at computed
  exact of_decide_eq_true computed

/-- The empty body of an `else` lies behind it, but the `if` around it has all its parts inside. -/
theorem spans_nest_iff_emptyElse :
    ∃ t, parse "if x then else end" = .ok t ∧ (ofTree t).Nests ⟨4⟩ ∧
      (ofTree t).Overhangs ⟨3⟩ ⟨2⟩ := by
  obtain ⟨t, parsed⟩ : ∃ t, parse "if x then else end" = .ok t := exists_parse (by decide +kernel)
  obtain ⟨clause, chain, kind, kind', childless, -⟩ := emptyElse_parts parsed
  refine ⟨t, parsed, ?_, ?_⟩
  · refine (spans_nest_iff parsed chain).1.mpr ?_
    rw [bareBody?, kind']
    rfl
  · refine (spans_nest_iff parsed clause).2 ⟨2⟩ ?_
    rw [bareBody?, kind]
    simp only [Kind.bareBody?, childless, List.isEmpty_nil, if_true]

/-- The span of an `else` need not hold that of its body. -/
theorem not_nests_emptyElse :
    ∃ t clause body, parse "if x then else end" = .ok t ∧ (ofTree t).contains clause = true ∧
      (ofTree t).kind clause = .elseBlock body ∧
      ((ofTree t).span clause).endOffset < ((ofTree t).span body).endOffset ∧
      ¬ (ofTree t).Nests clause := by
  obtain ⟨t, parsed⟩ : ∃ t, parse "if x then else end" = .ok t := exists_parse (by decide +kernel)
  obtain ⟨clause, -, kind, -, -, early, late⟩ := emptyElse_parts parsed
  refine ⟨t, ⟨3⟩, ⟨2⟩, parsed, clause, kind, by omega, fun nests => ?_⟩
  have inside := nests.inside ⟨2⟩ (by rw [children, kind]; exact List.mem_singleton_self _)
  omega

end Arena

end LuaTree
