import LuaTree.Proofs.Comparison
import LuaTree.Proofs.Hyphens
import LuaTree.Proofs.Omission
import LuaTree.Proofs.Openings

/-!
# Parentheses that are needed

A layout puts parentheses around the operands that need them. Without one pair of
them, or several, the text is not read as the same program, even if parentheses do
not count (`not_same_of_omits`). If all pieces that remain are read as they are meant,
the number of parentheses around each word tells that the tree that is left is read;
but whatever is read keeps to the levels, and that tree does not. Otherwise there are
two hyphens side by side, and the comment they begin has hyphens that the tree lacks.
-/

namespace LuaTree

open Arena Piece

/-- A node with branches. -/
def Kind.isChain {α : Type} : Kind α → Bool
  | ifChain .. => true
  | _ => false

@[simp] theorem Kind.isChain_map {α β : Type} (f : α → β) (k : Kind α) :
    (k.map f).isChain = k.isChain := by
  cases k <;> rfl

/-- Nodes of the same shape have branches or have not. -/
theorem Kind.isChain_of_sameShape {α β : Type} {k : Kind α} {l : Kind β}
    (shape : k.sameShape l = true) (plain : l.isChain = false) : k.isChain = false := by
  cases k <;> first | rfl | skip
  cases l <;> first | (cases plain; done) | cases shape

theorem Kind.sorted_of_isChain {α β : Type} {kindOf : α → Kind β} {k : Kind α}
    (plain : k.isChain = false) : k.Sorted kindOf := by
  cases k <;> first | (cases plain; done) | simp [Sorted, clauses, lastBranch]

namespace Tree

variable {ι κ : Type}

/-- Trees without branches that are the same differ in their marks only. -/
theorem unmarked_eq_of_plain {t : Tree ι} {u : Tree κ} (plain : u.Every (·.isChain = false))
    (same : t.same u = true) : t.unmarked = u.unmarked := by
  have plain' : t.Every (·.isChain = false) :=
    plain.of_same (fun _ _ => Kind.isChain_of_sameShape) same
  exact unmarked_eq_of_same (plain'.imp fun _ => Kind.sorted_of_isChain)
    (plain.imp fun _ => Kind.sorted_of_isChain) same

theorem every_eraseParens {t : Tree ι} (plain : t.Every (·.isChain = false)) :
    t.eraseParens.Every (·.isChain = false) := by
  induction t using Tree.induct with
  | step m k ih =>
    obtain ⟨here, below⟩ := every_node_iff.mp plain
    rcases eraseParens_cases m k with ⟨e, rfl, erased⟩ | ⟨-, erased⟩
    · have inside := List.mem_singleton_self e
      rw [erased]
      exact ih e inside (below e inside)
    · rw [erased, every_node_iff, Kind.isChain_map, Kind.children_map, List.forall_mem_map]
      exact ⟨here, fun c member => ih c member (below c member)⟩

/-- An expression without functions has no branches. -/
theorem every_of_hasFunction {t : Tree ι} {slot : Slot} (operand : slot.isOperand = true)
    (stands : t.stands slot = true) (plain : t.hasFunction = false) :
    t.Every (·.isChain = false) := by
  refine operand_induct (motive := fun _ t => t.Every (·.isChain = false)) ?_ operand stands plain
  intro slot m k operand admits complete plain ih
  refine .node ?_ ?_
  · cases slot <;> first | (cases operand; done) | skip
    all_goals cases k <;> first | rfl | cases admits
  · rw [← slot.map_snd_parts]
    exact List.forall_mem_map.mpr ih

theorem hasFunction_node (m : ι) (k : Kind (Tree ι)) :
    (node m k).hasFunction = (k.isFunction || k.children.any hasFunction) := by
  rw [hasFunction, fold_node, Kind.isFunction_map, Kind.children_map, List.any_map]
  rfl

theorem hasFunction_mapMark (f : ι → κ) (t : Tree ι) :
    (t.mapMark f).hasFunction = t.hasFunction :=
  fold_mapMark _ _ _

theorem hasFunction_unmarked (t : Tree ι) : t.unmarked.hasFunction = t.hasFunction :=
  hasFunction_mapMark _ t

theorem hasFunction_eraseParens (t : Tree ι) : t.eraseParens.hasFunction = t.hasFunction := by
  induction t using Tree.induct with
  | step m k ih =>
    rcases eraseParens_cases m k with ⟨e, rfl, erased⟩ | ⟨-, erased⟩
    · rw [erased, ih e (List.mem_singleton_self e), hasFunction_node]
      exact (Bool.or_false _).symm
    · rw [erased, hasFunction_node, hasFunction_node, Kind.isFunction_map, Kind.children_map,
        List.any_map]
      refine congrArg _ (Bool.eq_iff_iff.mpr ?_)
      rw [List.any_eq_true, List.any_eq_true]
      exact exists_congr fun c => and_congr_right fun member => by rw [Function.comp, ih c member]

/-- A program that returns the value of an expression. -/
def returned {ι : Type} (m n r : ι) (e : Tree ι) : Tree ι :=
  .node m (.chunk (.node n (.block [.node r (.returning [e])])))

theorem words_returned (m n r : ι) (e : Tree ι) :
    (returned m n r e).words = fixed .returnKw :: e.words := by
  simp [returned, words_node, Kind.map, Kind.words, commaWords]

theorem mapMark_returned (f : ι → κ) (m n r : ι) (e : Tree ι) :
    (returned m n r e).mapMark f = returned (f m) (f n) (f r) (e.mapMark f) := by
  simp [returned, mapMark_node, Kind.map]

theorem unmarked_returned (m n r : ι) (e : Tree ι) :
    (returned m n r e).unmarked = returned () () () e.unmarked :=
  mapMark_returned _ m n r e

theorem eraseParens_returned (m n r : ι) (e : Tree ι) :
    (returned m n r e).eraseParens = returned m n r e.eraseParens := by
  simp [returned, eraseParens_node, Kind.map, unparen]

theorem every_returned {m n r : ι} {e : Tree ι} (plain : e.Every (·.isChain = false)) :
    (returned m n r e).Every (·.isChain = false) := by
  have outer {m : ι} {k : Kind (Tree ι)} {c : Tree ι} (here : k.isChain = false)
      (only : k.children = [c]) (plain : c.Every (·.isChain = false)) :
      (node m k).Every (·.isChain = false) :=
    .node here (only ▸ List.forall_mem_singleton.mpr plain)
  exact outer rfl rfl (outer rfl rfl (outer rfl rfl plain))

/-- A program that is the same without parentheses returns a value too. -/
theorem exists_returned {u : SourceTree} (stands : u.stands .chunk = true) {m n r : ι}
    {e : Tree ι} (plain : e.Every (·.isChain = false))
    (same : u.eraseParens.same (returned m n r e).eraseParens = true) :
    ∃ m n r v, u = returned m n r v ∧ v.stands .expression = true ∧
      v.eraseParens.unmarked = e.eraseParens.unmarked := by
  replace same := unmarked_eq_of_plain (every_eraseParens (every_returned plain)) same
  rw [eraseParens_returned, unmarked_returned] at same
  obtain ⟨m, k⟩ := u
  obtain ⟨admits, -, parts⟩ := stands_node_iff.mp stands
  cases k <;> try (cases admits; done)
  case chunk body =>
    have inner := parts (.block, body) (List.mem_singleton_self _)
    obtain ⟨n, k⟩ := body
    obtain ⟨admits, -, parts⟩ := stands_node_iff.mp inner
    cases k <;> try (cases admits; done)
    case block statements =>
      simp only [eraseParens_node, Kind.map, unparen, unmarked_node, returned, Tree.node.injEq,
        Kind.chunk.injEq, Kind.block.injEq, true_and, List.map_map, List.map_eq_singleton_iff,
        Function.comp] at same
      obtain ⟨s, rfl, same⟩ := same
      have statement := parts (.lastStatement, s) (List.mem_singleton_self _)
      obtain ⟨r, k⟩ := s
      obtain ⟨admits, -, parts⟩ := stands_node_iff.mp statement
      cases k <;> first | (cases admits; done) | cases same | skip
      case returning values =>
        simp only [eraseParens_node, Kind.map, unparen, unmarked_node, Tree.node.injEq,
          Kind.returning.injEq, true_and, List.map_map, List.map_eq_singleton_iff,
          Function.comp] at same
        obtain ⟨v, rfl, same⟩ := same
        exact ⟨m, n, r, v, rfl, parts (.expression, v) (List.mem_singleton_self _), same⟩

end Tree

/-- No word is a semicolon. -/
def NoSemicolon (words : List Word) : Prop :=
  ∀ word ∈ words, word.1 ≠ .semicolon

@[simp] theorem noSemicolon_nil : NoSemicolon [] :=
  nofun

@[simp] theorem noSemicolon_cons {word : Word} {words : List Word} :
    NoSemicolon (word :: words) ↔ word.1 ≠ .semicolon ∧ NoSemicolon words :=
  List.forall_mem_cons

@[simp] theorem noSemicolon_append {words more : List Word} :
    NoSemicolon (words ++ more) ↔ NoSemicolon words ∧ NoSemicolon more :=
  List.forall_mem_append

@[simp] theorem noSemicolon_flatten {parts : List (List Word)} :
    NoSemicolon parts.flatten ↔ ∀ words ∈ parts, NoSemicolon words := by
  induction parts with
  | nil => simp
  | cons words parts ih => simp [ih]

@[simp] theorem noSemicolon_commaWords {parts : List (List Word)} :
    NoSemicolon (commaWords parts) ↔ ∀ words ∈ parts, NoSemicolon words := by
  have behind : NoSemicolon (parts.flatMap (fixed .comma :: ·)) ↔
      ∀ words ∈ parts, NoSemicolon words := by
    induction parts with
    | nil => simp
    | cons words parts ih =>
      have comma : (fixed .comma).1 ≠ .semicolon := by decide
      simp [ih, comma]
  cases parts with
  | nil => simp [commaWords]
  | cons words parts =>
    have comma : (fixed .comma).1 ≠ .semicolon := by decide
    simpa [commaWords, comma] using behind

theorem Kind.noSemicolon_words {k : Kind (List Word)}
    (each : ∀ words ∈ k.children, NoSemicolon words) : NoSemicolon k.words := by
  have fixed (kind : TokenKind) : (LuaTree.fixed kind).1 = kind := rfl
  cases k
  case literal l =>
    obtain ⟨value, kind⟩ := l
    cases kind
    case boolean =>
      simp only [words, Layout.literal]
      split <;> simp
    all_goals simp [words, Layout.literal]
  case binary op l r => cases op <;> simp_all [words, children, BinaryOp.token]
  case unary op e => cases op <;> simp_all [words, children, UnaryOp.token]
  case compoundAssignment op t v =>
    cases op <;> simp_all [words, children, BinaryOp.assignToken?]
  case localNames ns vs => cases vs <;> simp_all [words, children, or_imp]
  case access style t key => cases style <;> simp_all [words, children]
  case field style key e => cases style <;> cases key <;> simp_all [words, children]
  all_goals simp_all [words, children, or_imp]

/-- Semicolons stand behind statements, and are no words of theirs. -/
theorem Tree.noSemicolon_words {ι : Type} (t : Tree ι) : NoSemicolon t.words := by
  induction t using Tree.induct with
  | step m k ih =>
    rw [words_node]
    refine Kind.noSemicolon_words ?_
    rw [Kind.children_map]
    exact List.forall_mem_map.mpr ih

/-- Normal forms change only what nestings leave out, if semicolons stand at the end only. -/
theorem nestings_normalize {words tail : List Word} (none : NoSemicolon words)
    (ends : ∀ around behind depth,
      nestings behind depth (normalize around tail) = nestings behind depth tail)
    (around : List Scope) (behind : Bool) (depth : Nat) :
    nestings behind depth (normalize around (words ++ tail)) =
      nestings behind depth (words ++ tail) := by
  induction words generalizing around behind depth with
  | nil => exact ends around behind depth
  | cons word words ih =>
    obtain ⟨here, others⟩ := List.forall_mem_cons.mp none
    obtain ⟨kind, lexeme⟩ := word
    have ih := ih others
    by_cases comma : kind = .comma
    · subst comma
      rw [List.cons_append, normalize]
      -- a comma stays or goes, and it goes only before a brace, which any nesting counts alike
      by_cases brace : ∃ lexeme rest, words ++ tail = (.rBrace, lexeme) :: rest
      · obtain ⟨lexeme', rest, starts⟩ := brace
        have inner := ih around false depth
        rw [starts] at inner ⊢
        rw [normalize_cons (by decide) (by decide)] at inner ⊢
        exact inner
      · have separated : separator (words ++ tail) = [fixed .comma] := by
          rw [separator]
          exact fun lexeme rest starts => brace ⟨lexeme, rest, starts⟩
        rw [separated]
        exact ih around false depth
    · rw [List.cons_append, normalize_cons comma here]
      cases kind <;> simp only [nestings, ih]

namespace Layout

variable {o : Layout}

/-- The words behind the last one of a statement. -/
def stops (o : Layout) : List Word :=
  if o.semicolons then [fixed .semicolon] else []

/-- The pieces of a tree, with those that are to be left out. -/
def sparingPieces (o : Layout) (t : Tree (Origin × Bool)) : List Piece :=
  (o.sparing t).2.write 0

theorem nestings_stops (o : Layout) (behind : Bool) (depth : Nat) :
    nestings behind depth (o.stops ++ [(.eof, "")]) = [(depth, (.eof, ""))] := by
  unfold stops
  cases o.semicolons <;> rfl

theorem nestings_normalize_stops (o : Layout) (around : List Scope) (behind : Bool) (depth : Nat) :
    nestings behind depth (normalize around (o.stops ++ [(.eof, "")])) =
      nestings behind depth (o.stops ++ [(.eof, "")]) := by
  rw [nestings_stops]
  unfold stops
  cases o.semicolons with
  | false => rfl
  | true =>
    simp only [if_true, List.cons_append, List.nil_append, fixed, normalize]
    split <;> rfl

theorem hyphens_stops (o : Layout) : hyphens o.stops = 0 := by
  unfold stops
  split <;> decide

theorem write_returned {n r : Origin} (m : Origin) (block : n.IsBare) (statement : r.IsBare)
    (f : Fragment) :
    (o.node m (.chunk (o.node n (.block [o.node r (.returning [f])])))).write 0 =
      word .returnKw :: space :: (f.write 0 ++ o.finish r) := by
  simp [node, Layout.statement, commentLines, indentation, commas, block.2, statement.1]

theorem matches_finish {r : Origin} (bare : r.IsBare) :
    Matches (o.finish r) (o.finish r) o.stops := by
  unfold finish stops
  rw [bare.2]
  cases o.semicolons <;> cases o.comments <;> exact ⟨rfl, rfl, rfl, rfl⟩

theorem nearly_finish {r : Origin} (bare : r.IsBare) : Nearly (o.finish r) [] := by
  refine nearly_of_apart (apart_finish ?_ ?_ [])
  · simp [bare.2]
  · simp [bare.2]

/-- The pieces of a program that returns a value, with parentheses left out around operands of that
value. -/
theorem spared_returned {t : Tree (Origin × Bool)} (spared : o.Spared 0 t) {m n r : Origin × Bool}
    (block : n.1.IsBare) (statement : r.1.IsBare) :
    Matches (o.sparingPieces (.returned m n r t))
        (o.pieces ((Tree.returned m n r t).mapMark Prod.fst))
        (fixed .returnKw :: (t.keeping.2.words ++ o.stops)) ∧
      Nearly (remaining (o.sparingPieces (.returned m n r t))) [] ∧
      ∃ front, remaining (o.sparingPieces (.returned m n r t)) = front ++ [newline] := by
  have marked : o.sparingPieces (.returned m n r t) =
      word .returnKw :: space :: ((o.sparing t).2.write 0 ++ o.finish r.1) := by
    rw [← write_returned m.1 block statement]
    simp [sparingPieces, Tree.returned, sparing_node, Kind.map, Kind.mapOperands]
  have written : o.pieces ((Tree.returned m n r t).mapMark Prod.fst) =
      word .returnKw :: space ::
        ((o.fragment (t.mapMark Prod.fst)).write 0 ++ o.finish r.1) := by
    rw [← write_returned m.1 block statement]
    simp [pieces, Tree.returned, Tree.mapMark_node, fragment_node, Kind.map]
  have ending := matches_finish (o := o) statement
  have known : TokenKind.returnKw ≠ .unknown := by decide
  have left : remaining (o.sparingPieces (.returned m n r t)) =
      word .returnKw :: space :: (remaining ((o.sparing t).2.write 0) ++ o.finish r.1) := by
    rw [marked, remaining_word known]
    change _ :: _ :: remaining _ = _
    rw [remaining_append, ending.plain]
  refine ⟨?_, ?_, ?_⟩
  · rw [marked, written]
    exact (spared.toMatches.append ending).space.word known
  · rw [left]
    refine ⟨.inl (fits_word_space (by decide) _), .inl (fits_space _), nearly_append.mpr ⟨?_, ?_⟩⟩
    · exact spared.near _ (follows_finish [])
    · exact nearly_finish statement
  · rw [left, finish, ← List.append_assoc, ← List.cons_append, ← List.cons_append]
    exact ⟨_, rfl⟩

end Layout

/-- Pieces that are nearly apart, none of them a comment, have the hyphens of their words. -/
theorem count_of_nearly {pieces : List Piece} {rest : List Char} (near : Nearly pieces rest)
    (notes : pieces.filterMap note? = []) :
    (textOf pieces).count '-' = hyphens (Piece.words pieces) := by
  induction pieces with
  | nil => rfl
  | cons piece pieces ih =>
    obtain ⟨here, near⟩ := near
    rw [textOf_cons, List.count_append]
    cases piece with
    | token kind lexeme =>
      rw [words_token, hyphens_cons, String.toList_ofList, ih near notes]
      rfl
    | blank c =>
      have other : c ≠ '-' := by
        rintro rfl
        rcases here with fits | ⟨same, -⟩
        · have inside : blank '-' ∈ cut ((blank '-').chars ++ (textOf pieces ++ rest)) := by
            rw [fits]
            exact List.mem_cons_self ..
          cases genuine_of_mem_cut inside rfl with
          | blank isBlank => exact absurd isBlank (by decide)
        · cases same
      have silent : (Piece.blank c).chars.count '-' = 0 := by simp [chars, other]
      rw [silent, Nat.zero_add, ih near notes]
      rfl
    | lineComment | blockComment => cases notes

/-- A text whose last piece is a line feed is terminated. -/
theorem isTerminated_of_newline {source : String} {front : List Piece}
    (last : cut source.toList = front ++ [Layout.newline]) : isTerminated source = true := by
  refine List.all_eq_true.mpr fun piece member => ?_
  by_contra unclosed
  obtain ⟨before, split, -⟩ := exists_cut_of_open member (Bool.eq_false_iff.mpr unclosed)
  rw [last] at split
  obtain rfl : Layout.newline = piece := List.singleton_inj.mp (List.append_inj_right' split rfl)
  exact unclosed rfl

section Reading

variable {o : Layout} {e v : SourceTree}

theorem Tree.stands_unmarked {ι : Type} (t : Tree ι) (slot : Slot) :
    t.unmarked.stands slot = t.stands slot := by
  rw [← blurred_clear, stands_blurred]

theorem Tree.nestings_unmarked {ι : Type} (t : Tree ι) : t.unmarked.nestings = t.nestings :=
  fold_mapMark _ _ _

/-- What is read from the words of an expression is that expression, if it is the same without
parentheses. -/
theorem unmarked_eq_of_normalize (left : e.stands .expression = true)
    (right : v.stands .expression = true) (plain : e.hasFunction = false)
    (same : v.eraseParens.unmarked = e.eraseParens.unmarked)
    (read : normalize [] (fixed .returnKw :: e.words ++ (o.stops ++ [(.eof, "")])) =
      fixed .returnKw :: v.words ++ [(.eof, "")]) : e.unmarked = v.unmarked := by
  have plain' : v.hasFunction = false := by
    rw [← Tree.hasFunction_eraseParens, ← Tree.hasFunction_unmarked, same,
      Tree.hasFunction_unmarked, Tree.hasFunction_eraseParens, plain]
  have none : NoSemicolon (fixed .returnKw :: e.words) :=
    noSemicolon_cons.mpr ⟨by decide, e.noSemicolon_words⟩
  have behindWord (words : List Word) : nestings false 0 (fixed .returnKw :: words) =
      (0, fixed .returnKw) :: nestings false 0 words := rfl
  have nested := congrArg (nestings false 0) read
  rw [nestings_normalize none o.nestings_normalize_stops, List.cons_append, List.cons_append,
    behindWord, behindWord, Tree.settles rfl left plain, Tree.settles rfl right plain',
    Layout.nestings_stops] at nested
  have nested := List.append_cancel_right (List.cons.inj nested).2
  refine Tree.eq_of_nestings ?_ ?_ ?_ ?_ ?_
  · rwa [Tree.stands_unmarked]
  · rwa [Tree.stands_unmarked]
  · rwa [Tree.hasFunction_unmarked]
  · exact (Tree.eraseParens_mapMark _ e).trans (same.symm.trans (Tree.eraseParens_mapMark _ v).symm)
  · rw [Tree.nestings_unmarked, Tree.nestings_unmarked, nested]

theorem hyphens_eq_of_unmarked (same : v.eraseParens.unmarked = e.eraseParens.unmarked) :
    hyphens v.words = hyphens e.words := by
  rw [← v.hyphens_eraseParens, ← Tree.words_unmarked, same, Tree.words_unmarked,
    e.hyphens_eraseParens]

theorem Tree.KeepsLevels.of_returned {m n r : Origin} (keeps : (returned m n r v).KeepsLevels) :
    v.KeepsLevels := by
  have inside {m : Origin} {k : Kind SourceTree} {c : SourceTree} (keeps : (node m k).KeepsLevels)
      (member : c ∈ k.children) : c.KeepsLevels := (every_node_iff.mp keeps).2 c member
  exact inside (inside (inside keeps (List.mem_singleton_self _)) (List.mem_singleton_self _))
    (List.mem_singleton_self _)

theorem Tree.keepsLevels_of_unmarked (same : e.unmarked = v.unmarked) (keeps : v.KeepsLevels) :
    e.KeepsLevels := by
  rw [← keepsLevels_blurred .clear, blurred_clear] at keeps ⊢
  rwa [same]

/-- What is left of an expression keeps to the levels if it is read from its words. -/
theorem keepsLevels_of_read {source : String} {m n r : Origin}
    (left : e.stands .expression = true) (right : v.stands .expression = true)
    (plain : e.hasFunction = false) (same : v.eraseParens.unmarked = e.eraseParens.unmarked)
    (words : Piece.words (cut source.toList) = fixed .returnKw :: (e.words ++ o.stops))
    (terminated : isTerminated source = true) (parsed : parse source = .ok (.returned m n r v)) :
    e.KeepsLevels := by
  have read := normalize_of_parse terminated parsed
  rw [words_tokenize, words, ← List.cons_append, List.append_assoc, Tree.words_returned] at read
  obtain ⟨u, formed, shape⟩ := exists_writable_of_parse parsed
  exact Tree.keepsLevels_of_unmarked (unmarked_eq_of_normalize left right plain same read)
    (keepsLevels_of_same formed shape).of_returned

theorem hyphens_returned (o : Layout) (words : List Word) :
    hyphens (fixed .returnKw :: (words ++ o.stops)) = hyphens words := by
  have noHyphen : (fixed .returnKw).2.toList.count '-' = 0 := by decide
  rw [hyphens_cons, hyphens_append, noHyphen, o.hyphens_stops, Nat.zero_add, Nat.add_zero]

/-- No comment takes a hyphen from an expression that is read from its text. -/
theorem no_comment_of_read {source : String} {m n r : Origin}
    (same : v.eraseParens.unmarked = e.eraseParens.unmarked)
    (count : source.toList.count '-' = hyphens e.words) (closes : dangles source = false)
    (parsed : parse source = .ok (.returned m n r v)) :
    ¬ ∃ piece ∈ cut source.toList, piece.note?.isSome = true := by
  rintro ⟨comment, member, isComment⟩
  have fewer := hyphens_lt_of_comment member isComment
  have most := hyphens_le_of_parse closes parsed
  have noHyphen : (fixed .returnKw).2.toList.count '-' = 0 := by decide
  rw [textOf_cut, count] at fewer
  rw [Tree.words_returned, hyphens_cons, noHyphen, hyphens_eq_of_unmarked same] at most
  omega

/-- An expression that is read from pieces of its own, but for parentheses, keeps to the levels. -/
theorem keepsLevels_of_pieces {pieces front : List Piece} {m n r : Origin}
    (left : e.stands .expression = true) (right : v.stands .expression = true)
    (plain : e.hasFunction = false) (same : v.eraseParens.unmarked = e.eraseParens.unmarked)
    (near : Nearly pieces []) (spell : Spell pieces (fixed .returnKw :: (e.words ++ o.stops)))
    (last : pieces = front ++ [Layout.newline])
    (parsed : parse (String.ofList (textOf pieces)) = .ok (.returned m n r v)) :
    e.KeepsLevels := by
  have chars : (String.ofList (textOf pieces)).toList = textOf pieces := String.toList_ofList
  rcases apart_or_exists_comment near with apart | comment
  -- all pieces are read as they are meant
  · have read := cut_of_apart apart
    rw [cut, List.append_nil, List.append_nil, ← chars] at read
    refine keepsLevels_of_read (o := o) left right plain same ?_ ?_ parsed
    · rw [read, spell.words]
    · exact isTerminated_of_newline (read.trans last)
  -- two hyphens begin a comment, and the tree that is read has fewer of them
  · rw [List.append_nil, ← chars] at comment
    refine absurd comment (no_comment_of_read same ?_ ?_ parsed)
    · rw [chars, count_of_nearly near spell.notes, spell.words, hyphens_returned]
    · refine dangles_eq_false_iff.mpr (not_dangles_of_newline fun c member => ?_)
      rw [chars, last, textOf_append, List.getLast?_append] at member
      exact (Option.some.inj member).symm

end Reading

/-- Leaving out any of the pairs of parentheses that are put around operands, one or more, gives a
text that does not parse, or parses to a program that is another one also without parentheses. -/
theorem not_same_of_omits (a : Arena) (id : NodeId) {m n r : Origin} {t : Tree (Origin × Bool)}
    (program : a.tree id = .returned m n r (t.mapMark Prod.fst))
    (block : n.IsBare) (statement : r.IsBare) (formed : IsBareExpression (t.mapMark Prod.fst))
    (plain : t.hasFunction = false) (omits : t.Omits) (o : Layout) :
    let pieces := o.sparingPieces (.returned (m, false) (n, false) (r, false) t)
    a.render id o = String.ofList (textOf pieces) ∧
      ∀ u, parse (String.ofList (textOf (remaining pieces))) = .ok u →
        u.eraseParens.same (a.tree id).eraseParens = false := by
  have standing : t.stands .expression = true := by
    have there := formed.stands
    rwa [← Tree.stands_unmarked, Tree.unmarked_mapMark, Tree.stands_unmarked] at there
  have lexical : t.Every Kind.IsLexical :=
    (Tree.every_mapMark (fun k => by cases k <;> exact Iff.rfl) t).mp formed.everyLexical
  have spared := Layout.spared (o := o) rfl standing plain lexical 0
  obtain ⟨found, near, front, last⟩ :=
    Layout.spared_returned (m := (m, false)) (n := (n, false)) (r := (r, false)) spared block
      statement
  intro pieces
  have writtenPlain : (t.mapMark Prod.fst).hasFunction = false :=
    (Tree.hasFunction_mapMark _ t).trans plain
  refine ⟨?_, fun u parsed => Bool.eq_false_iff.mpr fun same => ?_⟩
  · rw [render, program, Tree.render, found.text, Tree.mapMark_returned]
  rw [program] at same
  have branches := Tree.every_of_hasFunction rfl formed.stands writtenPlain
  obtain ⟨m', n', r', v, rfl, right, same⟩ :=
    Tree.exists_returned (stands_of_parse parsed) branches same
  rw [← Tree.eraseParens_keeping] at same
  have left := Tree.stands_keeping rfl standing plain
  have keptPlain : t.keeping.2.hasFunction = false := by
    rw [← Tree.hasFunction_eraseParens, Tree.eraseParens_keeping, Tree.hasFunction_eraseParens,
      writtenPlain]
  exact Tree.not_keepsLevels_of_omits omits
    (keepsLevels_of_pieces left right keptPlain same near found.spell last parsed)

/-- A sum that would be read as one of its factor, and one whose negation would begin a comment. -/
theorem not_same_of_omits_sums :
    let leaf (name : String) : Tree (Origin × Bool) := .node (default, false) (.identifier name)
    let product : Tree (Origin × Bool) :=
      .node (default, false) (.binary .mul
        (.node (default, true) (.binary .add (leaf "a") (leaf "b"))) (leaf "c"))
    let negation : Tree (Origin × Bool) :=
      .node (default, false) (.unary .neg (.node (default, true)
        (.binary .add (.node (default, false) (.unary .neg (leaf "a"))) (leaf "b"))))
    let program (t : Tree (Origin × Bool)) : SourceTree :=
      .returned default default default (t.mapMark Prod.fst)
    (program product).render {} = "return (a + b) * c\n" ∧
    (∃ u, parse "return a + b * c\n" = .ok u ∧
      u.eraseParens.same (program product).eraseParens = false) ∧
    (program negation).render {} = "return -(-a + b)\n" ∧
    ∃ u, parse "return --a + b\n" = .ok u ∧
      u.eraseParens.same (program negation).eraseParens = false := by
  intro leaf product negation program
  have bare : (default : Origin).IsBare := ⟨rfl, rfl⟩
  have name (n : String) (identifier : IsIdentifier n) :
      IsBareExpression ((leaf n).mapMark Prod.fst) := .ofName (.name identifier bare)
  have a := name "a" (by decide +kernel)
  have b := name "b" (by decide +kernel)
  have c := name "c" (by decide +kernel)
  have other (t : Tree (Origin × Bool)) (formed : IsBareExpression (t.mapMark Prod.fst))
      (plain : t.hasFunction = false) (omits : t.Omits) {source : String}
      (text : String.ofList (textOf (remaining (({} : Layout).sparingPieces
        (.returned (default, false) (default, false) (default, false) t)))) = source)
      (reads : (parse source).isOk = true) : ∃ u, parse source = .ok u ∧
        u.eraseParens.same (program t).eraseParens = false := by
    obtain ⟨-, differs⟩ := not_same_of_omits (ofTree (program t)) (top (program t))
      (tree_ofTree _) bare bare formed plain omits {}
    obtain ⟨u, parsed⟩ := exists_parse reads
    rw [text, tree_ofTree] at differs
    exact ⟨u, parsed, differs u parsed⟩
  refine ⟨by decide +kernel, ?_, by decide +kernel, ?_⟩
  · exact other product (.binary (.binary a b bare) c bare) (by decide +kernel)
      (.here (List.mem_cons_self ..) rfl rfl) (by decide +kernel) (by decide +kernel)
  · exact other negation (.unary (.binary (.unary a bare) b bare) bare) (by decide +kernel)
      (.here (List.mem_cons_self ..) rfl rfl) (by decide +kernel) (by decide +kernel)

end LuaTree
