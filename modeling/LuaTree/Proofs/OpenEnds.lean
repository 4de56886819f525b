import LuaTree.Proofs.CommentFidelity
import LuaTree.Proofs.Insertion
import LuaTree.Proofs.Literals
import LuaTree.Proofs.RoundTrip

/-!
# Texts with an open end

The last string or block comment of a text may be open. Written again, it is closed,
and the program comes back, unless the end of the open piece dangles: a quote
behind a backslash is escaped, and of three brackets the first two close a
comment. What a layout has written never dangles, since it ends with a line feed.
So a string or a comment that dangles is not read from it again, and a program
comes back exactly if its source does not dangle (`roundTrips_iff_not_dangles`).
-/

namespace LuaTree

namespace Piece

/-- Whether an open piece ends in such a way that it cannot be closed: a quote behind its last
backslash would be escaped, or brackets behind its last bracket would close it one too early. -/
def dangles : Piece → Bool
  | blockComment text closed => !closed && text.getLast? == some ']'
  | token kind lexeme => !(token kind lexeme).isTerminated && endsInEscape lexeme
  | _ => false

theorem isTerminated_of_dangles {piece : Piece} (dangles : piece.dangles = true) :
    piece.isTerminated = false := by
  cases piece with
  | blank | lineComment => cases dangles
  | blockComment text closed => exact (Bool.not_eq_true' _).mp (Bool.and_eq_true_iff.mp dangles).1
  | token kind lexeme => exact (Bool.not_eq_true' _).mp (Bool.and_eq_true_iff.mp dangles).1

theorem getLast?_of_endsInEscape {text : List Char} (escape : endsInEscape text = true) :
    text.getLast? = some '\\' := by
  fun_induction endsInEscape text with
  | case1 => cases escape
  | case2 => rfl
  | case3 c text ih => simp [List.getLast?_cons, ih escape]
  | case4 c text _ _ ih => simp [List.getLast?_cons, ih escape]

theorem getLast?_of_dangles {piece : Piece} (dangles : piece.dangles = true) :
    piece.chars.getLast? = some ']' ∨ piece.chars.getLast? = some '\\' := by
  cases piece with
  | blank | lineComment => cases dangles
  | blockComment text closed =>
    obtain ⟨unclosed, last⟩ := Bool.and_eq_true_iff.mp dangles
    simp only [Bool.not_eq_true'] at unclosed
    simp [chars, unclosed, List.getLast?_cons, beq_iff_eq.mp last]
  | token kind lexeme =>
    exact .inr (getLast?_of_endsInEscape (Bool.and_eq_true_iff.mp dangles).2)

/-- Each piece of a text fits before what follows it. -/
theorem fits_of_cut {text : List Char} {front back : List Piece} {piece : Piece}
    (split : cut text = front ++ piece :: back) : piece.Fits (textOf back) := by
  have apart := apart_cut text
  rw [split, apart_append] at apart
  simpa using apart.2.1

/-- Only the last piece of a text is open. -/
theorem exists_cut_of_open {text : List Char} {piece : Piece} (member : piece ∈ cut text)
    (unclosed : piece.isTerminated = false) : ∃ front, cut text = front ++ [piece] ∧
      ∀ p ∈ front, p.isTerminated = true := by
  obtain ⟨front, back, split⟩ := List.append_of_mem member
  have fits := fits_of_cut split
  have stop : textOf back = [] := by
    by_contra more
    rw [fits.isTerminated more] at unclosed
    cases unclosed
  obtain rfl : back = [] := by
    cases back with
    | nil => rfl
    | cons p back =>
      rw [List.append_cons] at split
      exact absurd (List.append_eq_nil_iff.mp stop).1 (fits_of_cut split).chars_ne_nil
  refine ⟨front, split, fun p inside => ?_⟩
  obtain ⟨before, behind, rfl⟩ := List.append_of_mem inside
  rw [List.append_assoc, List.cons_append] at split
  refine (fits_of_cut split).isTerminated ?_
  rw [textOf_append, textOf_cons]
  simp [fits.chars_ne_nil]

/-- A text that ends with a line feed does not dangle. -/
theorem not_dangles_of_newline {text : List Char} (newline : ∀ c ∈ text.getLast?, c = '\n') :
    ∀ piece ∈ cut text, piece.dangles = false := by
  intro piece member
  rw [Bool.eq_false_iff]
  intro dangles
  obtain ⟨front, split, -⟩ := exists_cut_of_open member (isTerminated_of_dangles dangles)
  have whole : text = textOf front ++ piece.chars := by
    rw [← textOf_cut text, split, textOf_append, textOf_cons, textOf_nil, List.append_nil]
  have last := getLast?_of_dangles dangles
  rw [whole, List.getLast?_append] at newline
  rcases last with last | last
  · exact absurd (newline ']' (by simp [last])) (by decide)
  · exact absurd (newline '\\' (by simp [last])) (by decide)

/-- Brackets close an open comment unless one stands before them. -/
theorem enclosable_iff_of_open {text : List Char} (unclosed : (blockText text).2.1 = false) :
    (blockText text).1 = text ∧ (isEnclosable text ↔ text.getLast? ≠ some ']') := by
  fun_induction blockText text with
  | case1 => exact ⟨rfl, by simp [isEnclosable, blockText]⟩
  | case2 => cases unclosed
  | case3 c rest noClose ih =>
    obtain ⟨whole, closes⟩ := ih unclosed
    refine ⟨congrArg (c :: ·) whole, ?_⟩
    cases rest with
    | nil =>
      by_cases bracket : c = ']'
      · subst bracket
        simp [isEnclosable, blockText]
      · simp [isEnclosable, blockText, bracket]
    | cons d rest =>
      rw [List.getLast?_cons_cons, ← closes, isEnclosable, isEnclosable, List.cons_append,
        blockText]
      · simp [Prod.ext_iff]
      · intro tail bracket same
        exact noClose rest bracket (by rw [(List.cons.inj same).1])

/-- Brackets close an open comment of a text unless one stands before them. -/
theorem enclosable_iff_of_fits {body rest : List Char}
    (fits : (blockComment body false).Fits rest) :
    isEnclosable body ↔ body.getLast? ≠ some ']' := by
  obtain ⟨c, text, whole, found⟩ := fits.exists_first
  obtain ⟨rfl, rfl⟩ : '-' = c ∧ '-' :: '[' :: '[' :: (body ++ rest) = text := by
    simpa [chars] using whole
  have plain : Text.isBlank '-' = false := by decide
  simp only [first, plain, Bool.false_eq_true, if_false, Prod.mk.injEq, blockComment.injEq] at found
  obtain ⟨⟨read, unclosed⟩, -⟩ := found
  obtain ⟨whole, closes⟩ := enclosable_iff_of_open unclosed
  rwa [← whole, read] at closes

/-- An open token is a string. Its literal has all of its text, and a quote closes it unless it is
escaped there. -/
theorem open_string (token : Token) {rest : List Char}
    (fits : (Piece.token token.kind token.lexeme.toList).Fits rest)
    (unclosed : (Piece.token token.kind token.lexeme.toList).isTerminated = false) :
    ∃ quote text, token.kind = .string ∧ token.lexeme.toList = quote :: text ∧
      isQuote quote = true ∧ (isQuotable quote text = !endsInEscape text) ∧
      Grammar.literal? token = some ⟨String.ofList text, .string quote⟩ := by
  obtain ⟨quote, text, -, found⟩ := fits.exists_first
  have isQuote := quote_of_not_isTerminated found unclosed
  have first := first_of_quote isQuote text
  rw [found] at first
  obtain ⟨kind, lexeme⟩ := Piece.token.inj first
  obtain ⟨inner, taken, quotable⟩ | ⟨-, closes, contents⟩ := quoted_cases quote text
  · rw [kind, lexeme, taken] at unclosed
    simp [isTerminated, quotable] at unclosed
  · refine ⟨quote, _, kind, lexeme, isQuote, closes, ?_⟩
    simp [Grammar.literal?, kind, Token.contents, Token.quote?, lexeme, isQuote, contents]

end Piece

/-- Whether the text ends inside a string or block comment that cannot be closed there. -/
def dangles (source : String) : Bool :=
  (Piece.cut source.toList).any Piece.dangles

theorem dangles_eq_false_iff {source : String} :
    dangles source = false ↔ ∀ piece ∈ Piece.cut source.toList, piece.dangles = false := by
  simp [dangles]

namespace Cursor

/-- Without an end that dangles, all literals and comments can be written. -/
theorem legible_facing_cut {text : List Char}
    (closes : ∀ piece ∈ Piece.cut text, piece.dangles = false) (last : Span) (place : Place) :
    (facing last place (Piece.cut text)).Legible where
  ends := facing_endsFile _ _ _
  names token member kind := by
    have inside := mem_of_mem_rest member
    have genuine := Piece.genuine_of_mem_cut inside (by rw [kind]; rfl)
    rw [kind] at genuine
    exact isIdentifier_iff.mpr genuine
  literals token member literal found := by
    have inside := mem_of_mem_rest member
    cases terminated : (Piece.token token.kind token.lexeme.toList).isTerminated with
    | true =>
      exact Grammar.isToken_of_literal? (Piece.genuine_of_mem_cut inside terminated) found
    | false =>
      obtain ⟨front, split, -⟩ := Piece.exists_cut_of_open inside terminated
      obtain ⟨quote, text, -, lexeme, isQuote, quotable, read⟩ :=
        Piece.open_string token (Piece.fits_of_cut split) terminated
      have plain := closes _ inside
      rw [Piece.dangles, terminated, lexeme, Bool.not_false, Bool.true_and,
        Piece.endsInEscape_cons (isQuote_ne_backslash isQuote)] at plain
      obtain rfl := Option.some.inj (read.symm.trans found)
      exact ⟨isQuote, by simpa [plain] using quotable⟩
  comments comment member := by
    obtain ⟨piece, inside, said⟩ := exists_piece_of_mem_comments member
    rw [Comment.IsWritable]
    rcases Piece.comment_of_note? said with ⟨⟨line, rfl⟩, same⟩ | ⟨body, closed, rfl, same⟩
    · rw [same]
      exact Piece.genuine_of_mem_cut inside rfl
    · rw [same]
      cases closed with
      | true => exact Piece.genuine_of_mem_cut inside rfl
      | false =>
        obtain ⟨front, split, -⟩ := Piece.exists_cut_of_open inside rfl
        have plain := closes _ inside
        refine .blockComment ((Piece.enclosable_iff_of_fits (Piece.fits_of_cut split)).mpr ?_)
        simpa [Piece.dangles] using plain
  lines := lines_facing_cut text last place

end Cursor

namespace Layout

/-- The last of the pieces, if there is one, is a line feed. -/
def EndsLine (pieces : List Piece) : Prop :=
  ∀ piece ∈ pieces.getLast?, piece = newline

theorem EndsLine.append {front back : List Piece} (first : EndsLine front)
    (second : EndsLine back) : EndsLine (front ++ back) := by
  rw [EndsLine, List.getLast?_append]
  cases last : back.getLast? with
  | none => exact first
  | some piece => simpa using second piece last

theorem endsLine_append_newline (front : List Piece) : EndsLine (front ++ [newline]) := by
  simp [EndsLine]

theorem endsLine_flatMap {α : Type} {write : α → List Piece} {xs : List α}
    (each : ∀ x ∈ xs, EndsLine (write x)) : EndsLine (xs.flatMap write) := by
  induction xs with
  | nil => simp [EndsLine]
  | cons x xs ih =>
    obtain ⟨here, later⟩ := List.forall_mem_cons.mp each
    exact here.append (ih later)

variable (o : Layout)

theorem endsLine_commentLines (depth : Nat) (comments : List Comment) :
    EndsLine (o.commentLines depth comments) := by
  unfold commentLines
  split
  · refine endsLine_flatMap fun comment _ => ?_
    rw [List.append_cons]
    exact endsLine_append_newline _
  · simp [EndsLine]

theorem endsLine_node {kind : Kind Fragment} (isStatement : kind.isStatement = true)
    (origin : Origin) (depth : Nat) : EndsLine ((o.node origin kind).write depth) := by
  have written (write : Nat → List Piece) :
      EndsLine ((o.statement origin write).write depth) := by
    change EndsLine (_ ++ (_ ++ [newline]))
    rw [← List.append_assoc]
    exact endsLine_append_newline _
  cases kind <;> try (cases isStatement; done)
  all_goals exact written _

/-- The lines of a block end with that of its last statement or comment. -/
theorem endsLine_block {t : SourceTree} (stands : t.stands .block = true) (depth : Nat) :
    EndsLine ((o.fragment t).write depth) := by
  obtain ⟨m, k⟩ := t
  obtain ⟨admits, -, parts⟩ := Tree.stands_node_iff.mp stands
  cases k <;> try (cases admits; done)
  case block statements =>
    rw [fragment_node, Kind.map, node]
    refine .append (endsLine_flatMap (List.forall_mem_map.mpr fun s member => ?_))
      (o.endsLine_commentLines depth m.trailing)
    have isStatement : s.kind.isStatement = true := by
      rw [← map_snd_lastApart .statement .lastStatement statements] at member
      obtain ⟨⟨slot, s⟩, part, rfl⟩ := List.mem_map.mp member
      have admits := Tree.admits_of_stands (parts _ part)
      rcases mem_lastApart_iff.mp part with ⟨rfl, -⟩ | ⟨rfl, -⟩
      · exact (Bool.and_eq_true_iff.mp admits).1
      · exact admits
    obtain ⟨m, k⟩ := s
    rw [fragment_node]
    exact o.endsLine_node (by rwa [Kind.isStatement_map]) m depth

theorem endsLine_pieces {t : SourceTree} (stands : t.stands .chunk = true) :
    EndsLine (o.pieces t) := by
  obtain ⟨m, k⟩ := t
  obtain ⟨admits, -, parts⟩ := Tree.stands_node_iff.mp stands
  cases k <;> try (cases admits; done)
  case chunk body =>
    rw [pieces, fragment_node, Kind.map, node]
    exact o.endsLine_block (parts (.block, body) (List.mem_singleton_self _)) 0

end Layout

/-- What is written for a program has no end that dangles. -/
theorem not_dangles_render {t : SourceTree} (stands : t.stands .chunk = true) (o : Layout) :
    dangles (t.render o) = false := by
  refine dangles_eq_false_iff.mpr (Piece.not_dangles_of_newline fun c last => ?_)
  rw [Tree.render, String.toList_ofList] at last
  have newline := o.endsLine_pieces stands
  cases pieces : (o.pieces t).getLast? with
  | none =>
    rw [List.getLast?_eq_none_iff.mp pieces] at last
    cases last
  | some piece =>
    obtain rfl := newline piece pieces
    obtain ⟨front, same⟩ := List.getLast?_eq_some_iff.mp pieces
    rw [same, Piece.textOf_append, List.getLast?_append] at last
    exact (Option.some.inj last).symm

/-- Marks are exchanged node by node. -/
theorem Tree.nodes_mapMark {ι κ : Type} (f : ι → κ) (t : Tree ι) :
    (t.mapMark f).nodes = t.nodes.map fun node => (f node.1, node.2) := by
  induction t using Tree.induct with
  | step m k ih =>
    rw [mapMark_node, nodes_node, nodes_node, Kind.map_map, Kind.children_map, List.flatMap_map,
      List.map_cons, List.map_flatMap]
    exact congrArg ((f m, _) :: ·) (List.flatMap_congr ih)

/-- Trees with the same notes have the same notes on their nodes. -/
theorem note_attachedComments_eq {t u : SourceTree} (same : t.notes = u.notes) :
    (attachedComments t.nodes).map Comment.note = (attachedComments u.nodes).map Comment.note := by
  have byNotes (t : SourceTree) : (attachedComments t.nodes).map Comment.note =
      t.notes.nodes.flatMap fun node => node.1.1 ++ node.1.2 := by
    rw [Tree.notes, Tree.nodes_mapMark, List.flatMap_map, attachedComments, List.map_flatMap]
    simp only [List.map_append]
    rfl
  rw [byNotes, byNotes, same]

theorem notes_ofSource (source : String) : (Scan.ofSource source).comments.map Comment.note =
    (Piece.cut source.toList).filterMap Piece.note? := by
  rw [Scan.ofSource, Cursor.ofPieces_eq default]
  exact Cursor.notes_facing _ _ _

theorem Comment.IsWritable.enclosable {comment : Comment} {body : List Char}
    (writable : comment.IsWritable) (note : comment.note = (.block, String.ofList body)) :
    Piece.isEnclosable body := by
  obtain ⟨kind, text, span⟩ := comment
  obtain ⟨rfl, rfl⟩ := Prod.mk.inj note
  rw [IsWritable, Layout.comment, String.toList_ofList] at writable
  cases writable with
  | blockComment enclosable => exact enclosable

/-- The tokens of pieces of which the last is a token. -/
theorem Cursor.exists_rest_facing_concat (last : Span) (place : Place) (front : List Piece)
    (kind : TokenKind) (lexeme : List Char) :
    ∃ span, (facing last place (front ++ [.token kind lexeme])).rest =
      (facing last place front).rest ++ [⟨kind, String.ofList lexeme, span⟩] := by
  rw [rest_facing, rest_facing, Piece.located_append, List.filterMap_append]
  exact ⟨_, rfl⟩

open Arena

/-- The program that is written with a layout parses to the same tree, and the comments of its text
say what those of the source say. -/
def RoundTrips (o : Layout) (source : String) (t : SourceTree) : Prop :=
  ∃ r u r', (ofTree t).root = some r ∧ parse ((ofTree t).render r o) = .ok u ∧
    (ofTree u).root = some r' ∧ (ofTree t).same r (ofTree u) r' = true ∧
    ((Scan.ofSource ((ofTree t).render r o)).comments.map Comment.note).Perm
      ((Scan.ofSource source).comments.map Comment.note)

theorem roundTrips_iff {o : Layout} {source : String} {t : SourceTree} :
    RoundTrips o source t ↔ ∃ u, parse (t.render o) = .ok u ∧ t.same u = true ∧
      ((Scan.ofSource (t.render o)).comments.map Comment.note).Perm
        ((Scan.ofSource source).comments.map Comment.note) := by
  have written : (ofTree t).render (top t) o = t.render o := by rw [render, tree_ofTree]
  have same (u : SourceTree) : (ofTree t).same (top t) (ofTree u) (top u) = t.same u := by
    rw [same_eq, tree_ofTree, tree_ofTree]
  simp only [RoundTrips, root_ofTree, Option.some.injEq, exists_and_left, exists_eq_left', written,
    same]

variable {source : String} {t : SourceTree} {o : Layout}

/-- A text without an end that dangles comes back. -/
theorem roundTrips_of_not_dangles (closes : dangles source = false) (parsed : parse source = .ok t)
    (blank : o.IsBlank) (comments : o.comments = true) : RoundTrips o source t := by
  have formed := writable_of_legible parsed fun last =>
    Cursor.legible_facing_cut (dangles_eq_false_iff.mp closes) last .start
  obtain ⟨u, reparsed, notes⟩ := parse_render blank formed
  rw [Layout.outline_eq_notes comments] at notes
  refine roundTrips_iff.mpr ⟨u, reparsed, Tree.same_of_mapMark_eq notes.symm, ?_⟩
  have before := (attached_of_parse parsed).1.map Comment.note
  have behind := (attached_of_parse reparsed).1.map Comment.note
  rw [note_attachedComments_eq notes] at behind
  exact behind.symm.trans before

/-- A string that dangles is a literal that cannot be written. -/
theorem not_everyLiteral_of_dangles {front : List Piece} {kind : TokenKind} {lexeme : List Char}
    (parsed : parse source = .ok t)
    (split : Piece.cut source.toList = front ++ [.token kind lexeme])
    (terminated : ∀ piece ∈ front, piece.isTerminated = true)
    (dangles : (Piece.token kind lexeme).dangles = true) :
    ¬ t.EveryLiteral Literal.IsToken := by
  obtain ⟨last, start⟩ := Cursor.exists_facing_cut source
  obtain ⟨c', read⟩ := parseTokens_ok_iff.mp parsed
  rw [start, split] at read
  obtain ⟨span, rest⟩ := Cursor.exists_rest_facing_concat last .start front kind lexeme
  have fits := Piece.fits_of_cut split
  have unclosed := Piece.isTerminated_of_dangles dangles
  rw [← String.toList_ofList (l := lexeme)] at fits unclosed
  obtain ⟨quote, text, isString, opened, isQuote, closes, literal⟩ :=
    Piece.open_string ⟨kind, String.ofList lexeme, span⟩ fits unclosed
  refine read.not_everyLiteral (Cursor.facing_endsFile _ _ _) rest ?_ isString literal ?_
  · intro token member
    have inside := Cursor.mem_of_mem_rest member
    exact Piece.genuine_of_mem_cut (split ▸ List.mem_append_left _ inside) (terminated _ inside)
  · rintro ⟨-, quotable⟩
    rw [String.toList_ofList] at quotable opened
    have escape := (Bool.and_eq_true_iff.mp dangles).2
    rw [opened, Piece.endsInEscape_cons (isQuote_ne_backslash isQuote)] at escape
    rw [quotable, escape] at closes
    cases closes

/-- A program comes back only if it has no end that dangles. -/
theorem not_dangles_of_roundTrips (parsed : parse source = .ok t)
    (roundTrips : RoundTrips o source t) : dangles source = false := by
  obtain ⟨u, reparsed, same, notes⟩ := roundTrips_iff.mp roundTrips
  -- what was read from the written text can all be written, and the source says the same
  have legible (last : Span) := Cursor.legible_facing_cut
    (dangles_eq_false_iff.mp (not_dangles_render (stands_of_parse parsed) o)) last .start
  refine dangles_eq_false_iff.mpr fun piece member => Bool.eq_false_iff.mpr fun dangles => ?_
  obtain ⟨front, split, terminated⟩ :=
    Piece.exists_cut_of_open member (Piece.isTerminated_of_dangles dangles)
  cases piece with
  | blank | lineComment => cases dangles
  | token kind lexeme =>
    have formed := writable_of_legible reparsed legible
    exact not_everyLiteral_of_dangles parsed split terminated dangles
      (formed.everyLiteral.of_same same)
  | blockComment body closed =>
    obtain ⟨unclosed, bracket⟩ := Bool.and_eq_true_iff.mp dangles
    obtain rfl : closed = false := (Bool.not_eq_true' _).mp unclosed
    have said :
        (.block, String.ofList body) ∈ (Scan.ofSource source).comments.map Comment.note := by
      rw [notes_ofSource]
      exact List.mem_filterMap.mpr ⟨_, member, rfl⟩
    rw [← notes.mem_iff, notes_ofSource, ← Cursor.notes_facing default .start] at said
    obtain ⟨comment, inside, note⟩ := List.mem_map.mp said
    have enclosable := ((legible default).comments comment inside).enclosable note
    exact (Piece.enclosable_iff_of_fits (Piece.fits_of_cut split)).mp enclosable
      (beq_iff_eq.mp bracket)

/-- A program comes back from what a layout writes, with all of its comments, exactly if its source
has no end that dangles. Without one it may end inside a string or a comment. -/
theorem roundTrips_iff_not_dangles (parsed : parse source = .ok t) (blank : o.IsBlank)
    (comments : o.comments = true) : RoundTrips o source t ↔ dangles source = false :=
  ⟨not_dangles_of_roundTrips parsed,
    fun closes => roundTrips_of_not_dangles closes parsed blank comments⟩

/-- A string that ends in an escaped backslash comes back, and a comment with a bracket inside. -/
theorem roundTrips_iff_not_dangles_open :
    (isTerminated "f(x) -- a\nreturn 'it\\'s\\\\" = false ∧
      ∃ t, parse "f(x) -- a\nreturn 'it\\'s\\\\" = .ok t ∧
        RoundTrips {} "f(x) -- a\nreturn 'it\\'s\\\\" t) ∧
    isTerminated "do end --[[ b ]c" = false ∧
      ∃ t, parse "do end --[[ b ]c" = .ok t ∧ RoundTrips {} "do end --[[ b ]c" t := by
  obtain ⟨t, string⟩ : ∃ t, parse "f(x) -- a\nreturn 'it\\'s\\\\" = .ok t :=
    exists_parse (by decide +kernel)
  obtain ⟨u, comment⟩ : ∃ u, parse "do end --[[ b ]c" = .ok u := exists_parse (by decide +kernel)
  exact ⟨⟨by decide +kernel, t, string,
      (roundTrips_iff_not_dangles string (by decide) rfl).mpr (by decide +kernel)⟩,
    by decide +kernel, u, comment,
      (roundTrips_iff_not_dangles comment (by decide) rfl).mpr (by decide +kernel)⟩

/-- A string that ends in a backslash takes the quote behind it for its own, and a comment that ends
in a bracket leaves one of the brackets behind it. -/
theorem not_roundTrips_dangling :
    (isTerminated "return 'a\\" = false ∧
      ∃ t, parse "return 'a\\" = .ok t ∧ ¬ RoundTrips {} "return 'a\\" t) ∧
    isTerminated "f() --[[a]" = false ∧
      ∃ t, parse "f() --[[a]" = .ok t ∧ ¬ RoundTrips {} "f() --[[a]" t := by
  obtain ⟨t, string⟩ : ∃ t, parse "return 'a\\" = .ok t := exists_parse (by decide +kernel)
  obtain ⟨u, comment⟩ : ∃ u, parse "f() --[[a]" = .ok u := exists_parse (by decide +kernel)
  refine ⟨⟨by decide +kernel, t, string, fun back => ?_⟩, by decide +kernel, u, comment,
    fun back => ?_⟩
  · exact absurd (not_dangles_of_roundTrips string back) (by decide +kernel)
  · exact absurd (not_dangles_of_roundTrips comment back) (by decide +kernel)

end LuaTree
