import LuaTree.Proofs.Insertion
import LuaTree.Proofs.Tiling

/-!
# Comments turned into blanks

Spaces in place of the characters of all comments, line ends excepted, change no
token and no position: a comment begins with a hyphen, and what could stand before
a hyphen without running into it can stand before a space. The text then has the
same program, with the same positions, or the same error (`parse_blankComments`).
-/

namespace LuaTree

open String (utf8Len)

instance (span : Span) (offset : Nat) : Decidable (span.Covers offset) :=
  inferInstanceAs (Decidable (_ ∧ _))

/-- A space, or the end of the line if the character is one. -/
def blankChar (c : Char) : Char :=
  if c = '\n' then c else ' '

/-- The text from a byte offset on, in which comments are blank. -/
def blankFrom (comments : List Comment) (offset : Nat) : List Char → List Char
  | [] => []
  | c :: text =>
    (if ∃ comment ∈ comments, comment.span.Covers offset then blankChar c else c) ::
      blankFrom comments (offset + c.utf8Size) text

/-- The text in which every character of every comment is a space, line ends excepted. -/
def blankComments (source : String) : String :=
  String.ofList (blankFrom (Scan.ofSource source).comments 0 source.toList)

theorem isBlank_blankChar (c : Char) : Text.isBlank (blankChar c) = true := by
  unfold blankChar
  split
  · next newline => rw [newline]; decide
  · decide

theorem isDivider_space : IsDivider ' ' := ⟨by decide, by decide, by decide⟩

namespace Piece

/-- Blanks in place of a text. -/
def blanks (text : List Char) : List Piece :=
  (text.map blankChar).map .blank

def isComment : Piece → Bool
  | lineComment _ | blockComment _ _ => true
  | _ => false

/-- The piece, or blanks if it is a comment. -/
def blanked (piece : Piece) : List Piece :=
  if piece.isComment then blanks piece.chars else [piece]

theorem blanked_of_isComment {piece : Piece} (comment : piece.isComment = true) :
    piece.blanked = blanks piece.chars :=
  if_pos comment

theorem exists_chars_of_isComment {piece : Piece} (comment : piece.isComment = true) :
    ∃ more, piece.chars = '-' :: more := by
  cases piece with
  | lineComment | blockComment => exact ⟨_, rfl⟩
  | blank | token => cases comment

theorem comment?_of_not_isComment {piece : Piece} (noComment : piece.isComment = false)
    (span : Span) : comment? (piece, span) = none := by
  cases piece with
  | lineComment | blockComment => cases noComment
  | blank | token => rfl

theorem exists_comment? {piece : Piece} (isComment : piece.isComment = true) (span : Span) :
    ∃ comment, comment? (piece, span) = some comment ∧ comment.span = span := by
  cases piece with
  | lineComment | blockComment => exact ⟨_, rfl, rfl⟩
  | blank | token => cases isComment

theorem textOf_blanks (text : List Char) : textOf (blanks text) = text.map blankChar := by
  induction text with
  | nil => rfl
  | cons c text ih => exact congrArg (blankChar c :: ·) ih

theorem apart_blanks_chars (text rest : List Char) : Apart (blanks text) rest := by
  refine apart_blanks (fun c member => ?_) rest
  obtain ⟨d, -, rfl⟩ := List.mem_map.mp member
  exact isBlank_blankChar d

/-- Up to the first comment both texts are the same, and there a space stands for a hyphen. -/
theorem textOf_blanked_cases (pieces : List Piece) :
    textOf (pieces.flatMap blanked) = textOf pieces ∨
      ∃ front more others, textOf pieces = front ++ '-' :: more ∧
        textOf (pieces.flatMap blanked) = front ++ ' ' :: others := by
  induction pieces with
  | nil => exact .inl rfl
  | cons piece pieces ih =>
    rw [List.flatMap_cons, textOf_append, textOf_cons, blanked]
    split
    · next comment =>
      obtain ⟨more, hyphen⟩ := exists_chars_of_isComment comment
      rw [textOf_blanks, hyphen]
      exact .inr ⟨[], _, _, rfl, rfl⟩
    · rw [textOf_cons, textOf_nil, List.append_nil]
      obtain same | ⟨front, more, others, whole, blank⟩ := ih
      · exact .inl (by rw [same])
      · refine .inr ⟨piece.chars ++ front, more, others, ?_, ?_⟩
        · rw [whole, List.append_assoc]
        · rw [blank, List.append_assoc]

theorem Fits.blanked {piece : Piece} {pieces : List Piece} (fits : piece.Fits (textOf pieces))
    (noComment : piece.isComment = false) :
    piece.Fits (textOf (pieces.flatMap Piece.blanked)) := by
  obtain same | ⟨front, more, others, whole, blank⟩ := textOf_blanked_cases pieces
  · rwa [same]
  · have terminated := fits.isTerminated (by simp [whole])
    rw [whole] at fits
    rw [blank]
    refine fits.of_append.extend isDivider_space terminated fun _ text line => ?_
    rw [line] at noComment
    cases noComment

theorem Apart.blanked {pieces : List Piece} (apart : Apart pieces []) :
    Apart (pieces.flatMap Piece.blanked) [] := by
  induction pieces with
  | nil => trivial
  | cons piece pieces ih =>
    obtain ⟨fits, apart⟩ := apart
    rw [List.append_nil] at fits
    rw [List.flatMap_cons, apart_append, List.append_nil]
    refine ⟨?_, ih apart⟩
    rw [Piece.blanked]
    split
    · exact apart_blanks_chars _ _
    · next noComment => exact ⟨fits.blanked (by simpa using noComment), trivial⟩

/-- The pieces of the blank text are those of the text, with blanks for comments. -/
theorem cut_blanked (text : List Char) :
    cut (textOf ((cut text).flatMap blanked)) = (cut text).flatMap blanked := by
  have found := cut_of_apart (apart_cut text).blanked
  rwa [List.append_nil, cut, List.append_nil] at found

section Where

variable {comments : List Comment} {offset : Nat} {chars : List Char}

theorem blankFrom_inside (rest : List Char)
    (inside : ∀ i, offset ≤ i → i < offset + utf8Len chars →
      ∃ comment ∈ comments, comment.span.Covers i) :
    blankFrom comments offset (chars ++ rest) =
      chars.map blankChar ++ blankFrom comments (offset + utf8Len chars) rest := by
  induction chars generalizing offset with
  | nil => rfl
  | cons c chars ih =>
    have size := c.utf8Size_pos
    rw [String.utf8Len_cons] at inside ⊢
    rw [List.cons_append, blankFrom, if_pos (inside offset (Nat.le_refl _) (by omega)),
      ih fun i after before => inside i (by omega) (by omega), List.map_cons, List.cons_append,
      Nat.add_assoc, Nat.add_comm c.utf8Size]

theorem blankFrom_outside (rest : List Char)
    (outside : ∀ i, offset ≤ i → i < offset + utf8Len chars →
      ¬ ∃ comment ∈ comments, comment.span.Covers i) :
    blankFrom comments offset (chars ++ rest) =
      chars ++ blankFrom comments (offset + utf8Len chars) rest := by
  induction chars generalizing offset with
  | nil => rfl
  | cons c chars ih =>
    have size := c.utf8Size_pos
    rw [String.utf8Len_cons] at outside ⊢
    rw [List.cons_append, blankFrom, if_neg (outside offset (Nat.le_refl _) (by omega)),
      ih fun i after before => outside i (by omega) (by omega), List.cons_append,
      Nat.add_assoc, Nat.add_comm c.utf8Size]

end Where

/-- The comments that begin at a place or behind it cover nothing before it. -/
theorem not_covers_located {place : Place} {pieces : List Piece} {i : Nat}
    (before : i < place.offset) :
    ¬ ∃ comment ∈ (located place pieces).filterMap comment?, comment.span.Covers i := by
  rintro ⟨comment, member, start, -⟩
  obtain ⟨entry, located, found⟩ := List.mem_filterMap.mp member
  have place := startOffset_of_mem_located located
  rw [Scan.span_of_comment? found] at start
  omega

/-- What is blank are the comments. -/
theorem blankFrom_textOf {comments : List Comment} {place : Place} {pieces : List Piece}
    (covered : ∀ i, place.offset ≤ i → ((∃ comment ∈ comments, comment.span.Covers i) ↔
      ∃ comment ∈ (located place pieces).filterMap comment?, comment.span.Covers i)) :
    blankFrom comments place.offset (textOf pieces) = textOf (pieces.flatMap blanked) := by
  induction pieces generalizing place with
  | nil => rfl
  | cons piece pieces ih =>
    have offset := place.offset_after piece.chars
    rw [located, List.filterMap_cons] at covered
    rw [textOf_cons, List.flatMap_cons, textOf_append, blanked]
    cases isComment : piece.isComment with
    | false =>
      rw [comment?_of_not_isComment isComment] at covered
      rw [blankFrom_outside, ← offset, ih]
      · simp
      · exact fun i behind => covered i (by omega)
      · intro i after before
        rw [covered i after]
        exact not_covers_located (by omega)
    | true =>
      obtain ⟨comment, found, span⟩ :=
        exists_comment? isComment (.between place (place.after piece.chars))
      rw [found] at covered
      simp only [List.exists_mem_cons_iff, span] at covered
      have covers (i : Nat) : (Span.between place (place.after piece.chars)).Covers i ↔
          place.offset ≤ i ∧ i < place.offset + utf8Len piece.chars := by
        rw [← offset]
        rfl
      rw [blankFrom_inside, ← offset, ih, if_pos rfl, textOf_blanks]
      · intro i behind
        rw [covered i (by omega), covers]
        exact or_iff_right (by omega)
      · intro i after before
        exact (covered i after).mpr (.inl ((covers i).mpr ⟨after, before⟩))

end Piece

theorem toList_blankComments (source : String) : (blankComments source).toList =
    Piece.textOf ((Piece.cut source.toList).flatMap Piece.blanked) := by
  have scan : Scan.ofSource source = _ := Piece.ofPieces_located .start (Piece.cut source.toList)
  rw [blankComments, String.toList_ofList, scan]
  have blank := @Piece.blankFrom_textOf _ .start (Piece.cut source.toList) fun i _ => Iff.rfl
  rwa [Piece.textOf_cut] at blank

/-- Tokens that may differ in their byte offsets only. -/
structure Token.SameButOffsets (t u : Token) : Prop where
  kind : t.kind = u.kind
  lexeme : t.lexeme = u.lexeme
  start : t.span.start = u.span.start
  stop : t.span.stop = u.span.stop

namespace Place

variable {p q : Place} (same : p.position = q.position)

include same

theorem position_after (text : List Char) :
    (p.after text).position = (q.after text).position := by
  induction text generalizing p q with
  | nil => exact same
  | cons c text ih =>
    apply ih
    simp only [Place.next, same]

theorem position_after_blank (text : List Char) :
    (p.after (text.map blankChar)).position = (q.after text).position := by
  induction text generalizing p q with
  | nil => exact same
  | cons c text ih =>
    apply ih
    by_cases newline : c = '\n'
    · simp [Place.next, blankChar, newline, same]
    · simp [Place.next, blankChar, newline, same]

end Place

namespace Scan

theorem ofPieces_blanks (place : Place) (text : List Char) (pieces : List Piece) :
    ofPieces place (Piece.blanks text ++ pieces) =
      ofPieces (place.after (text.map blankChar)) pieces := by
  induction text generalizing place with
  | nil => rfl
  | cons c text ih => exact ih (place.next (blankChar c))

/-- Blanks in place of comments leave the tokens where they are. -/
theorem ofPieces_blanked {p q : Place} (same : p.position = q.position) (pieces : List Piece) :
    List.Forall₂ Token.SameButOffsets (ofPieces p (pieces.flatMap Piece.blanked)).tokens
        (ofPieces q pieces).tokens ∧
      (ofPieces p (pieces.flatMap Piece.blanked)).comments = [] := by
  induction pieces generalizing p q with
  | nil => exact ⟨.cons ⟨rfl, rfl, same, same⟩ .nil, rfl⟩
  | cons piece pieces ih =>
    rw [List.flatMap_cons]
    cases piece with
    | blank c => exact ih (Place.position_after same [c])
    | lineComment | blockComment =>
      rw [Piece.blanked_of_isComment rfl, ofPieces_blanks]
      exact ih (Place.position_after_blank same _)
    | token kind lexeme =>
      have behind := Place.position_after same lexeme
      obtain ⟨tokens, comments⟩ := ih behind
      exact ⟨.cons ⟨rfl, rfl, same, behind⟩ tokens, comments⟩

theorem ofSource_blankComments (source : String) :
    List.Forall₂ Token.SameButOffsets (ofSource (blankComments source)).tokens
        (ofSource source).tokens ∧ (ofSource (blankComments source)).comments = [] := by
  rw [ofSource, toList_blankComments, Piece.cut_blanked]
  exact ofPieces_blanked rfl _

end Scan

/-- All texts and positions count. -/
def Blur.placed : Blur := ⟨id, id, id⟩

theorem Token.SameButOffsets.alike {t u : Token} (same : t.SameButOffsets u) :
    t.Alike .placed u := by
  obtain ⟨kind, lexeme, span⟩ := t
  obtain ⟨kind', lexeme', span'⟩ := u
  obtain ⟨rfl, rfl, start, stop⟩ := same
  exact ⟨rfl, fun _ => rfl, rfl, start, stop⟩

/-- Nothing is blurred. -/
theorem Tree.viewed_placed (t : SourceTree) :
    t.viewed .placed = t.mapMark fun m => (m.span.start, m.span.stop) := by
  have plain {α : Type} (k : Kind α) : k.blur .placed = k := by cases k <;> rfl
  unfold viewed mapMark
  simp only [plain]
  rfl

theorem Token.SameButOffsets.opensLine {ts us : List Token}
    (same : List.Forall₂ Token.SameButOffsets ts us) :
    List.zipWith Token.opensLine ts ts.tail = List.zipWith Token.opensLine us us.tail := by
  induction same with
  | nil => rfl
  | cons here rest ih =>
    cases rest with
    | nil => rfl
    | cons next rest =>
      refine List.cons_eq_cons.mpr ⟨?_, ih⟩
      rw [Token.opensLine, Token.opensLine, here.stop, next.start, next.kind]

/-- Comments have no bearing on the program. With spaces in their place the tokens are the same but
for byte offsets, there are no comments, and parsing gives the same error or the same nodes at the
same positions. -/
theorem parse_blankComments (source : String) :
    List.Forall₂ Token.SameButOffsets (tokenize (blankComments source)) (tokenize source) ∧
      (Scan.ofSource (blankComments source)).comments = [] ∧
      ((∃ e, parse (blankComments source) = .error e ∧ parse source = .error e) ∨
        ∃ t u, parse (blankComments source) = .ok t ∧ parse source = .ok u ∧
          (Arena.ofTree t).SameButOrigins (Arena.ofTree u) ∧
          ∀ id, ((Arena.ofTree t).span id).start = ((Arena.ofTree u).span id).start ∧
            ((Arena.ofTree t).span id).stop = ((Arena.ofTree u).span id).stop) := by
  obtain ⟨tokens, comments⟩ := Scan.ofSource_blankComments source
  refine ⟨tokens, comments, ?_⟩
  have alike := tokens.imp fun _ _ same => same.alike
  obtain ⟨t, u, parsed, parsed', same⟩ | ⟨cause, ⟨x, y⟩, beside, kind, failed, failed'⟩ :=
    parseTokens_viewed (Cursor.abreast_of_alike alike (Token.SameButOffsets.opensLine tokens))
  · rw [Blur.SameView, Tree.viewed_placed, Tree.viewed_placed] at same
    refine .inr ⟨t, u, parsed, parsed', ?_, fun id => ?_⟩
    · apply Arena.sameButOrigins_ofTree
      have shapes := congrArg Tree.unmarked same
      rwa [Tree.unmarked_mapMark, Tree.unmarked_mapMark] at shapes
    · exact Prod.mk.inj (Arena.map_origin_ofTree _ same id)
  · have place : x.SameButOffsets y := (List.forall₂_iff_zip.mp tokens).2 beside
    refine .inl ⟨_, failed, ?_⟩
    rw [kind, place.start]
    exact failed'

example : blankComments "x --a\n=--[[ b\n ]]1" = "x    \n=      \n   1" := by decide +kernel

end LuaTree
