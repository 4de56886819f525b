import LuaTree.Proofs.FirstToken

/-!
# Cursors over pieces

`Cursor.facing` is the cursor before some pieces that begin at a place. `Before`
and `Behind` hide the places: the first says which pieces are in front of a
cursor, the second also that the token just read ends where they begin. All that
the grammar asks about places, whether a line breaks before a token and which
comments belong to a statement, follows from the pieces in front.
-/

namespace LuaTree

namespace Place

theorem offset_le_after (place : Place) (text : List Char) :
    place.offset ≤ (place.after text).offset := by
  induction text generalizing place with
  | nil => exact Nat.le_refl _
  | cons c text ih =>
    have step : place.offset ≤ (place.next c).offset := Nat.le_add_right _ _
    exact Nat.le_trans step (ih _)

theorem offset_lt_after (place : Place) {text : List Char} (some : text ≠ []) :
    place.offset < (place.after text).offset := by
  cases text with
  | nil => exact absurd rfl some
  | cons c text =>
    have step : place.offset < (place.next c).offset := Nat.lt_add_of_pos_right c.utf8Size_pos
    exact Nat.lt_of_lt_of_le step (offset_le_after _ _)

theorem line_le_next (place : Place) (c : Char) :
    place.position.line ≤ (place.next c).position.line := by
  simp only [next]
  split <;> simp

theorem line_le_after (place : Place) (text : List Char) :
    place.position.line ≤ (place.after text).position.line := by
  induction text generalizing place with
  | nil => exact Nat.le_refl _
  | cons c text ih => exact Nat.le_trans (line_le_next place c) (ih _)

theorem line_lt_after (place : Place) {text : List Char} (newline : '\n' ∈ text) :
    place.position.line < (place.after text).position.line := by
  induction text generalizing place with
  | nil => simp at newline
  | cons c text ih =>
    rcases List.mem_cons.mp newline with rfl | newline
    · exact Nat.lt_of_lt_of_le (Nat.lt_succ_self _) (line_le_after (place.next '\n') text)
    · exact Nat.lt_of_le_of_lt (line_le_next place c) (ih _ newline)

/-- Text without a line feed stays on its line. -/
theorem line_after (place : Place) {text : List Char} (noNewline : '\n' ∉ text) :
    (place.after text).position.line = place.position.line := by
  induction text generalizing place with
  | nil => rfl
  | cons c text ih =>
    rw [List.mem_cons, not_or] at noNewline
    rw [after_cons, ih _ noNewline.2]
    simp [next, Ne.symm noNewline.1]

end Place

/-- What a comment says, wherever it stands. -/
abbrev Note := CommentKind × String

def Comment.note (c : Comment) : Note :=
  (c.kind, c.text)

namespace Piece

def note? : Piece → Option Note
  | lineComment text => some (.line, String.ofList text)
  | blockComment text _ => some (.block, String.ofList text)
  | _ => none

def isToken : Piece → Bool
  | token .. => true
  | _ => false

@[simp] theorem note?_comment (c : Comment) : (Layout.comment c).note? = some c.note := by
  obtain ⟨kind, text, span⟩ := c
  cases kind <;> simp [Layout.comment, note?, Comment.note]

end Piece

namespace Cursor

/-- The cursor with one more piece in front. -/
def add (span : Span) (c : Cursor) : Piece → Cursor
  | .blank _ => c
  | .lineComment text => { c with comments := ⟨.line, String.ofList text, span⟩ :: c.comments }
  | .blockComment text _ => { c with comments := ⟨.block, String.ofList text, span⟩ :: c.comments }
  | .token kind lexeme => { c with rest := ⟨kind, String.ofList lexeme, span⟩ :: c.rest }

/-- The cursor before pieces that begin at a place. -/
def facing (last : Span) (place : Place) : List Piece → Cursor
  | [] => ⟨[], ⟨.eof, "", .between place place⟩, last, []⟩
  | piece :: pieces =>
    (facing last (place.after piece.chars) pieces).add
      (.between place (place.after piece.chars)) piece

theorem facing_endsFile (last : Span) (place : Place) (pieces : List Piece) :
    (facing last place pieces).EndsFile := by
  induction pieces generalizing place with
  | nil => rfl
  | cons piece pieces ih => cases piece <;> exact ih _

theorem facing_last (last other : Span) (place : Place) (pieces : List Piece) :
    { facing last place pieces with last := other } = facing other place pieces := by
  induction pieces generalizing place with
  | nil => rfl
  | cons piece pieces ih =>
    simp only [facing, ← ih]
    cases piece <;> rfl

theorem last_facing (last : Span) (place : Place) (pieces : List Piece) :
    (facing last place pieces).last = last := by
  rw [← facing_last last last]

theorem ofPieces_eq (last : Span) (place : Place) (pieces : List Piece) :
    Scan.ofPieces place pieces =
      ⟨(facing last place pieces).rest ++ [(facing last place pieces).stop],
        (facing last place pieces).comments⟩ := by
  induction pieces generalizing place with
  | nil => rfl
  | cons piece pieces ih =>
    rw [Scan.ofPieces, ih]
    cases piece <;> rfl

/-- The tokens before the cursor are among the pieces. -/
theorem mem_of_mem_rest {last : Span} {place : Place} {pieces : List Piece} {token : Token}
    (member : token ∈ (facing last place pieces).rest) :
    .token token.kind token.lexeme.toList ∈ pieces := by
  induction pieces generalizing place with
  | nil => simp [facing] at member
  | cons piece pieces ih =>
    cases piece with
    | token kind lexeme =>
      rcases List.mem_cons.mp member with rfl | member
      · simp
      · exact List.mem_cons_of_mem _ (ih member)
    | blank | lineComment | blockComment => exact List.mem_cons_of_mem _ (ih member)

/-- A cursor before the tokens that are scanned from pieces is the one that faces the pieces. -/
theorem ofTokens_ofPieces (place : Place) (pieces : List Piece)
    (noEnd : ∀ lexeme, .token .eof lexeme ∉ pieces) :
    ∃ last, Cursor.ofTokens (Scan.ofPieces place pieces).tokens
      (Scan.ofPieces place pieces).comments = facing last place pieces := by
  rw [ofPieces_eq default]
  have stop : (facing default place pieces).stop.kind = .eof := facing_endsFile _ _ _
  have rest : ∀ token ∈ (facing default place pieces).rest, (token.kind != .eof) = true := by
    intro token member
    rw [bne_iff_ne]
    intro eof
    have piece := mem_of_mem_rest member
    exact noEnd _ (eof ▸ piece)
  have none :
      (facing default place pieces).rest.find? (fun token => token.kind == .eof) = none := by
    rw [List.find?_eq_none]
    intro token member
    simpa using rest token member
  refine ⟨((facing default place pieces).rest.headD (facing default place pieces).stop).span, ?_⟩
  simp only [Cursor.ofTokens, List.takeWhile_append_of_pos rest, List.find?_append, none, stop,
    List.takeWhile_cons, List.find?_cons, bne_self_eq_false, beq_self_eq_true, List.append_nil,
    Option.none_or, Option.getD_some, Bool.false_eq_true, ↓reduceIte]
  exact facing_last default _ place pieces

/-- The kind of the first token, or the end of the file. -/
def nextKind : List Piece → TokenKind
  | [] => .eof
  | .token kind _ :: _ => kind
  | _ :: pieces => nextKind pieces

/-- Whether a line ends before the first token. -/
def breaks : List Piece → Bool
  | [] => false
  | .token _ _ :: _ => false
  | piece :: pieces => piece.chars.contains '\n' || breaks pieces

theorem current_facing (last : Span) (place : Place) (pieces : List Piece) :
    (facing last place pieces).current.kind = nextKind pieces ∧
      place.offset ≤ (facing last place pieces).current.span.startOffset ∧
      place.position.line ≤ (facing last place pieces).current.span.start.line ∧
      (breaks pieces = true →
        place.position.line < (facing last place pieces).current.span.start.line) := by
  induction pieces generalizing place with
  | nil => exact ⟨rfl, Nat.le_refl _, Nat.le_refl _, by simp [breaks]⟩
  | cons piece pieces ih =>
    obtain ⟨kind, offset, line, broken⟩ := ih (place.after piece.chars)
    have later := Nat.le_trans (place.offset_le_after piece.chars) offset
    have below := Nat.le_trans (place.line_le_after piece.chars) line
    have newline (contains : piece.chars.contains '\n' = true) :=
      place.line_lt_after (List.contains_iff_mem.mp contains)
    cases piece with
    | token => exact ⟨rfl, Nat.le_refl _, Nat.le_refl _, by simp [breaks]⟩
    | blank | lineComment | blockComment =>
      refine ⟨kind, later, below, fun either => ?_⟩
      rcases Bool.or_eq_true_iff.mp either with inside | behind
      · exact Nat.lt_of_lt_of_le (newline inside) line
      · exact Nat.lt_of_le_of_lt (place.line_le_after _) (broken behind)

/-- A cursor with the given pieces in front of it. -/
def Before (pieces : List Piece) (c : Cursor) : Prop :=
  ∃ last place, c = facing last place pieces

/-- A cursor with the given pieces in front of it, right behind a token. -/
def Behind (pieces : List Piece) (c : Cursor) : Prop :=
  ∃ last place, c = facing last place pieces ∧ last.endOffset = place.offset ∧
    last.stop = place.position

theorem Behind.before {pieces : List Piece} {c : Cursor} (behind : Behind pieces c) :
    Before pieces c := by
  obtain ⟨last, place, same, -⟩ := behind
  exact ⟨last, place, same⟩

theorem Before.endsFile {pieces : List Piece} {c : Cursor} (before : Before pieces c) :
    c.EndsFile := by
  obtain ⟨last, place, rfl⟩ := before
  exact facing_endsFile last place pieces

theorem Before.kind {pieces : List Piece} {c : Cursor} (before : Before pieces c) :
    c.current.kind = nextKind pieces := by
  obtain ⟨last, place, rfl⟩ := before
  exact (current_facing last place pieces).1

theorem Before.blank {d : Char} {pieces : List Piece} {c : Cursor}
    (before : Before (.blank d :: pieces) c) : Before pieces c := by
  obtain ⟨last, place, rfl⟩ := before
  exact ⟨last, place.after [d], rfl⟩

/-- The token in front and what is behind it. -/
theorem Before.token {kind : TokenKind} {lexeme : List Char} {pieces : List Piece} {c : Cursor}
    (before : Before (.token kind lexeme :: pieces) c) :
    c.current.kind = kind ∧ c.current.lexeme = String.ofList lexeme ∧
      Behind pieces c.advance := by
  obtain ⟨last, place, rfl⟩ := before
  refine ⟨rfl, rfl, .between place (place.after lexeme), place.after lexeme, ?_, rfl, rfl⟩
  exact facing_last last _ _ pieces

/-- A token right behind the one just read stands on its line. -/
theorem Behind.sameLine {kind : TokenKind} {lexeme : List Char} {pieces : List Piece} {c : Cursor}
    (behind : Behind (.token kind lexeme :: pieces) c) : c.breaksLine = false := by
  obtain ⟨last, place, rfl, -, stop⟩ := behind
  simp only [breaksLine, last_facing, stop]
  exact decide_eq_false (Nat.lt_irrefl _)

theorem Behind.breaksLine {pieces : List Piece} {c : Cursor} (behind : Behind pieces c)
    (broken : breaks pieces = true) : c.breaksLine = true := by
  obtain ⟨last, place, rfl, -, stop⟩ := behind
  simp only [Cursor.breaksLine, last_facing, stop]
  exact decide_eq_true ((current_facing last place pieces).2.2.2 broken)

theorem notes_facing (last : Span) (place : Place) (pieces : List Piece) :
    (facing last place pieces).comments.map Comment.note = pieces.filterMap Piece.note? := by
  induction pieces generalizing place with
  | nil => rfl
  | cons piece pieces ih =>
    cases piece <;> simp [facing, add, Piece.note?, Comment.note, List.filterMap_cons, ih]

/-- Comments stand between the beginning of the pieces and their end. -/
theorem comments_facing {last : Span} {place : Place} {pieces : List Piece} {comment : Comment}
    (member : comment ∈ (facing last place pieces).comments) :
    place.offset ≤ comment.span.startOffset ∧
      comment.span.startOffset < comment.span.endOffset ∧
      comment.span.endOffset ≤ (place.after (Piece.textOf pieces)).offset ∧
      place.position.line ≤ comment.span.start.line := by
  induction pieces generalizing place with
  | nil => simp [facing] at member
  | cons piece pieces ih =>
    have first (some : piece.chars ≠ []) :
        place.offset < (place.after piece.chars).offset ∧ (place.after piece.chars).offset ≤
          (place.after (Piece.textOf (piece :: pieces))).offset := by
      rw [Piece.textOf_cons, Place.after_append]
      exact ⟨place.offset_lt_after some, Place.offset_le_after _ _⟩
    have tail (inside : comment ∈ (facing last (place.after piece.chars) pieces).comments) :
        place.offset ≤ comment.span.startOffset ∧
          comment.span.startOffset < comment.span.endOffset ∧
          comment.span.endOffset ≤ (place.after (Piece.textOf (piece :: pieces))).offset ∧
          place.position.line ≤ comment.span.start.line := by
      obtain ⟨start, some, stop, line⟩ := ih inside
      rw [Piece.textOf_cons, Place.after_append]
      exact ⟨Nat.le_trans (place.offset_le_after _) start, some, stop,
        Nat.le_trans (place.line_le_after _) line⟩
    cases piece with
    | blank | token => exact tail member
    | lineComment | blockComment =>
      rcases List.mem_cons.mp member with rfl | member
      · obtain ⟨some, stop⟩ := first (by simp [Piece.chars])
        exact ⟨Nat.le_refl _, some, stop, Nat.le_refl _⟩
      · exact tail member

/-- Pieces without a token only add comments. -/
theorem facing_append {last : Span} {place : Place} {pieces more : List Piece}
    (free : ∀ piece ∈ pieces, piece.isToken = false) :
    facing last place (pieces ++ more) =
      { facing last (place.after (Piece.textOf pieces)) more with
        comments := (facing last place pieces).comments ++
          (facing last (place.after (Piece.textOf pieces)) more).comments } := by
  induction pieces generalizing place with
  | nil => rfl
  | cons piece pieces ih =>
    obtain ⟨notToken, free⟩ := List.forall_mem_cons.mp free
    simp only [List.cons_append, facing, ih free, Piece.textOf_cons, Place.after_append]
    cases piece with
    | token => simp [Piece.isToken] at notToken
    | blank | lineComment | blockComment => rfl

/-- The comments that a statement or the end of a block finds before it. -/
theorem Before.leading {pieces more : List Piece} {c : Cursor} (before : Before (pieces ++ more) c)
    (free : ∀ piece ∈ pieces, piece.isToken = false)
    (starts : ∀ piece ∈ more.head?, piece.isToken = true) :
    c.leading.map Comment.note = pieces.filterMap Piece.note? ∧ Before more c.afterLeading := by
  obtain ⟨last, place, rfl⟩ := before
  rw [facing_append free]
  generalize place' : place.after (Piece.textOf pieces) = middle
  have front : (facing last middle more).current.span.startOffset = middle.offset := by
    cases more with
    | nil => rfl
    | cons piece more =>
      have isToken := starts piece rfl
      cases piece with
      | token => rfl
      | blank | lineComment | blockComment => simp [Piece.isToken] at isToken
  have inside : ∀ comment ∈ (facing last place pieces).comments,
      (facing last middle more).isBefore comment = true := by
    intro comment member
    have stop := (comments_facing member).2.2.1
    rw [place', ← front] at stop
    exact decide_eq_true stop
  have outside : ∀ comment ∈ (facing last middle more).comments.head?,
      (facing last middle more).isBefore comment = false := by
    intro comment member
    obtain ⟨start, some, -, -⟩ := comments_facing (List.mem_of_mem_head? member)
    refine decide_eq_false ?_
    omega
  obtain ⟨taken, left⟩ := takeWhile_dropWhile_append inside outside
  refine ⟨?_, last, middle, ?_⟩
  · rw [← notes_facing last place pieces]
    exact congrArg (List.map Comment.note) taken
  · exact congrArg (fun pending => { facing last middle more with comments := pending }) left

/-- Pieces of which no line feed stands before a comment. -/
def isOneLine : List Piece → Bool
  | [] => true
  | piece :: pieces =>
    (!piece.chars.contains '\n' || pieces.all (·.note?.isNone)) && isOneLine pieces

theorem line_of_isOneLine {last : Span} {place : Place} {pieces : List Piece} {comment : Comment}
    (oneLine : isOneLine pieces = true) (member : comment ∈ (facing last place pieces).comments) :
    comment.span.start.line = place.position.line := by
  induction pieces generalizing place with
  | nil => simp [facing] at member
  | cons piece pieces ih =>
    obtain ⟨first, oneLine⟩ := Bool.and_eq_true_iff.mp oneLine
    have tail (inside : comment ∈ (facing last (place.after piece.chars) pieces).comments) :
        comment.span.start.line = place.position.line := by
      rcases Bool.or_eq_true_iff.mp first with noNewline | noComment
      · rw [ih oneLine inside, Place.line_after _ (by simpa using noNewline)]
      · have note := List.mem_map_of_mem (f := Comment.note) inside
        rw [notes_facing, List.mem_filterMap] at note
        obtain ⟨other, among, isNote⟩ := note
        have none := List.all_eq_true.mp noComment other among
        simp [isNote] at none
    cases piece with
    | blank | token => exact tail member
    | lineComment | blockComment =>
      rcases List.mem_cons.mp member with rfl | member
      · rfl
      · exact tail member

theorem trailing_sublist (c : Cursor) : c.trailing.Sublist c.comments :=
  (List.takeWhile_sublist _).trans (List.dropWhile_sublist _)

/-- The comments that a statement finds behind it, up to the end of its line. -/
theorem Behind.trailing {pieces more : List Piece} {c : Cursor}
    (behind : Behind (pieces ++ .blank '\n' :: more) c)
    (free : ∀ piece ∈ pieces, piece.isToken = false) (oneLine : isOneLine pieces = true) :
    c.trailing.map Comment.note = pieces.filterMap Piece.note? ∧ Before more c.afterTrailing := by
  obtain ⟨last, place, rfl, offset, stop⟩ := behind
  rw [facing_append free]
  generalize place' : place.after (Piece.textOf pieces) = middle
  -- the line feed takes all later comments off the line
  have next : facing last middle (.blank '\n' :: more) = facing last (middle.next '\n') more := rfl
  rw [next]
  generalize whole : { facing last (middle.next '\n') more with
    comments := (facing last place pieces).comments ++
      (facing last (middle.next '\n') more).comments } = c
  have lastSpan : c.last = last := by rw [← whole]; exact last_facing _ _ _
  have front : middle.offset ≤ c.current.span.startOffset := by
    have later := (current_facing last (middle.next '\n') more).2.1
    have step : middle.offset ≤ (middle.next '\n').offset := Nat.le_add_right _ _
    rw [← whole]
    exact Nat.le_trans step later
  have middleLine : place.position.line ≤ middle.position.line :=
    place' ▸ place.line_le_after _
  have comments : c.comments = (facing last place pieces).comments ++
      (facing last (middle.next '\n') more).comments := by rw [← whole]
  have notInside : ∀ comment ∈ c.comments, c.isInside comment = false := by
    intro comment member
    have start : place.offset ≤ comment.span.startOffset := by
      rw [comments] at member
      rcases List.mem_append.mp member with member | member
      · exact (comments_facing member).1
      · have later := (comments_facing member).1
        have step : middle.offset ≤ (middle.next '\n').offset := Nat.le_add_right _ _
        have first : place.offset ≤ middle.offset := place' ▸ place.offset_le_after _
        omega
    refine decide_eq_false ?_
    rw [lastSpan, offset]
    omega
  have inside : ∀ comment ∈ (facing last place pieces).comments, c.trails comment = true := by
    intro comment member
    have line := line_of_isOneLine oneLine member
    have before := (comments_facing member).2.2.1
    rw [place'] at before
    simp only [trails, lastSpan, stop, line, beq_self_eq_true, Bool.true_and]
    exact decide_eq_true (Nat.le_trans before front)
  have outside : ∀ comment ∈ (facing last (middle.next '\n') more).comments.head?,
      c.trails comment = false := by
    intro comment member
    have line := (comments_facing (List.mem_of_mem_head? member)).2.2.2
    have newline : (middle.next '\n').position.line = middle.position.line + 1 := rfl
    have other : comment.span.start.line ≠ place.position.line := by omega
    simp [trails, lastSpan, stop, other]
  obtain ⟨none, all⟩ : c.comments.takeWhile c.isInside = [] ∧
      c.comments.dropWhile c.isInside = c.comments := by
    have first : ∀ comment ∈ c.comments.head?, c.isInside comment = false :=
      fun comment member => notInside comment (List.mem_of_mem_head? member)
    exact @takeWhile_dropWhile_append _ _ [] _ nofun first
  obtain ⟨taken, left⟩ := takeWhile_dropWhile_append inside outside
  refine ⟨?_, last, middle.next '\n', ?_⟩
  · rw [Cursor.trailing, all, comments, taken, notes_facing]
  · rw [afterTrailing, none, all, comments, left, ← whole, List.nil_append]

end Cursor

theorem Piece.eof_not_mem_cut (text lexeme : List Char) : .token .eof lexeme ∉ cut text :=
  fun member => not_genuine_eof lexeme (genuine_of_mem_cut member rfl)

/-- The cursor with which parsing begins. -/
theorem Cursor.exists_facing_cut (source : String) :
    ∃ last, Cursor.ofTokens (Scan.ofSource source).tokens (Scan.ofSource source).comments =
      facing last .start (Piece.cut source.toList) :=
  ofTokens_ofPieces .start (Piece.cut source.toList) (Piece.eof_not_mem_cut source.toList)

end LuaTree
