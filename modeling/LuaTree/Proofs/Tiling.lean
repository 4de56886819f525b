import LuaTree.Proofs.Scanned
import Mathlib.Data.List.Chain
import Mathlib.Data.List.Pairwise
import Mathlib.Data.String.Basic

/-!
# Scanning covers the text

The pieces of a text stand side by side in it, and `Piece.located` gives each one
the span between the places where it begins and ends. Tokens and comments are the
located pieces that are not blanks. What is true of the pieces, that they lie in
the text one behind the other and leave out nothing, is therefore true of tokens
and comments, but for the blanks (`tiles_ofSource`). Keywords are whole words, so
that between two of them something stands (`tokens_apart`).

Offsets count bytes, so that a span covers a slice of the text in the sense of
`String.Pos.Raw.extract`.
-/

namespace LuaTree

open String (utf8Len)

namespace Span

/-- The part of a text that a span covers. -/
def textIn (span : Span) (source : String) : String :=
  String.Pos.Raw.extract source ⟨span.startOffset⟩ ⟨span.endOffset⟩

/-- Both ends of the span stand in the text, not inside a character. -/
structure Within (span : Span) (source : String) : Prop where
  ordered : span.startOffset ≤ span.endOffset
  inRange : span.endOffset ≤ source.utf8ByteSize
  start : String.Pos.Raw.Valid source ⟨span.startOffset⟩
  stop : String.Pos.Raw.Valid source ⟨span.endOffset⟩

/-- The byte at an offset belongs to the span. -/
def Covers (span : Span) (offset : Nat) : Prop :=
  span.startOffset ≤ offset ∧ offset < span.endOffset

end Span

/-- The comment is written at its span as its kind demands. Only a block comment that runs to the
end of the text may lack its closing brackets. -/
def Comment.WrittenIn (comment : Comment) (source : String) : Prop :=
  match comment.kind with
  | .line => comment.span.textIn source = "--" ++ comment.text ∧ '\n' ∉ comment.text.toList
  | .block =>
    (comment.span.textIn source = "--[[" ++ comment.text ++ "]]" ∨
      comment.span.textIn source = "--[[" ++ comment.text ∧
        comment.span.endOffset = source.utf8ByteSize) ∧
    ¬ [']', ']'] <:+: comment.text.toList

/-- The spans of all tokens and comments. -/
def Scan.spans (scan : Scan) : List Span :=
  scan.tokens.map Token.span ++ scan.comments.map Comment.span

/-- The tokens and comments of a text are its slices, one behind the other, and only blanks stand
between them. -/
structure Scan.Tiles (scan : Scan) (source : String) : Prop where
  ends : ∃ body stop, scan.tokens = body ++ [stop] ∧ stop.kind = .eof ∧ stop.lexeme = "" ∧
    stop.span.startOffset = source.utf8ByteSize ∧ stop.span.endOffset = source.utf8ByteSize ∧
    ∀ token ∈ body, token.kind ≠ .eof ∧ token.lexeme ≠ ""
  within : ∀ span ∈ scan.spans, span.Within source
  tokens : scan.tokens.Pairwise fun a b => a.span.endOffset ≤ b.span.startOffset
  comments : scan.comments.Pairwise fun a b => a.span.endOffset ≤ b.span.startOffset
  apart : ∀ token ∈ scan.tokens, ∀ comment ∈ scan.comments,
    token.span.endOffset ≤ comment.span.startOffset ∨
      comment.span.endOffset ≤ token.span.startOffset
  lexemes : ∀ token ∈ scan.tokens, token.span.textIn source = token.lexeme
  written : ∀ comment ∈ scan.comments, comment.WrittenIn source
  blanks : ∀ before c after, source.toList = before ++ c :: after →
    (∀ span ∈ scan.spans, ¬ span.Covers (utf8Len before)) → Text.isBlank c = true

section Extract

variable {source : String} {before after : List Char} (split : source.toList = before ++ after)

include split

theorem toList_extract_before :
    (String.Pos.Raw.extract source 0 ⟨utf8Len before⟩).toList = before := by
  have whole : source = String.ofList (before ++ after) := by rw [← split, String.ofList_toList]
  have part := String.extract_of_valid [] before after
  rw [String.utf8Len_nil, Nat.zero_add, List.nil_append, ← whole] at part
  exact (congrArg String.toList part).trans String.toList_ofList

theorem toList_extract_behind :
    (String.Pos.Raw.extract source ⟨utf8Len before⟩ ⟨source.utf8ByteSize⟩).toList =
      after := by
  have whole : source = String.ofList (before ++ after) := by rw [← split, String.ofList_toList]
  have size : source.utf8ByteSize = utf8Len before + utf8Len after := by
    rw [← String.utf8Len_toList, split, String.utf8Len_append]
  have part := String.extract_of_valid before after []
  rw [List.append_nil, ← whole, ← size] at part
  exact (congrArg String.toList part).trans String.toList_ofList

end Extract

theorem Place.offset_after (place : Place) (text : List Char) :
    (place.after text).offset = place.offset + utf8Len text := by
  induction text generalizing place with
  | nil => rfl
  | cons c text ih =>
    have step : (place.next c).offset = place.offset + c.utf8Size := rfl
    rw [Place.after_cons, ih, step, String.utf8Len_cons]
    omega

namespace Span

/-- The span of a text behind another one, both read from the start. -/
def behind (before text : List Char) : Span :=
  .between (Place.start.after before) (Place.start.after (before ++ text))

theorem startOffset_behind (before text : List Char) :
    (behind before text).startOffset = utf8Len before := by
  change (Place.start.after before).offset = utf8Len before
  rw [Place.offset_after]
  exact Nat.zero_add _

theorem endOffset_behind (before text : List Char) :
    (behind before text).endOffset = utf8Len before + utf8Len text := by
  change (Place.start.after (before ++ text)).offset = utf8Len before + utf8Len text
  rw [Place.offset_after, String.utf8Len_append]
  exact Nat.zero_add _

variable {source : String} {before text after : List Char}

theorem textIn_behind (whole : source.toList = before ++ text ++ after) :
    (behind before text).textIn source = String.ofList text := by
  have same : source = String.ofList (before ++ text ++ after) := by
    rw [← whole, String.ofList_toList]
  rw [textIn, startOffset_behind, endOffset_behind, same]
  exact String.extract_of_valid before text after

theorem within_behind (whole : source.toList = before ++ text ++ after) :
    (behind before text).Within source := by
  have size : source.utf8ByteSize = utf8Len before + utf8Len text + utf8Len after := by
    rw [← String.utf8Len_toList, whole, String.utf8Len_append, String.utf8Len_append]
  constructor
  · rw [startOffset_behind, endOffset_behind]
    omega
  · rw [endOffset_behind]
    omega
  · apply String.Pos.Raw.Valid.intro
    refine ⟨before, text ++ after, ?_, startOffset_behind before text⟩
    rw [whole, List.append_assoc]
  · apply String.Pos.Raw.Valid.intro
    refine ⟨before ++ text, after, whole.symm, ?_⟩
    rw [String.utf8Len_append]
    exact endOffset_behind _ _

end Span

namespace Piece

/-- Pieces that begin at a place, each with its span. -/
def located (place : Place) : List Piece → List (Piece × Span)
  | [] => []
  | piece :: pieces =>
    (piece, .between place (place.after piece.chars)) :: located (place.after piece.chars) pieces

def token? : Piece × Span → Option Token
  | (.token kind lexeme, span) => some ⟨kind, String.ofList lexeme, span⟩
  | _ => none

def comment? : Piece × Span → Option Comment
  | (.lineComment text, span) => some ⟨.line, String.ofList text, span⟩
  | (.blockComment text _, span) => some ⟨.block, String.ofList text, span⟩
  | _ => none

theorem ofPieces_located (place : Place) (pieces : List Piece) :
    Scan.ofPieces place pieces =
      ⟨(located place pieces).filterMap token? ++
          [⟨.eof, "", .between (place.after (textOf pieces)) (place.after (textOf pieces))⟩],
        (located place pieces).filterMap comment?⟩ := by
  induction pieces generalizing place with
  | nil => rfl
  | cons piece pieces ih =>
    rw [Scan.ofPieces, ih, textOf_cons, Place.after_append]
    cases piece <;> rfl

/-- A located piece stands behind the pieces before it. -/
theorem exists_of_mem_located (before : List Char) {pieces : List Piece} {piece : Piece}
    {span : Span} (member : (piece, span) ∈ located (Place.start.after before) pieces) :
    ∃ front behind, pieces = front ++ piece :: behind ∧
      span = Span.behind (before ++ textOf front) piece.chars := by
  induction pieces generalizing before with
  | nil => exact absurd member List.not_mem_nil
  | cons first pieces ih =>
    rcases List.mem_cons.mp member with same | member
    · obtain ⟨rfl, rfl⟩ := Prod.mk.inj same
      refine ⟨[], pieces, rfl, ?_⟩
      rw [textOf_nil, List.append_nil, Span.behind, Place.after_append]
    · rw [← Place.after_append] at member
      obtain ⟨front, behind, rfl, span⟩ := ih _ member
      refine ⟨first :: front, behind, rfl, ?_⟩
      rw [span, textOf_cons, List.append_assoc]

theorem startOffset_of_mem_located {place : Place} {pieces : List Piece} {entry : Piece × Span}
    (member : entry ∈ located place pieces) : place.offset ≤ entry.2.startOffset := by
  induction pieces generalizing place with
  | nil => exact absurd member List.not_mem_nil
  | cons first pieces ih =>
    rcases List.mem_cons.mp member with rfl | member
    · exact Nat.le_refl _
    · exact Nat.le_trans (place.offset_le_after _) (ih member)

/-- Each piece ends before the next one begins. -/
theorem pairwise_located (place : Place) (pieces : List Piece) :
    (located place pieces).Pairwise fun a b => a.2.endOffset ≤ b.2.startOffset := by
  induction pieces generalizing place with
  | nil => exact .nil
  | cons first pieces ih =>
    exact .cons (fun entry member => startOffset_of_mem_located member) (ih _)

/-- Every character of a text stands in one of its pieces. -/
theorem exists_located_covering (front : List Char) {pieces : List Piece} {before : List Char}
    {c : Char} {after : List Char} (whole : textOf pieces = before ++ c :: after) :
    ∃ piece span, (piece, span) ∈ located (Place.start.after front) pieces ∧ c ∈ piece.chars ∧
      span.Covers (utf8Len (front ++ before)) := by
  induction pieces generalizing front before with
  | nil => simp at whole
  | cons piece pieces ih =>
    rw [textOf_cons] at whole
    obtain ⟨more, split, rest⟩ | ⟨more, split, rest⟩ := List.append_eq_append_iff.mp whole
    · -- the character stands behind the first piece
      obtain ⟨other, span, member, inside, covers⟩ := ih (front ++ piece.chars) rest
      refine ⟨other, span, List.mem_cons_of_mem _ ?_, inside, ?_⟩
      · rwa [← Place.after_append]
      · rwa [split, ← List.append_assoc]
    · cases more with
      | nil =>
        have behind : textOf pieces = [] ++ c :: after := rest.symm
        obtain ⟨other, span, member, inside, covers⟩ := ih (front ++ piece.chars) behind
        refine ⟨other, span, List.mem_cons_of_mem _ ?_, inside, ?_⟩
        · rwa [← Place.after_append]
        · rwa [split, List.append_nil, List.append_nil] at covers
      | cons d more =>
        obtain ⟨rfl, -⟩ := List.cons.inj rest
        refine ⟨piece, _, List.mem_cons_self, ?_, ?_⟩
        · rw [split]
          simp
        · have positive := c.utf8Size_pos
          have size : utf8Len piece.chars = utf8Len before + (utf8Len more + c.utf8Size) := by
            rw [split, String.utf8Len_append, String.utf8Len_cons]
          constructor
          · change (Place.start.after front).offset ≤ _
            rw [Place.offset_after, String.utf8Len_append]
            exact Nat.le_trans (Nat.le_of_eq (Nat.zero_add _)) (Nat.le_add_right _ _)
          · change _ < ((Place.start.after front).after piece.chars).offset
            rw [Place.offset_after, Place.offset_after, String.utf8Len_append]
            omega

/-- What is true of a piece with the given text behind it. -/
def Proper (rest : List Char) : Piece → Prop
  | blank c => Text.isBlank c = true
  | lineComment text => '\n' ∉ text
  | blockComment text closed => ¬ [']', ']'] <:+: text ∧ (closed = false → rest = [])
  | token kind lexeme => kind ≠ .eof ∧ lexeme ≠ []

theorem blockText_rest {text : List Char} (unclosed : (blockText text).2.1 = false) :
    (blockText text).2.2 = [] := by
  fun_induction blockText text with
  | case1 => rfl
  | case2 => exact absurd unclosed (by simp)
  | case3 c rest _ ih => exact ih unclosed

/-- The first closing brackets end a block comment. -/
theorem not_infix_blockText (text : List Char) : ¬ [']', ']'] <:+: (blockText text).1 := by
  fun_induction blockText text with
  | case1 => simp
  | case2 => simp
  | case3 c rest open_ ih =>
    rw [List.infix_cons_iff, not_or]
    refine ⟨?_, ih⟩
    rintro ⟨tail, same⟩
    have parts := List.cons.inj same
    have whole := blockText_append rest
    rw [← parts.2] at whole
    exact open_ _ parts.1.symm whole.symm

theorem proper_ofWord {c : Char} {word rest : List Char} : (ofWord (c :: word)).Proper rest := by
  refine ⟨?_, by simp⟩
  cases found : TokenKind.keyword? (String.ofList (c :: word)) with
  | none => decide
  | some kind =>
    rintro rfl
    exact absurd (List.mem_of_find?_eq_some found) (by decide)

theorem proper_firstToken (c : Char) (text rest : List Char) :
    (firstToken c text).1.Proper rest := by
  unfold firstToken
  split
  · exact ⟨by decide, by simp⟩
  split
  · exact ⟨by decide, by simp⟩
  split
  · exact proper_ofWord
  split
  · next kind found =>
    have spelled : ∀ kind ∈ TokenKind.symbols, kind ≠ .eof ∧ kind.spelling.toList ≠ [] := by decide
    exact spelled kind (List.mem_of_find?_eq_some found)
  · exact ⟨by decide, by simp⟩

theorem proper_first (c : Char) (text : List Char) :
    (first c text).1.Proper (first c text).2 := by
  unfold first
  split
  · next blank => exact blank
  split
  · exact ⟨not_infix_blockText _, blockText_rest⟩
  · intro newline
    exact absurd (Cut.run_inside _ newline) (by decide)
  · exact proper_firstToken c text _

/-- Each piece of a text is proper before the text of the pieces behind it. -/
theorem proper_of_cut {text : List Char} {front behind : List Piece} {piece : Piece}
    (split : cut text = front ++ piece :: behind) : piece.Proper (textOf behind) := by
  fun_induction cut text generalizing front with
  | case1 => simp at split
  | case2 c text ih =>
    cases front with
    | nil =>
      obtain ⟨rfl, rfl⟩ := List.cons.inj split
      rw [textOf_cut]
      exact proper_first c text
    | cons other front => exact ih (List.cons.inj split).2

/-- A keyword is a whole word. -/
theorem word_of_keyword {c : Char} {text lexeme rest : List Char} {kind : TokenKind}
    (found : first c text = (.token kind lexeme, rest)) (keyword : kind ∈ TokenKind.keywords) :
    isWordPart c = true ∧ ∀ d ∈ rest.head?, isWordPart d = false := by
  unfold first at found
  split at found
  · cases found
  split at found
  · cases found
  · cases found
  unfold firstToken at found
  split at found
  · cases found
    exact absurd keyword (by decide)
  split at found
  · cases found
    exact absurd keyword (by decide)
  split at found
  · next start =>
    obtain ⟨-, rfl⟩ := Prod.mk.inj found
    refine ⟨?_, Cut.run_outside⟩
    rcases Bool.or_eq_true_iff.mp start with letter | underscore
    · simp [isWordPart, letter]
    · simp [isWordPart, underscore]
  split at found
  · next symbol =>
    cases found
    have symbols : ∀ kind ∈ TokenKind.symbols, kind ∉ TokenKind.keywords := by decide
    exact absurd keyword (symbols _ (List.mem_of_find?_eq_some symbol))
  · cases found
    exact absurd keyword (by decide)

end Piece

namespace Scan

open Piece

variable {source : String}

theorem tokens_ofSource (source : String) :
    (ofSource source).tokens = (located .start (cut source.toList)).filterMap token? ++
      [⟨.eof, "", .behind source.toList []⟩] := by
  rw [ofSource, ofPieces_located, textOf_cut, Span.behind, List.append_nil]

theorem comments_ofSource (source : String) :
    (ofSource source).comments = (located .start (cut source.toList)).filterMap comment? := by
  rw [ofSource, ofPieces_located]

/-- A located piece of a text, with the text on both sides. -/
theorem exists_of_located {piece : Piece} {span : Span}
    (member : (piece, span) ∈ located .start (cut source.toList)) :
    ∃ before after, source.toList = before ++ piece.chars ++ after ∧
      span = .behind before piece.chars ∧ piece.Proper after := by
  obtain ⟨front, behind, split, rfl⟩ := exists_of_mem_located [] member
  refine ⟨textOf front, textOf behind, ?_, rfl, proper_of_cut split⟩
  rw [← textOf_cut source.toList, split, textOf_append, textOf_cons, List.append_assoc]

/-- A token other than the last one is a piece. -/
theorem located_of_token? {entry : Piece × Span} {token : Token}
    (found : token? entry = some token) :
    entry = (.token token.kind token.lexeme.toList, token.span) := by
  obtain ⟨piece, span⟩ := entry
  cases piece with
  | token kind lexeme =>
    obtain rfl := Option.some.inj found
    rw [String.toList_ofList]
  | blank | lineComment | blockComment => cases found

theorem span_of_comment? {entry : Piece × Span} {comment : Comment}
    (found : comment? entry = some comment) : comment.span = entry.2 := by
  obtain ⟨piece, span⟩ := entry
  cases piece with
  | lineComment | blockComment =>
    obtain rfl := Option.some.inj found
    rfl
  | blank | token => cases found

theorem writtenIn_of_located {entry : Piece × Span} {comment : Comment}
    (member : entry ∈ located .start (cut source.toList)) (found : comment? entry = some comment) :
    comment.WrittenIn source := by
  obtain ⟨piece, span⟩ := entry
  obtain ⟨before, after, whole, rfl, proper⟩ := exists_of_located member
  have slice := Span.textIn_behind whole
  cases piece with
  | lineComment text =>
    obtain rfl := Option.some.inj found
    refine ⟨?_, by rwa [String.toList_ofList]⟩
    have opening : String.ofList (['-', '-'] ++ text) = "--" ++ String.ofList text :=
      String.ofList_append
    exact slice.trans opening
  | blockComment text closed =>
    obtain rfl := Option.some.inj found
    obtain ⟨free, runsOut⟩ := proper
    refine ⟨?_, by rwa [String.toList_ofList]⟩
    have opening : String.ofList (['-', '-', '[', '['] ++ text) = "--[[" ++ String.ofList text :=
      String.ofList_append
    cases closed with
    | true =>
      left
      rw [slice, ← opening]
      exact String.ofList_append
    | false =>
      right
      constructor
      · rw [slice, ← opening]
        exact congrArg String.ofList (List.append_nil _)
      · have size := congrArg String.utf8Len whole
        rw [runsOut rfl, List.append_nil, String.utf8Len_toList, String.utf8Len_append] at size
        rw [size]
        exact Span.endOffset_behind _ _
  | blank | token => cases found

/-- The located pieces do not overlap, whichever of them stands first. -/
theorem located_apart {first second : Piece × Span} (different : first ≠ second)
    (member : first ∈ located .start (cut source.toList))
    (member' : second ∈ located .start (cut source.toList)) :
    first.2.endOffset ≤ second.2.startOffset ∨ second.2.endOffset ≤ first.2.startOffset := by
  have ordered := pairwise_located .start (cut source.toList)
  have symmetric : Std.Symm fun a b : Piece × Span =>
      a.2.endOffset ≤ b.2.startOffset ∨ b.2.endOffset ≤ a.2.startOffset := ⟨fun _ _ => Or.symm⟩
  have either : (located .start (cut source.toList)).Pairwise fun a b =>
      a.2.endOffset ≤ b.2.startOffset ∨ b.2.endOffset ≤ a.2.startOffset := ordered.imp .inl
  exact either.forall member member' different

theorem within_of_located {piece : Piece} {span : Span}
    (member : (piece, span) ∈ located .start (cut source.toList)) : span.Within source := by
  obtain ⟨before, after, whole, rfl, -⟩ := exists_of_located member
  exact Span.within_behind whole

/-- A token is a located piece or the end of the text. -/
theorem mem_tokens {token : Token} (member : token ∈ (ofSource source).tokens) :
    (.token token.kind token.lexeme.toList, token.span) ∈ located .start (cut source.toList) ∨
      token = ⟨.eof, "", .behind source.toList []⟩ := by
  rw [tokens_ofSource, List.mem_append, List.mem_singleton, List.mem_filterMap] at member
  refine member.imp_left ?_
  rintro ⟨entry, inside, found⟩
  rwa [← located_of_token? found]

theorem mem_comments {comment : Comment} (member : comment ∈ (ofSource source).comments) :
    ∃ piece, (piece, comment.span) ∈ located .start (cut source.toList) ∧
      comment? (piece, comment.span) = some comment := by
  rw [comments_ofSource, List.mem_filterMap] at member
  obtain ⟨⟨piece, span⟩, inside, found⟩ := member
  obtain rfl := span_of_comment? found
  exact ⟨piece, inside, found⟩

theorem final_split (source : String) : source.toList = source.toList ++ [] ++ [] := by
  rw [List.append_nil, List.append_nil]

theorem within_of_mem_spans {span : Span} (member : span ∈ (ofSource source).spans) :
    span.Within source := by
  rcases List.mem_append.mp member with member | member
  · obtain ⟨token, inside, rfl⟩ := List.mem_map.mp member
    obtain located | rfl := mem_tokens inside
    · exact within_of_located located
    · exact Span.within_behind (final_split source)
  · obtain ⟨comment, inside, rfl⟩ := List.mem_map.mp member
    obtain ⟨piece, located, -⟩ := mem_comments inside
    exact within_of_located located

/-- The end of the text stands behind everything. -/
theorem endOffset_le_final {span : Span} (within : span.Within source) :
    span.endOffset ≤ (Span.behind source.toList []).startOffset := by
  rw [Span.startOffset_behind, String.utf8Len_toList]
  exact within.inRange

theorem tokens_pairwise (source : String) :
    (ofSource source).tokens.Pairwise fun a b => a.span.endOffset ≤ b.span.startOffset := by
  rw [tokens_ofSource, List.pairwise_append]
  refine ⟨?_, List.pairwise_singleton _ _, ?_⟩
  · rw [List.pairwise_filterMap]
    refine (pairwise_located .start (cut source.toList)).imp ?_
    intro first second ordered token found other found'
    rw [located_of_token? found, located_of_token? found'] at ordered
    exact ordered
  · intro token member other final
    rw [List.mem_singleton] at final
    rw [final]
    obtain ⟨entry, inside, found⟩ := List.mem_filterMap.mp member
    rw [located_of_token? found] at inside
    exact endOffset_le_final (within_of_located inside)

theorem comments_pairwise (source : String) :
    (ofSource source).comments.Pairwise fun a b => a.span.endOffset ≤ b.span.startOffset := by
  rw [comments_ofSource, List.pairwise_filterMap]
  refine (pairwise_located .start (cut source.toList)).imp ?_
  intro first second ordered comment found other found'
  rwa [span_of_comment? found, span_of_comment? found']

/-- A character outside all tokens and comments is a piece by itself. -/
theorem isBlank_of_uncovered {before after : List Char} {c : Char}
    (whole : source.toList = before ++ c :: after)
    (uncovered : ∀ span ∈ (ofSource source).spans, ¬ span.Covers (utf8Len before)) :
    Text.isBlank c = true := by
  obtain ⟨piece, span, member, inside, covers⟩ := exists_located_covering []
    ((textOf_cut source.toList).trans whole)
  have token (found : (token? (piece, span)).isSome) : False := by
    obtain ⟨token, found⟩ := Option.isSome_iff_exists.mp found
    obtain ⟨rfl, rfl⟩ := Prod.mk.inj (located_of_token? found)
    refine uncovered token.span (List.mem_append_left _ (List.mem_map_of_mem ?_)) covers
    rw [tokens_ofSource]
    exact List.mem_append_left _ (List.mem_filterMap.mpr ⟨_, member, found⟩)
  have comment (found : (comment? (piece, span)).isSome) : False := by
    obtain ⟨comment, found⟩ := Option.isSome_iff_exists.mp found
    obtain rfl := span_of_comment? found
    refine uncovered comment.span (List.mem_append_right _ (List.mem_map_of_mem ?_)) covers
    rw [comments_ofSource]
    exact List.mem_filterMap.mpr ⟨_, member, found⟩
  cases piece with
  | blank d =>
    obtain ⟨_, _, _, _, proper⟩ := exists_of_located member
    obtain rfl := List.mem_singleton.mp inside
    exact proper
  | token => exact absurd rfl token
  | lineComment | blockComment => exact absurd rfl comment

theorem startOffset_of_mem_ofPieces {place : Place} {pieces : List Piece} {token : Token}
    (member : token ∈ (ofPieces place pieces).tokens) : place.offset ≤ token.span.startOffset := by
  rw [ofPieces_located, List.mem_append, List.mem_filterMap, List.mem_singleton] at member
  rcases member with ⟨entry, inside, found⟩ | rfl
  · have start := startOffset_of_mem_located inside
    rwa [located_of_token? found] at start
  · exact place.offset_le_after _

/-- Words do not touch: the first token behind a word that is a keyword has a gap before it. -/
theorem gap_of_keyword {place : Place} {text : List Char}
    (behind : ∀ d ∈ text.head?, isWordPart d = false) {token : Token}
    (next : (ofPieces place (cut text)).tokens.head? = some token)
    (keyword : token.kind ∈ TokenKind.keywords) : place.offset < token.span.startOffset := by
  cases text with
  | nil =>
    rw [cut] at next
    obtain rfl := Option.some.inj next
    have notKeyword : TokenKind.eof ∉ TokenKind.keywords := by decide
    exact absurd keyword notKeyword
  | cons d text =>
    have step := place.offset_lt_after (first_chars_ne_nil d text)
    have later (inside : token ∈ (ofPieces (place.after (first d text).1.chars)
        (cut (first d text).2)).tokens) : place.offset < token.span.startOffset :=
      Nat.lt_of_lt_of_le step (startOffset_of_mem_ofPieces inside)
    rw [cut_cons, ofPieces] at next
    generalize pair : first d text = read at next later
    obtain ⟨piece, rest⟩ := read
    cases piece with
    | token kind lexeme =>
      obtain rfl := Option.some.inj next
      have word := (word_of_keyword pair keyword).1
      rw [behind d rfl] at word
      cases word
    | blank | lineComment | blockComment => exact later (List.mem_of_mem_head? next)

/-- Two keywords do not touch. -/
theorem tokens_apart (place : Place) (text : List Char) :
    (ofPieces place (cut text)).tokens.IsChain fun x y => x.kind ∈ TokenKind.keywords →
      y.kind ∈ TokenKind.keywords → x.span.endOffset < y.span.startOffset := by
  fun_induction cut text generalizing place with
  | case1 => exact List.isChain_singleton _
  | case2 c text ih =>
    generalize pair : first c text = read at ih
    obtain ⟨piece, rest⟩ := read
    have rest := ih (place.after piece.chars)
    cases piece with
    | token kind lexeme =>
      refine List.isChain_cons.mpr ⟨fun y next first second => ?_, rest⟩
      exact gap_of_keyword (word_of_keyword pair first).2 next second
    | blank | lineComment | blockComment => exact rest

/-- Scanning covers every text. -/
theorem tiles_ofSource (source : String) : (ofSource source).Tiles source where
  ends := by
    refine ⟨_, _, tokens_ofSource source, rfl, rfl, ?_, ?_, ?_⟩
    · rw [Span.startOffset_behind, String.utf8Len_toList]
    · rw [Span.endOffset_behind, String.utf8Len_toList]
      rfl
    · intro token member
      obtain ⟨entry, inside, found⟩ := List.mem_filterMap.mp member
      rw [located_of_token? found] at inside
      obtain ⟨before, after, -, -, notEnd, some⟩ := exists_of_located inside
      refine ⟨notEnd, fun empty => some ?_⟩
      rw [empty]
      rfl
  within _ := within_of_mem_spans
  tokens := tokens_pairwise source
  comments := comments_pairwise source
  apart token member comment member' := by
    obtain ⟨piece, located', found⟩ := mem_comments member'
    obtain located | rfl := mem_tokens member
    · refine located_apart (fun same => ?_) located located'
      rw [← same] at found
      cases found
    · exact .inr (endOffset_le_final (within_of_located located'))
  lexemes token member := by
    obtain located | rfl := mem_tokens member
    · obtain ⟨before, after, whole, same, -⟩ := exists_of_located located
      rw [same, Span.textIn_behind whole]
      exact String.ofList_toList
    · exact Span.textIn_behind (final_split source)
  written comment member := by
    obtain ⟨piece, located, found⟩ := mem_comments member
    exact writtenIn_of_located located found
  blanks _ _ _ := isBlank_of_uncovered

end Scan

end LuaTree
