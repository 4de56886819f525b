import LuaTree.Proofs.FirstError
import LuaTree.Proofs.Spanned
import LuaTree.Proofs.Tiling

/-!
# Positions agree with offsets

Lines and columns are counted along with the bytes, character by character, and spans are put
together from the places that this counting passes. So a position never needs the reading that
led to it: it follows from the text before its offset alone (`positionAt`). This holds of tokens
and comments, of all nodes of a program, and of the place where a text is found to be none
(`positionsAgree`).
-/

namespace LuaTree

open String (utf8Len)

/-- The position behind some text: its line feeds tell the line, and the characters behind the last
one of them the column. -/
def Position.behind (text : List Char) : Position :=
  ⟨1 + text.count '\n', 1 + (text.reverse.takeWhile (· != '\n')).length⟩

/-- The position of a byte offset in a text. -/
def positionAt (source : String) (offset : Nat) : Position :=
  .behind (String.Pos.Raw.extract source 0 ⟨offset⟩).toList

/-- Both ends of the span stand in the text, at the positions of their offsets. -/
structure Span.Agrees (source : String) (span : Span) : Prop where
  startValid : String.Pos.Raw.Valid source ⟨span.startOffset⟩
  stopValid : String.Pos.Raw.Valid source ⟨span.endOffset⟩
  start : span.start = positionAt source span.startOffset
  stop : span.stop = positionAt source span.endOffset

/-- All positions that come from a text are those of their offsets. -/
structure PositionsAgree (source : String) : Prop where
  tokens : ∀ token ∈ tokenize source, token.span.Agrees source
  comments : ∀ comment ∈ (Scan.ofSource source).comments, comment.span.Agrees source
  nodes : ∀ t, parse source = .ok t → ∀ id, (Arena.ofTree t).contains id = true →
    ((Arena.ofTree t).span id).Agrees source
  error : ∀ e, parse source = .error e →
    ∃ token ∈ tokenize source, e.position = positionAt source token.span.startOffset

theorem Position.behind_concat (text : List Char) (c : Char) :
    behind (text ++ [c]) =
      if c = '\n' then ⟨(behind text).line + 1, 1⟩
      else ⟨(behind text).line, (behind text).column + 1⟩ := by
  by_cases newline : c = '\n'
  · subst newline
    simp [behind, List.count_append, Nat.add_assoc]
  · simp [behind, List.count_append, newline, Nat.add_comm]

theorem Place.position_after_start (text : List Char) :
    (Place.start.after text).position = .behind text := by
  induction text using List.reverseRecOn with
  | nil => rfl
  | append_singleton text c ih =>
    rw [Place.after_append, Position.behind_concat, ← ih]
    rfl

variable {source : String}

theorem positionAt_utf8Len {before after : List Char} (split : source.toList = before ++ after) :
    positionAt source (utf8Len before) = .behind before := by
  rw [positionAt, toList_extract_before split]

namespace Span

theorem agrees_behind {before text after : List Char}
    (whole : source.toList = before ++ text ++ after) : (behind before text).Agrees source := by
  have within := within_behind whole
  refine ⟨within.start, within.stop, ?_, ?_⟩
  · rw [startOffset_behind, positionAt_utf8Len (by rw [whole, List.append_assoc])]
    exact Place.position_after_start before
  · rw [endOffset_behind, ← String.utf8Len_append, positionAt_utf8Len whole]
    exact Place.position_after_start (before ++ text)

/-- Spans are put together from places of a text. -/
theorem agrees_isKept (source : String) : IsKept (Agrees source) where
  through first second := ⟨first.startValid, second.stopValid, first.start, second.stop⟩
  atStart agrees := ⟨agrees.startValid, agrees.startValid, agrees.start, agrees.start⟩

end Span

namespace Scan

theorem agrees_of_located {piece : Piece} {span : Span}
    (member : (piece, span) ∈ Piece.located .start (Piece.cut source.toList)) :
    span.Agrees source := by
  obtain ⟨before, after, whole, rfl, -⟩ := exists_of_located member
  exact Span.agrees_behind whole

theorem agrees_of_mem_tokens {token : Token} (member : token ∈ tokenize source) :
    token.span.Agrees source := by
  obtain located | rfl := mem_tokens member
  · exact agrees_of_located located
  · exact Span.agrees_behind (final_split source)

theorem agrees_of_mem_comments {comment : Comment}
    (member : comment ∈ (Scan.ofSource source).comments) : comment.span.Agrees source := by
  obtain ⟨piece, located, -⟩ := mem_comments member
  exact agrees_of_located located

end Scan

/-- Parsing fails at the start of a token. -/
theorem exists_token_of_error {e : ParseError} (fails : parse source = .error e) :
    ∃ token ∈ tokenize source, e.position = token.span.start := by
  obtain ⟨c, run⟩ := parseTokens_eq_error.mp fails
  obtain ⟨own, refuses⟩ := exists_refuses run
  have seen := refuses.consumes.seen
  rw [(Cursor.opens_ofTokens source).tokens] at seen
  exact ⟨c.current, seen.subset (by simp), refuses.position⟩

/-- Positions agree with offsets everywhere. -/
theorem positionsAgree (source : String) : PositionsAgree source where
  tokens _ := Scan.agrees_of_mem_tokens
  comments _ := Scan.agrees_of_mem_comments
  nodes t parsed id present := by
    have spanned := spanned_of_parse (Span.agrees_isKept source)
      (fun _ => Scan.agrees_of_mem_tokens) parsed
    exact Arena.span_of_spanned spanned (Arena.contains_iff.mp present)
  error e fails := by
    obtain ⟨token, member, position⟩ := exists_token_of_error fails
    exact ⟨token, member, position.trans (Scan.agrees_of_mem_tokens member).start⟩

/-- Behind a string of two lines with a letter of two bytes. -/
example : (tokenize "a = \"λ\n\" .. b").map (·.span.startOffset) = [0, 2, 4, 10, 13, 14] ∧
    positionAt "a = \"λ\n\" .. b" 13 = ⟨2, 6⟩ := by
  decide +kernel

end LuaTree
