import LuaTree.Proofs.Abreast
import LuaTree.Proofs.Parsed

/-!
# Texts by sample

A string or block comment that is not closed can be read, but the tree that is
read cannot be written again. Reading looks at the kinds of tokens only, so that
it takes the same way when every token has a sample of its kind as its text and
there are no comments. Whatever is read therefore has the shape of a tree that
can be written (`exists_writable_of_expression`, `exists_writable_of_parse`).
-/

namespace LuaTree

/-- A text of the kind. -/
def TokenKind.sample : TokenKind → String
  | .identifier => "x"
  | .number => "0"
  | .string => "\"\""
  | .unknown => "?"
  | kind => kind.spelling

theorem TokenKind.genuine_sample {kind : TokenKind} (more : kind ≠ .eof) :
    Piece.Genuine (.token kind kind.sample.toList) := by
  cases kind
  case identifier => exact isIdentifier_iff.mp (by decide +kernel)
  case number =>
    have alone : .token .number ['0'] ∈ Piece.cut ['0'] := by decide +kernel
    exact Piece.genuine_of_mem_cut alone rfl
  case string =>
    have quotes : Piece.Genuine (.token .string ('"' :: [] ++ ['"'])) := .string rfl rfl
    exact quotes
  case unknown => exact .unknown '?'
  case eof => exact absurd rfl more
  all_goals first
    | exact .keyword (by decide)
    | exact .symbol (by decide)

/-- The token with a sample in place of its text. -/
def Token.sampled (t : Token) : Token :=
  { t with lexeme := t.kind.sample }

theorem Token.alike_sampled (t : Token) : t.Alike .blind t.sampled := by
  refine ⟨rfl, fun _ => rfl, ?_, rfl, rfl⟩
  obtain ⟨kind, lexeme, span⟩ := t
  cases kind <;> rfl

theorem aligned_sampled (p : Span) (ts : List Token) :
    Aligned .blind p p ts (ts.map Token.sampled) := by
  induction ts generalizing p with
  | nil => exact .nil
  | cons t ts ih => exact .cons t.alike_sampled (fun _ => Iff.rfl) (ih t.span)

namespace Cursor

/-- The cursor with samples in front of it, and no comments. -/
def sampled (c : Cursor) : Cursor :=
  { c with rest := c.rest.map Token.sampled, comments := [] }

/-- The file ends only where it ends. -/
structure Proper (c : Cursor) : Prop where
  ends : c.EndsFile
  inside : ∀ token ∈ c.rest, token.kind ≠ .eof

theorem proper_ofTokens (tokens : List Token) (comments : List Comment) :
    (ofTokens tokens comments).Proper where
  ends := endsFile_ofTokens tokens comments
  inside token member := by
    have more := List.all_eq_true.mp List.all_takeWhile token member
    exact bne_iff_ne.mp more

namespace Proper

variable {c : Cursor} (proper : c.Proper)

include proper

theorem legible_sampled : c.sampled.Legible := by
  refine Lexed.legible ⟨proper.ends, fun token member => ?_, by simp [sampled], by simp [sampled]⟩
  obtain ⟨t, inside, rfl⟩ := List.mem_map.mp member
  exact TokenKind.genuine_sample (proper.inside t inside)

theorem abreast_sampled : ∃ pairs, c.Abreast .blind pairs c.sampled :=
  ⟨_, proper.ends, proper.ends, aligned_sampled _ _, List.suffix_refl _, ⟨rfl, rfl⟩, ⟨rfl, rfl⟩⟩

end Proper

end Cursor

open Grammar

variable {c c' : Cursor} {t : SourceTree}

/-- An expression has the shape of one that can be written. -/
theorem exists_writable_of_expression {level : Nat} (proper : c.Proper)
    (read : Derives _ (.expression level) c t c') :
    ∃ u, Writable .expression u ∧ Blur.blind.Same t u := by
  obtain ⟨pairs, abreast⟩ := proper.abreast_sampled
  obtain ⟨u, d, read, same⟩ := derives_abreast abreast (fun agree => agree.expression level) read
  exact ⟨u, (derives_shaped proper.legible_sampled.ends read proper.legible_sampled).1, same⟩

/-- Whatever parses has the shape of a tree that can be written. -/
theorem exists_writable_of_parse {source : String} (parsed : parse source = .ok t) :
    ∃ u, Writable .chunk u ∧ Blur.blind.Same t u := by
  obtain ⟨c', readChunk⟩ := parseTokens_ok_iff.mp parsed
  obtain ⟨readBody, -⟩ := readChunk
  have proper := Cursor.proper_ofTokens (Scan.ofSource source).tokens
    (Scan.ofSource source).comments
  obtain ⟨pairs, abreast⟩ := proper.abreast_sampled
  obtain ⟨u, d, read, same⟩ := derives_abreast abreast RulesAgree.block readBody
  have formed := (derives_shaped proper.legible_sampled.ends read proper.legible_sampled).1
  refine ⟨.node (.ofSpan default) (.chunk u), .chunk formed (.of_span trivial), ?_⟩
  simp only [Blur.Same, Tree.blurred_node, Kind.map, same]

end LuaTree
