import LuaTree.Piece

/-!
# Tokens and comments of a source text

The pieces of a text are given their places by reading them in order. Tokens and
comments are kept apart: comments play no part in the grammar and are attached
to statements later.
-/

namespace LuaTree

/-- The tokens of a text, closed by a token of kind `eof`, and its comments, both in order. -/
structure Scan where
  tokens : List Token
  comments : List Comment
deriving DecidableEq, Repr

namespace Scan

/-- One more piece in front. Blanks leave no trace. -/
def add (span : Span) (scan : Scan) : Piece → Scan
  | .blank _ => scan
  | .lineComment text =>
    { scan with comments := ⟨.line, String.ofList text, span⟩ :: scan.comments }
  | .blockComment text _ =>
    { scan with comments := ⟨.block, String.ofList text, span⟩ :: scan.comments }
  | .token kind lexeme =>
    { scan with tokens := ⟨kind, String.ofList lexeme, span⟩ :: scan.tokens }

/-- The tokens and comments among pieces that begin at a place. -/
def ofPieces (place : Place) : List Piece → Scan
  | [] => ⟨[⟨.eof, "", .between place place⟩], []⟩
  | piece :: pieces =>
    (ofPieces (place.after piece.chars) pieces).add
      (.between place (place.after piece.chars)) piece

/-- Scan a source text. -/
def ofSource (source : String) : Scan :=
  ofPieces .start (Piece.cut source.toList)

end Scan

/-- The tokens of a source text. -/
def tokenize (source : String) : List Token :=
  (Scan.ofSource source).tokens

end LuaTree
