import LuaTree.Proofs.LongestMatch
import LuaTree.Proofs.OpenEnds

/-!
# The contents of a string

Two readings look for the closing quote of a string. Cutting takes each backslash
together with the next character (`Cut.quoted`); the contents of a token are read
character by character, with a note of whether the last one escapes the next
(`beforeQuote`). They stop at the same quote, whatever is escaped
(`Cut.taken_quoted`). So the contents between two quotes are the lexeme again, and
a text that begins with it has it as its first token. Of a string that is open the
contents are all that is left of the text (`lexeme_of_contents`).
-/

namespace LuaTree

open String (utf8Len)

variable {quote : Char}

namespace Cut

/-- Whether the reading of a string stops at its closing quote, and not at the end of the text. -/
def closes (quote : Char) : List Char → Bool
  | [] => false
  | ['\\'] => false
  | '\\' :: _ :: text => closes quote text
  | c :: text => c == quote || closes quote text

theorem closes_cons {c : Char} (plain : c ≠ '\\') (text : List Char) :
    closes quote (c :: text) = (c == quote || closes quote text) := by
  rw [closes]
  · exact fun same => absurd same plain
  · exact fun d rest same => absurd same plain

/-- What is read of a string is what stands before its closing quote, and this quote if the reading
stops there. -/
theorem taken_quoted (other : quote ≠ '\\') (text : List Char) :
    (quoted quote text).taken =
      beforeQuote quote false (quoted quote text).taken ++
        if closes quote text then [quote] else [] := by
  fun_induction quoted quote text with
  | case1 => rfl
  | case2 => rfl
  | case3 c text ih => simpa [behind, beforeQuote, closes] using ih
  | case4 text => simp [beforeQuote, closes_cons other, other]
  | case5 c text noEnd noEscape different ih =>
    have plain : c ≠ '\\' := ne_backslash noEnd noEscape
    simpa [behind, beforeQuote, closes_cons plain, plain, different] using ih

/-- The contents of a closed string can be quoted, and an open one has all of the text. -/
theorem quoted_closes (isQuote : isQuote quote = true) (text : List Char) :
    (closes quote text = true ∧
        isQuotable quote (beforeQuote quote false (quoted quote text).taken) = true) ∨
      (closes quote text = false ∧ (quoted quote text).rest = []) := by
  have whole := taken_quoted (isQuote_ne_backslash isQuote) text
  rcases Piece.quoted_cases quote text with ⟨inner, taken, quotable⟩ | ⟨stop, -, contents⟩
  · rw [taken, beforeQuote_append isQuote quotable] at whole ⊢
    refine .inl ⟨?_, quotable⟩
    by_contra unclosed
    simp [unclosed] at whole
  · rw [contents, List.self_eq_append_right] at whole
    refine .inr ⟨?_, stop⟩
    by_contra closed
    simp [closed] at whole

end Cut

section Tokens

variable {source : String} {token : Token}

/-- A string token in its text: its lexeme is what is read behind its opening quote. -/
theorem exists_quoted (member : token ∈ tokenize source) (string : token.kind = .string) :
    ∃ before quote behind, isQuote quote = true ∧ source.toList = before ++ quote :: behind ∧
      token.lexeme.toList = quote :: (Cut.quoted quote behind).taken ∧
      token.span = .behind before token.lexeme.toList := by
  obtain located | rfl := Scan.mem_tokens member
  · obtain ⟨front, back, split, span⟩ := Piece.exists_of_mem_located [] located
    obtain ⟨quote, behind, whole, found⟩ := (Piece.fits_of_cut split).exists_first
    rw [string] at found
    have isQuote := Piece.isQuote_of_string found
    have first := Piece.first_of_quote isQuote behind
    rw [found] at first
    refine ⟨Piece.textOf front, quote, behind, isQuote, ?_, (Piece.token.inj first).2, span⟩
    rw [← whole, ← Piece.textOf_cons, ← Piece.textOf_append, ← split, Piece.textOf_cut]
  · cases string

/-- A text that begins with a closed string has it as its first token. -/
theorem exists_head?_tokenize (isQuote : isQuote quote = true) {text : String}
    (quotable : isQuotable quote text.toList = true) (more : String) :
    ∃ first,
      (tokenize (String.singleton quote ++ text ++ String.singleton quote ++ more)).head? =
        some first ∧ first.kind = .string ∧
      first.lexeme = String.singleton quote ++ text ++ String.singleton quote := by
  have chars : (String.singleton quote ++ text ++ String.singleton quote).toList =
      quote :: text.toList ++ [quote] := by simp
  have fits : Piece.cut (quote :: text.toList ++ [quote] ++ more.toList) = _ :: _ :=
    Piece.fits_string isQuote quotable more.toList
  rw [tokenize, Scan.ofSource, String.toList_append, chars, fits]
  refine ⟨_, rfl, rfl, ?_⟩
  rw [← chars, String.ofList_toList]

/-- Whether a string is closed is told by the text behind its opening quote. If it is, its lexeme is
its contents between quotes, and stays so whatever is written behind it. If not, its lexeme is the
quote and the contents, and ends with the text. -/
theorem lexeme_of_contents (member : token ∈ tokenize source) (string : token.kind = .string) :
    ∃ quote behind, token.lexeme.toList.head? = some quote ∧
      textFrom source token.span.startOffset = quote :: behind ∧
      (Cut.closes quote behind = true →
        token.lexeme = String.singleton quote ++ token.contents ++ String.singleton quote ∧
        ∀ more : String, ∃ first,
          (tokenize (String.singleton quote ++ token.contents ++ String.singleton quote ++
            more)).head? = some first ∧ first.kind = .string ∧ first.lexeme = token.lexeme) ∧
      (Cut.closes quote behind = false →
        token.lexeme = String.singleton quote ++ token.contents ∧
        token.span.endOffset = source.utf8ByteSize) := by
  obtain ⟨before, quote, behind, isQuote, whole, lexeme, span⟩ := exists_quoted member string
  have contents : token.contents.toList =
      beforeQuote quote false (Cut.quoted quote behind).taken := by
    simp [Token.contents, lexeme, isQuote]
  have taken := Cut.taken_quoted (isQuote_ne_backslash isQuote) behind
  have stops := Cut.quoted_closes isQuote behind
  rw [← contents] at taken stops
  refine ⟨quote, behind, by rw [lexeme]; rfl, ?_, fun closed => ?_, fun unclosed => ?_⟩
  · rw [span, Span.startOffset_behind]
    exact textFrom_utf8Len whole
  · have written : token.lexeme =
        String.singleton quote ++ token.contents ++ String.singleton quote := by
      rw [← String.toList_inj, lexeme, taken, closed]
      simp
    have quotable := (stops.resolve_right (by simp [closed])).2
    refine ⟨written, fun more => ?_⟩
    rw [written]
    exact exists_head?_tokenize isQuote quotable more
  · have all := Cut.quoted_divides quote behind
    rw [Cut.Divides, (stops.resolve_left (by simp [unclosed])).2, List.append_nil] at all
    constructor
    · rw [← String.toList_inj, lexeme, taken, unclosed]
      simp
    · rw [span, Span.endOffset_behind, lexeme, all, ← String.utf8Len_append, ← whole,
        String.utf8Len_toList]

/-- A string with an escaped quote, and an open one that ends in such a quote. -/
theorem lexeme_of_contents_escaped :
    ((⟨.string, "'a\\''", ⟨0, 5, ⟨1, 1⟩, ⟨1, 6⟩⟩⟩ : Token) ∈ tokenize "'a\\''..'b\\'" ∧
      ∀ more : String, ∃ first, (tokenize ("'a\\''" ++ more)).head? = some first ∧
        first.kind = .string ∧ first.lexeme = "'a\\''") ∧
    ((⟨.string, "'b\\'", ⟨7, 11, ⟨1, 8⟩, ⟨1, 12⟩⟩⟩ : Token) ∈ tokenize "'a\\''..'b\\'" ∧
      (⟨.string, "'b\\'", ⟨7, 11, ⟨1, 8⟩, ⟨1, 12⟩⟩⟩ : Token).contents = "b\\'" ∧
      "'b\\'" = String.singleton '\'' ++ "b\\'" ∧ 11 = "'a\\''..'b\\'".utf8ByteSize) := by
  have closed : (⟨.string, "'a\\''", ⟨0, 5, ⟨1, 1⟩, ⟨1, 6⟩⟩⟩ : Token) ∈
      tokenize "'a\\''..'b\\'" := by decide +kernel
  have unclosed : (⟨.string, "'b\\'", ⟨7, 11, ⟨1, 8⟩, ⟨1, 12⟩⟩⟩ : Token) ∈
      tokenize "'a\\''..'b\\'" := by decide +kernel
  have contents : (⟨.string, "'b\\'", ⟨7, 11, ⟨1, 8⟩, ⟨1, 12⟩⟩⟩ : Token).contents = "b\\'" := by
    decide +kernel
  refine ⟨⟨closed, ?_⟩, unclosed, contents, ?_⟩
  · obtain ⟨quote, behind, -, text, whole, -⟩ := lexeme_of_contents closed rfl
    have known : textFrom "'a\\''..'b\\'" 0 = '\'' :: "a\\''..'b\\'".toList := by decide +kernel
    obtain ⟨rfl, rfl⟩ := List.cons.inj (known.symm.trans text)
    obtain ⟨same, again⟩ := whole (by decide +kernel)
    rwa [← same] at again
  · obtain ⟨quote, behind, -, text, -, rest⟩ := lexeme_of_contents unclosed rfl
    have known : textFrom "'a\\''..'b\\'" 7 = '\'' :: "b\\'".toList := by decide +kernel
    obtain ⟨rfl, rfl⟩ := List.cons.inj (known.symm.trans text)
    rw [contents] at rest
    exact rest (by decide +kernel)

end Tokens

end LuaTree
