import LuaTree.Explorer.Highlight
import LuaTree.Proofs.LongestMatch
import LuaTree.Proofs.Parsed

/-!
# Highlighting and cutting

The explorer reads a line in its own way: its words grow character by character,
and of a string it counts the characters. Still it finds the same strings and the
same comments as cutting does, in every line in which no block comment opens
(`extents_highlight`).

The two readings are compared where a piece begins. A string or a comment is one
part of the line (`partsFrom_first`). Any other piece may be several parts, or
only some of one, but at none of its characters begins a string or a comment
(`passes_first`), so the explorer passes it without finding one (`extents_passes`).
-/

namespace LuaTree

/-- Characters that stand side by side in a line: how many stand before them, how many up to their
end, and what they are. -/
structure Extent where
  start : Nat
  stop : Nat
  text : List Char
deriving DecidableEq, Repr

/-- The extent of a text at a span of a single line, whose columns count from one. -/
def Span.extent (span : Span) (text : List Char) : Extent :=
  ⟨span.start.column - 1, span.stop.column - 1, text⟩

/-- A token where it stands in its line. -/
def Token.extent (token : Token) : Extent :=
  token.span.extent token.lexeme.toList

/-- What a comment covers of a source text of a single line. -/
def Comment.extentIn (comment : Comment) (source : String) : Extent :=
  comment.span.extent (comment.span.textIn source).toList

/-- In a text without line feeds each character has a column. -/
theorem Place.column_after (place : Place) {text : List Char} (oneLine : '\n' ∉ text) :
    (place.after text).position.column = place.position.column + text.length := by
  induction text generalizing place with
  | nil => rfl
  | cons c text ih =>
    rw [List.mem_cons, not_or] at oneLine
    obtain ⟨different, oneLine⟩ := oneLine
    rw [after_cons, ih _ oneLine, List.length_cons]
    simp only [next, if_neg (Ne.symm different)]
    omega

theorem Span.extent_between {place : Place} {start : Nat}
    (column : place.position.column = start + 1) {text : List Char} (oneLine : '\n' ∉ text) :
    (Span.between place (place.after text)).extent text = ⟨start, start + text.length, text⟩ := by
  have after := place.column_after oneLine
  simp only [Span.extent, Span.between, after, column, Extent.mk.injEq, and_true]
  omega

namespace Explorer

open Piece

/-- The extents of the parts that look like a shade, where the first part stands behind `start`
characters. -/
def extents (shade : Shade) (start : Nat) : List Part → List Extent
  | [] => []
  | part :: parts =>
    (if part.shade.style = shade.style then [⟨start, start + part.text.length, part.text⟩]
      else []) ++ extents shade (start + part.text.length) parts

/-- The shades of what is compared; all others depend on words. -/
def Shade.IsScanned (shade : Shade) : Prop :=
  shade = .string ∨ shade = .comment

def shade? : Piece → Option Shade
  | .token .string _ => some .string
  | .lineComment _ | .blockComment .. => some .comment
  | _ => none

/-- The extent of a piece of the shade. -/
def extent? (shade : Shade) (entry : Piece × Span) : Option Extent :=
  if shade? entry.1 = some shade then some (entry.2.extent entry.1.chars) else none

theorem Shade.style_injective : Function.Injective Shade.style := by
  intro a b same
  cases a <;> cases b <;> revert same <;> decide

theorem not_isScanned_wordShade (word : List Char) (called : Bool) :
    ¬ (wordShade word called).IsScanned := by
  fun_cases wordShade word called <;> simp [Shade.IsScanned]

theorem not_isScanned_markPart (c : Char) : ¬ (markPart c).shade.IsScanned := by
  unfold markPart
  split <;> simp [Shade.IsScanned]

/-- The pieces that are string tokens. -/
theorem extents_tokens (source : String) :
    ((tokenize source).filter (·.kind == .string)).map Token.extent =
      (located .start (cut source.toList)).filterMap (extent? .string) := by
  have final (span : Span) : [(⟨.eof, "", span⟩ : Token)].filter (·.kind == .string) = [] := rfl
  rw [tokenize, Scan.tokens_ofSource, List.filter_append, final, List.append_nil,
    List.filter_filterMap, List.map_filterMap]
  refine List.filterMap_congr fun entry _ => ?_
  obtain ⟨piece, span⟩ := entry
  cases piece with
  | blank | lineComment | blockComment => rfl
  | token kind lexeme =>
    cases kind with
    | string => simp [token?, extent?, shade?, Token.extent, Piece.chars]
    | _ => rfl

/-- The pieces that are comments. -/
theorem extents_comments (source : String) :
    (Scan.ofSource source).comments.map (·.extentIn source) =
      (located .start (cut source.toList)).filterMap (extent? .comment) := by
  rw [Scan.comments_ofSource, List.map_filterMap]
  refine List.filterMap_congr fun entry member => ?_
  obtain ⟨piece, span⟩ := entry
  obtain ⟨before, after, whole, rfl, -⟩ := Scan.exists_of_located member
  have slice := Span.textIn_behind whole
  cases piece with
  | lineComment | blockComment => simp [comment?, extent?, shade?, Comment.extentIn, slice]
  | blank => rfl
  | token kind => cases kind <;> rfl

section Parts

variable {shade : Shade}

theorem extents_cons (part : Part) (parts : List Part) (start : Nat) :
    extents shade start (part :: parts) =
      (if part.shade = shade then [⟨start, start + part.text.length, part.text⟩] else []) ++
        extents shade (start + part.text.length) parts := by
  simp only [extents, Shade.style_injective.eq_iff]

variable (scanned : shade.IsScanned)
include scanned

theorem extents_cons_of_not {part : Part} (other : ¬ part.shade.IsScanned) (parts : List Part)
    (start : Nat) :
    extents shade start (part :: parts) = extents shade (start + part.text.length) parts := by
  have different : part.shade ≠ shade := fun same => other (same ▸ scanned)
  rw [extents_cons, if_neg different, List.nil_append]

theorem extents_wordPart (word : List Char) (called : Bool) (parts : List Part) (start : Nat) :
    extents shade start (wordPart word called ++ parts) =
      extents shade (start + word.length) parts := by
  cases word with
  | nil => rfl
  | cons c word => exact extents_cons_of_not scanned (not_isScanned_wordShade _ _) parts start

end Parts

/-- The second text is left of the first behind characters at which neither a string nor a comment
begins. -/
inductive Passes : List Char → List Char → Prop where
  | done {text : List Char} : Passes text text
  | step {c : Char} {text rest : List Char} (noQuote : isQuote c = false)
      (noComment : ¬ ['-', '-'] <+: c :: text) (more : Passes text rest) : Passes (c :: text) rest

/-- Such characters are parts of other looks, or go on with the word. -/
theorem extents_passes {shade : Shade} (scanned : shade.IsScanned) {text rest : List Char}
    (passes : Passes text rest) (word : List Char) (start : Nat) :
    ∃ word' start',
      start' + word'.length + rest.length = start + word.length + text.length ∧
        extents shade start (partsFrom word text) = extents shade start' (partsFrom word' rest) := by
  induction passes generalizing word start with
  | done => exact ⟨word, start, rfl, rfl⟩
  | @step c text rest noQuote noComment more ih =>
    have noHyphens : ¬ (c = '-' ∧ text.head? = some '-') := by
      rintro ⟨rfl, head⟩
      obtain ⟨tail, rfl⟩ := List.head?_eq_some_iff.mp head
      exact noComment ⟨tail, rfl⟩
    rw [partsFrom, if_neg noHyphens, if_neg (Bool.eq_false_iff.mp noQuote)]
    split
    · obtain ⟨word', start', place, same⟩ := ih (word ++ [c]) start
      refine ⟨word', start', ?_, same⟩
      simp only [List.length_append, List.length_cons, List.length_nil] at place ⊢
      omega
    · obtain ⟨word', start', place, same⟩ := ih [] (start + word.length + 1)
      refine ⟨word', start', ?_, ?_⟩
      · simp only [List.length_nil, List.length_cons] at place ⊢
        omega
      · rw [extents_wordPart scanned, extents_cons_of_not scanned (not_isScanned_markPart c)]
        exact same

/-- The character begins neither a string nor a comment, whatever follows it. -/
def IsPlain (c : Char) : Prop :=
  isQuote c = false ∧ c ≠ '-'

instance : DecidablePred IsPlain :=
  fun c => inferInstanceAs (Decidable (isQuote c = false ∧ c ≠ '-'))

theorem isPlain_of_class {p : Char → Bool}
    (outside : p '"' = false ∧ p '\'' = false ∧ p '-' = false) {c : Char} (inside : p c = true) :
    IsPlain c := by
  obtain ⟨double, single, hyphen⟩ := outside
  have other {d : Char} (no : p d = false) : c ≠ d := by
    rintro rfl
    rw [no] at inside
    cases inside
  refine ⟨?_, other hyphen⟩
  simp [isQuote, other double, other single]

theorem passes_append {plain : List Char} (quiet : ∀ c ∈ plain, IsPlain c) (rest : List Char) :
    Passes (plain ++ rest) rest := by
  induction plain with
  | nil => exact .done
  | cons c plain ih =>
    obtain ⟨⟨noQuote, noHyphen⟩, quiet⟩ := List.forall_mem_cons.mp quiet
    refine .step noQuote ?_ (ih quiet)
    rintro ⟨tail, same⟩
    exact noHyphen (List.cons.inj same).1.symm

/-- Only strings have quotes and hyphens behind their first character. -/
theorem isPlain_of_matches {rule : TokenRule} {lexeme rest : List Char}
    (matched : rule.Matches lexeme rest) (notString : rule ≠ .string) :
    ∀ c ∈ lexeme.tail, IsPlain c := by
  have digit (c : Char) (digit : c.isDigit = true) : IsPlain c :=
    isPlain_of_class (by decide) digit
  intro c member
  cases matched with
  | word start parts => exact isPlain_of_class (by decide) (parts c member)
  | integer some inside => exact digit c (inside c (List.mem_of_mem_tail member))
  | decimal some inside more behind =>
    have member := List.mem_of_mem_tail member
    rw [List.mem_append, List.mem_cons] at member
    rcases member with whole | rfl | fraction
    · exact digit c (inside c whole)
    · decide
    · exact digit c (behind c fraction)
  | closed | runsOut => exact absurd rfl notString
  | symbol symbol =>
    have plain : ∀ kind ∈ TokenKind.symbols,
        kind.spelling.toList.tail.all (fun c => IsPlain c) = true := by decide
    exact of_decide_eq_true (List.all_eq_true.mp (plain _ symbol) c member)

theorem noComment_of_skips {text rest : List Char} (skips : Skips text rest) :
    ¬ ['-', '-'] <+: rest := by
  induction skips with
  | done _ noComment => exact noComment
  | blank _ _ ih => exact ih
  | line _ _ _ _ ih => exact ih
  | block _ _ ih => exact ih
  | openBlock => simp

section First

variable {c : Char} {text rest : List Char} {piece : Piece}

theorem isPlain_of_longestMatch {kind : TokenKind} {lexeme : List Char}
    (longest : LongestMatch kind lexeme rest) (notString : kind ≠ .string) :
    ∀ c ∈ lexeme.tail, IsPlain c := by
  obtain ⟨rule, matched⟩ | ⟨-, single, -⟩ := longest.matched
  · refine isPlain_of_matches matched ?_
    rintro rfl
    exact notString (longest.kindOf .string matched)
  · obtain ⟨d, rfl⟩ := List.length_eq_one_iff.mp single
    simp

theorem isQuote_eq_false {kind : TokenKind} {lexeme : List Char}
    (found : first c text = (.token kind lexeme, rest)) (notString : kind ≠ .string) :
    isQuote c = false := by
  rw [Bool.eq_false_iff]
  intro quote
  have string := first_of_quote quote text
  rw [found] at string
  exact notString (Piece.token.inj string).1

/-- A first piece that is neither a string nor a comment is passed. -/
theorem passes_first (found : first c text = (piece, rest)) (noShade : shade? piece = none) :
    Passes (c :: text) rest := by
  have whole := first_append c text
  have some := first_chars_ne_nil c text
  have proper := proper_first c text
  rw [found] at whole some proper
  cases piece with
  | lineComment | blockComment => cases noShade
  | blank d =>
    have plain : IsPlain d := isPlain_of_class (by decide) proper
    rw [← whole]
    exact passes_append (List.forall_mem_singleton.mpr plain) rest
  | token kind lexeme =>
    have notString : kind ≠ .string := by
      rintro rfl
      cases noShade
    obtain ⟨stop, longest⟩ := longestMatch_first found
    have plain := isPlain_of_longestMatch longest notString
    -- The first character may be a hyphen, but no comment stands here.
    obtain ⟨d, tail, rfl⟩ := List.exists_cons_of_ne_nil some
    obtain ⟨rfl, rfl⟩ := List.cons.inj whole
    exact .step (isQuote_eq_false found notString) (noComment_of_skips stop)
      (passes_append plain rest)

/-- Counting through the closing quote divides a text where reading a string does. -/
theorem quoted_eq (quote : Char) (text : List Char) :
    Cut.quoted quote text =
      ⟨text.take (quotedLength quote text), text.drop (quotedLength quote text)⟩ := by
  fun_induction Cut.quoted quote text with
  | case1 => rfl
  | case2 => rfl
  | case3 c text ih => simp [quotedLength, ih, Cut.behind]
  | case4 text noEnd noEscape => simp [quotedLength]
  | case5 c text noEnd noEscape different ih => simp [quotedLength, ih, Cut.behind, different]

theorem partsFrom_string (isQuote : isQuote c = true) (word text : List Char) :
    partsFrom word (c :: text) =
      wordPart word false ++ ⟨.string, c :: (Cut.quoted c text).taken⟩ ::
        partsFrom [] (Cut.quoted c text).rest := by
  have noHyphen : c ≠ '-' := by
    rintro rfl
    exact absurd isQuote (by decide)
  rw [partsFrom, if_neg (fun both => noHyphen both.1), if_pos isQuote, quoted_eq]

theorem partsFrom_comment (word text : List Char) :
    partsFrom word ('-' :: '-' :: text) =
      wordPart word false ++ [⟨.comment, '-' :: '-' :: text⟩] := by
  rw [partsFrom, if_pos ⟨rfl, rfl⟩]

/-- A comment ends with its line. -/
theorem rest_of_lineComment {body : List Char} (found : first c text = (.lineComment body, rest))
    (oneLine : '\n' ∉ c :: text) : rest = [] := by
  have whole := first_append c text
  have newline := newline_of_lineComment (congrArg Prod.fst found)
  rw [found] at whole newline
  refine List.eq_nil_iff_forall_not_mem.mpr fun d member => ?_
  obtain ⟨e, rest, rfl⟩ := List.exists_cons_of_ne_nil (List.ne_nil_of_mem member)
  obtain rfl := newline e rfl
  exact oneLine (whole ▸ List.mem_append_right _ List.mem_cons_self)

/-- A string or a comment is a part of its own. -/
theorem partsFrom_first {shade : Shade} (found : first c text = (piece, rest))
    (shaded : shade? piece = some shade) (oneLine : '\n' ∉ c :: text)
    (noBlock : ¬ ['-', '-', '[', '['] <:+: c :: text) (word : List Char) :
    partsFrom word (c :: text) =
      wordPart word false ++ ⟨shade, piece.chars⟩ :: partsFrom [] rest := by
  have whole := first_append c text
  rw [found] at whole
  cases piece with
  | blank => cases shaded
  | blockComment body closed => exact absurd ⟨[], _, whole⟩ noBlock
  | lineComment body =>
    obtain rfl : Shade.comment = shade := Option.some.inj shaded
    obtain rfl := rest_of_lineComment found oneLine
    obtain ⟨rfl, rfl⟩ := List.cons.inj ((List.append_nil _).symm.trans whole)
    rw [partsFrom.eq_1 []]
    exact partsFrom_comment word body
  | token kind lexeme =>
    obtain rfl : kind = .string := by
      cases kind with
      | string => rfl
      | _ => cases shaded
    obtain rfl : Shade.string = shade := Option.some.inj shaded
    have isQuote := isQuote_of_string found
    have read := first_of_quote isQuote text
    rw [found] at read
    obtain ⟨-, rfl⟩ := Piece.token.inj read
    have left : rest = (Cut.quoted c text).rest :=
      List.append_cancel_left ((List.cons.inj whole).2.trans (Cut.quoted_divides c text).symm)
    rw [left]
    exact partsFrom_string isQuote word text

end First

/-- Behind a word that has begun, the parts that look like strings or like comments stand where the
pieces stand. -/
theorem extents_partsFrom {shade : Shade} (scanned : shade.IsScanned) {text : List Char}
    (oneLine : '\n' ∉ text) (noBlock : ¬ ['-', '-', '[', '['] <:+: text) (word : List Char)
    (start : Nat) (place : Place) (column : place.position.column = start + word.length + 1) :
    extents shade start (partsFrom word text) =
      (located place (cut text)).filterMap (extent? shade) := by
  -- The induction is on the pieces. A word may reach over several of them, so what has been read
  -- of it varies, and only its end is tied to the place of the piece.
  fun_induction cut text generalizing word start place with
  | case1 =>
    have none := extents_wordPart scanned word false [] start
    rw [List.append_nil] at none
    rw [partsFrom, none]
    rfl
  | case2 c text ih =>
    have whole := first_append c text
    generalize found : first c text = read at ih whole
    obtain ⟨piece, rest⟩ := read
    simp only at ih whole ⊢
    have suffix : rest <:+ c :: text := ⟨piece.chars, whole⟩
    have others := ih (fun member => oneLine (suffix.mem member))
      (fun inside => noBlock (inside.trans suffix.isInfix))
    have length := congrArg List.length whole
    rw [List.length_append] at length
    have ownLine : '\n' ∉ piece.chars :=
      fun member => oneLine (whole ▸ List.mem_append_left rest member)
    have after := place.column_after ownLine
    rw [located]
    cases shaded : shade? piece with
    | none =>
      obtain ⟨word', start', same, passed⟩ :=
        extents_passes scanned (passes_first found shaded) word start
      rw [passed, List.filterMap_cons_none (by simp [extent?, shaded])]
      exact others _ _ _ (by omega)
    | some shown =>
      have stands := Span.extent_between column ownLine
      have behind := others [] (start + word.length + piece.chars.length)
        (place.after piece.chars) (by rw [List.length_nil]; omega)
      rw [partsFrom_first found shaded oneLine noBlock, extents_wordPart scanned, extents_cons,
        behind, List.filterMap_cons, extent?, shaded]
      simp only [Option.some.injEq]
      by_cases same : shown = shade
      · simp only [if_pos same, stands]
        rfl
      · simp only [if_neg same]
        rfl

/-- The parts of a line hold the line. If no block comment opens in it, those that look like strings
are its string tokens, and those that look like comments its comments. -/
theorem extents_highlight {source : String} (oneLine : '\n' ∉ source.toList) :
    (highlight source.toList).flatMap Part.text = source.toList ∧
      (¬ "--[[".toList <:+: source.toList →
        extents .string 0 (highlight source.toList) =
            ((tokenize source).filter (·.kind == .string)).map Token.extent ∧
          extents .comment 0 (highlight source.toList) =
            (Scan.ofSource source).comments.map (·.extentIn source)) := by
  refine ⟨text_highlight _, fun noBlock => ?_⟩
  rw [extents_tokens, extents_comments]
  exact ⟨extents_partsFrom (.inl rfl) oneLine noBlock [] 0 .start rfl,
    extents_partsFrom (.inr rfl) oneLine noBlock [] 0 .start rfl⟩

/-- A string with an escaped quote and hyphens, one of an escaped backslash, and a comment with a
quote. -/
theorem extents_highlight_escaped :
    '\n' ∉ "f('a\\'--', \"\\\\\")--'x".toList ∧
      ¬ "--[[".toList <:+: "f('a\\'--', \"\\\\\")--'x".toList ∧
      extents .string 0 (highlight "f('a\\'--', \"\\\\\")--'x".toList) =
        [⟨2, 9, "'a\\'--'".toList⟩, ⟨11, 15, "\"\\\\\"".toList⟩] ∧
      extents .comment 0 (highlight "f('a\\'--', \"\\\\\")--'x".toList) =
        [⟨16, 20, "--'x".toList⟩] := by
  have oneLine : '\n' ∉ "f('a\\'--', \"\\\\\")--'x".toList := by decide
  have noBlock : ¬ "--[[".toList <:+: "f('a\\'--', \"\\\\\")--'x".toList := by decide +kernel
  obtain ⟨strings, comments⟩ := (extents_highlight oneLine).2 noBlock
  exact ⟨oneLine, noBlock, strings.trans (by decide +kernel), comments.trans (by decide +kernel)⟩

end Explorer

end LuaTree
