import LuaTree.Proofs.Insertion

/-!
# Tokens are longest matches

A token is written by one of four rules: as a word, a number, a string or a symbol
(`TokenRule.Matches`). Scanning decides character by character, and still what it takes is the
longest beginning of the text that any rule matches (`LongestMatch`), behind the blanks and
comments that stand first (`Skips`). The first character tells which rule it is, but for symbols,
and of these the longest spelling is tried first.

`TokensFrom` reads a text with these words alone, token by token up to its end, and
`tokensFrom_tokenize` says that scanning yields such a reading.
-/

namespace LuaTree

open String (utf8Len)

/-- The text behind a byte offset. -/
def textFrom (source : String) (offset : Nat) : List Char :=
  (String.Pos.Raw.extract source ⟨offset⟩ ⟨source.utf8ByteSize⟩).toList

theorem textFrom_utf8Len {source : String} {before after : List Char}
    (split : source.toList = before ++ after) : textFrom source (utf8Len before) = after :=
  toList_extract_behind split

/-- What is left of a text behind the blanks and comments with which it begins. -/
inductive Skips : List Char → List Char → Prop where
  | done {text : List Char} (noBlank : ∀ c ∈ text.head?, Text.isBlank c = false)
      (noComment : ¬ ['-', '-'] <+: text) : Skips text text
  | blank {c : Char} {text rest : List Char} (blank : Text.isBlank c = true)
      (more : Skips text rest) : Skips (c :: text) rest
  /-- A line comment goes up to the line feed. -/
  | line {words text rest : List Char} (noBlock : ¬ ['[', '['] <+: words ++ text)
      (oneLine : '\n' ∉ words) (stop : ∀ c ∈ text.head?, c = '\n') (more : Skips text rest) :
      Skips ('-' :: '-' :: (words ++ text)) rest
  /-- The first closing brackets end a block comment. -/
  | block {words text rest : List Char} (first : ¬ [']', ']'] <:+: words ++ [']'])
      (more : Skips text rest) :
      Skips ('-' :: '-' :: '[' :: '[' :: (words ++ ']' :: ']' :: text)) rest
  | openBlock {words : List Char} (never : ¬ [']', ']'] <:+: words) :
      Skips ('-' :: '-' :: '[' :: '[' :: words) []

/-- Every such quote in the text stands behind a backslash that nothing escapes. -/
def Escaped (quote : Char) (text : List Char) : Prop :=
  ∀ before after, text = before ++ quote :: after → Piece.endsInEscape before = true

inductive TokenRule where
  | word
  | number
  | string
  | symbol (kind : TokenKind)

namespace TokenRule

/-- A lexeme of the rule, with the text behind it. -/
inductive Matches : TokenRule → List Char → List Char → Prop where
  | word {c : Char} {word rest : List Char} (start : isWordStart c = true)
      (parts : ∀ d ∈ word, isWordPart d = true) : Matches .word (c :: word) rest
  | integer {digits rest : List Char} (some : digits ≠ [])
      (inside : ∀ d ∈ digits, d.isDigit = true) : Matches .number digits rest
  | decimal {whole fraction rest : List Char} (some : whole ≠ [])
      (inside : ∀ d ∈ whole, d.isDigit = true) (more : fraction ≠ [])
      (behind : ∀ d ∈ fraction, d.isDigit = true) : Matches .number (whole ++ '.' :: fraction) rest
  | closed {quote : Char} {text rest : List Char} (isQuote : isQuote quote = true)
      (escaped : Escaped quote text) (closes : Piece.endsInEscape text = false) :
      Matches .string (quote :: (text ++ [quote])) rest
  /-- A string that is not closed goes up to the end of the text. -/
  | runsOut {quote : Char} {text : List Char} (isQuote : isQuote quote = true)
      (escaped : Escaped quote text) : Matches .string (quote :: text) []
  | symbol {kind : TokenKind} {rest : List Char} (symbol : kind ∈ TokenKind.symbols) :
      Matches (.symbol kind) kind.spelling.toList rest

/-- The kind of a token that the rule matches. -/
def kindOf (lexeme : List Char) : TokenRule → TokenKind
  | word => (TokenKind.keyword? (String.ofList lexeme)).getD .identifier
  | number => .number
  | string => .string
  | symbol kind => kind

end TokenRule

/-- The lexeme is the longest beginning of a text that a rule matches, and its kind is that of the
rule. On a text where no rule matches it is a single character. -/
structure LongestMatch (kind : TokenKind) (lexeme rest : List Char) : Prop where
  matched : (∃ rule : TokenRule, rule.Matches lexeme rest) ∨
    kind = .unknown ∧ lexeme.length = 1 ∧ ∀ (rule : TokenRule) (lexeme' rest' : List Char),
      lexeme' ++ rest' = lexeme ++ rest → ¬ rule.Matches lexeme' rest'
  longest : ∀ (rule : TokenRule) (lexeme' rest' : List Char),
    lexeme' ++ rest' = lexeme ++ rest → rule.Matches lexeme' rest' →
      lexeme'.length ≤ lexeme.length
  kindOf : ∀ rule : TokenRule, rule.Matches lexeme rest → kind = rule.kindOf lexeme
  keyword : TokenRule.word.Matches lexeme rest →
    (kind ∈ TokenKind.keywords ↔ (TokenKind.keyword? (String.ofList lexeme)).isSome = true)
  /-- Two hyphens side by side begin a comment. -/
  hyphen : kind = .minus → ∀ c ∈ rest.head?, c ≠ '-'

/-- The tokens of a text from an offset on: each is the longest match behind what is skipped, and
after the last one everything is skipped. -/
inductive TokensFrom (source : String) : Nat → List Token → Prop where
  | stop {offset : Nat} {span : Span} (skips : Skips (textFrom source offset) []) :
      TokensFrom source offset [⟨.eof, "", span⟩]
  | token {offset : Nat} {token : Token} {tokens : List Token}
      (skips : Skips (textFrom source offset) (textFrom source token.span.startOffset))
      (written : textFrom source token.span.startOffset =
        token.lexeme.toList ++ textFrom source token.span.endOffset)
      (longest : LongestMatch token.kind token.lexeme.toList (textFrom source token.span.endOffset))
      (others : TokensFrom source token.span.endOffset tokens) :
      TokensFrom source offset (token :: tokens)

namespace Cut

theorem length_le_run {p : Char → Bool} {body rest text : List Char}
    (inside : ∀ c ∈ body, p c = true) (whole : body ++ rest = text) :
    body.length ≤ (run p text).taken.length := by
  subst whole
  rw [run, List.takeWhile_append_of_pos inside, List.length_append]
  exact Nat.le_add_right _ _

theorem decimal_cons {c : Char} (digit : c.isDigit = true) (text : List Char) :
    decimal (c :: text) = (decimal text).behind [c] := by
  simp [decimal, run, digit, behind]

theorem matches_decimal {c : Char} (digit : c.isDigit = true) (text rest : List Char) :
    TokenRule.number.Matches (c :: (decimal text).taken) rest := by
  have inside : ∀ d ∈ c :: (run Char.isDigit text).taken, d.isDigit = true :=
    List.forall_mem_cons.mpr ⟨digit, run_inside⟩
  have taken : c :: (decimal text).taken =
      c :: (run Char.isDigit text).taken ++ (fraction (run Char.isDigit text).rest).taken := rfl
  rw [taken]
  fun_cases fraction (run Char.isDigit text).rest with
  | case1 d rest digit =>
    have behind : ∀ e ∈ d :: (run Char.isDigit rest).taken, e.isDigit = true :=
      List.forall_mem_cons.mpr ⟨digit, run_inside⟩
    exact .decimal (by simp) inside (by simp) behind
  | case2 | case3 =>
    rw [List.append_nil]
    exact .integer (by simp) inside

theorem length_le_decimal {lexeme rest text : List Char}
    (matched : TokenRule.number.Matches lexeme rest) (whole : lexeme ++ rest = text) :
    lexeme.length ≤ (decimal text).taken.length := by
  rw [decimal, behind, List.length_append]
  cases matched with
  | integer some inside =>
    exact Nat.le_trans (length_le_run inside whole) (Nat.le_add_right _ _)
  | @decimal front fraction _ some inside more behind =>
    obtain ⟨d, fraction, rfl⟩ := List.exists_cons_of_ne_nil more
    obtain ⟨digit, behind⟩ := List.forall_mem_cons.mp behind
    have point : ∀ c ∈ ('.' :: d :: (fraction ++ rest)).head?, c.isDigit = false := by
      intro c member
      obtain rfl : '.' = c := by simpa using member
      decide
    have divided : run Char.isDigit text = ⟨front, '.' :: d :: (fraction ++ rest)⟩ := by
      rw [← whole, List.append_assoc]
      exact run_append inside point
    have digits : fraction.length ≤ (run Char.isDigit (fraction ++ rest)).taken.length :=
      length_le_run behind rfl
    rw [divided, Cut.fraction, if_pos digit, Cut.behind]
    simp only [List.length_append, List.length_cons, List.length_nil]
    omega

end Cut

section Escaped

variable {quote c : Char} {text : List Char}

theorem escaped_nil (quote : Char) : Escaped quote [] := by
  intro before after same
  simp at same

theorem escaped_backslash (other : quote ≠ '\\') : Escaped quote ['\\'] := by
  intro before after same
  cases before with
  | nil => exact absurd (List.cons.inj same).1.symm other
  | cons d before => simp at same

theorem Escaped.escape (escaped : Escaped quote text) (other : quote ≠ '\\') (c : Char) :
    Escaped quote ('\\' :: c :: text) := by
  intro before after same
  cases before with
  | nil => exact absurd (List.cons.inj same).1.symm other
  | cons d before =>
    obtain ⟨rfl, behind⟩ := List.cons.inj same
    cases before with
    | nil => rfl
    | cons e before => exact escaped before after (List.cons.inj behind).2

theorem Escaped.cons (escaped : Escaped quote text) (other : c ≠ quote) (plain : c ≠ '\\') :
    Escaped quote (c :: text) := by
  intro before after same
  cases before with
  | nil => exact absurd (List.cons.inj same).1 other
  | cons d before =>
    obtain ⟨rfl, behind⟩ := List.cons.inj same
    rw [Piece.endsInEscape_cons plain]
    exact escaped before after behind

/-- A text in which such quotes are escaped does not reach beyond one that is not. -/
theorem Escaped.length_le (escaped : Escaped quote text) {text' rest rest' : List Char}
    (closes : Piece.endsInEscape text' = false) (whole : text ++ rest = text' ++ quote :: rest') :
    text.length ≤ text'.length := by
  obtain ⟨more, longer, -⟩ | ⟨more, shorter, tail⟩ := List.append_eq_append_iff.mp whole
  · rw [longer, List.length_append]
    exact Nat.le_add_right _ _
  · cases more with
    | nil => rw [shorter, List.append_nil]
    | cons d more =>
      obtain ⟨rfl, -⟩ := List.cons.inj tail
      rw [escaped text' more shorter] at closes
      cases closes

/-- What is quoted ends with the first quote that is not escaped, or with the text. -/
theorem Cut.quoted_escaped (other : quote ≠ '\\') (text : List Char) :
    (∃ inner, (Cut.quoted quote text).taken = inner ++ [quote] ∧ Escaped quote inner ∧
      Piece.endsInEscape inner = false) ∨
      (Cut.quoted quote text).rest = [] ∧ Escaped quote (Cut.quoted quote text).taken := by
  fun_induction Cut.quoted quote text with
  | case1 => exact .inr ⟨rfl, escaped_nil quote⟩
  | case2 => exact .inr ⟨rfl, escaped_backslash other⟩
  | case3 c text ih =>
    rcases ih with ⟨inner, taken, escaped, closes⟩ | ⟨stop, escaped⟩
    · refine .inl ⟨'\\' :: c :: inner, ?_, escaped.escape other c, closes⟩
      rw [Cut.behind, taken]
      rfl
    · exact .inr ⟨stop, escaped.escape other c⟩
  | case4 text => exact .inl ⟨[], rfl, escaped_nil quote, rfl⟩
  | case5 c text noEnd noEscape different ih =>
    have plain := ne_backslash noEnd noEscape
    rcases ih with ⟨inner, taken, escaped, closes⟩ | ⟨stop, escaped⟩
    · refine .inl ⟨c :: inner, ?_, escaped.cons different plain, ?_⟩
      · rw [Cut.behind, taken]
        rfl
      · rw [Piece.endsInEscape_cons plain, closes]
    · exact .inr ⟨stop, escaped.cons different plain⟩

theorem Cut.matches_quoted (isQuote : isQuote quote = true) (text : List Char) :
    TokenRule.string.Matches (quote :: (Cut.quoted quote text).taken)
      (Cut.quoted quote text).rest := by
  rcases Cut.quoted_escaped (isQuote_ne_backslash isQuote) text with
    ⟨inner, taken, escaped, closes⟩ | ⟨stop, escaped⟩
  · rw [taken]
    exact .closed isQuote escaped closes
  · rw [stop]
    exact .runsOut isQuote escaped

theorem Cut.length_le_quoted {lexeme rest : List Char} (isQuote : isQuote quote = true)
    (matched : TokenRule.string.Matches lexeme rest) (whole : lexeme ++ rest = quote :: text) :
    lexeme.length ≤ (quote :: (Cut.quoted quote text).taken).length := by
  have divided := Cut.quoted_divides quote text
  rw [Cut.Divides] at divided
  rcases Cut.quoted_escaped (isQuote_ne_backslash isQuote) text with
    ⟨inner, taken, escaped, closes⟩ | ⟨stop, -⟩
  · rw [taken, List.append_assoc, List.singleton_append] at divided
    rw [taken, List.length_cons, List.length_append, List.length_singleton]
    cases matched with
    | @closed quote' text' _ _ escaped' closes' =>
      obtain ⟨rfl, left⟩ := List.cons.inj whole
      have left : text' ++ ([quote'] ++ rest) = text := (List.append_assoc ..).symm.trans left
      simpa using escaped'.length_le closes (left.trans divided.symm)
    | @runsOut quote' text' _ escaped' =>
      obtain ⟨rfl, left⟩ := List.cons.inj whole
      simpa using Nat.le_succ_of_le (escaped'.length_le closes (left.trans divided.symm))
  -- an open string is all that is left
  · rw [stop, List.append_nil] at divided
    rw [divided, ← whole, List.length_append]
    exact Nat.le_add_right _ _

end Escaped

namespace TokenKind

theorem eq_of_spelling_eq {kind kind' : TokenKind} (symbol : kind ∈ symbols)
    (symbol' : kind' ∈ symbols) (same : kind.spelling.toList = kind'.spelling.toList) :
    kind = kind' := by
  have distinct : (symbols.map spelling).Nodup := by decide
  exact List.inj_on_of_nodup_map distinct symbol symbol' (String.toList_inj.mp same)

end TokenKind

/-- Longer spellings are tried first. -/
theorem Piece.length_le_symbol? {text : List Char} {kind kind' : TokenKind}
    (found : Piece.symbol? text = some kind) (symbol : kind' ∈ TokenKind.symbols)
    (fits : kind'.spelling.toList <+: text) :
    kind'.spelling.toList.length ≤ kind.spelling.toList.length := by
  have sorted : TokenKind.symbols.Pairwise fun a b =>
      b.spelling.toList.length ≤ a.spelling.toList.length := by decide
  obtain ⟨-, before, behind, split, passed⟩ := List.find?_eq_some_iff_append.mp found
  rw [split] at sorted symbol
  rcases List.mem_append.mp symbol with earlier | later
  · have unfit := passed kind' earlier
    rw [List.isPrefixOf_iff_prefix.mpr fits] at unfit
    cases unfit
  · rcases List.mem_cons.mp later with rfl | later
    · exact Nat.le_refl _
    · exact (List.pairwise_cons.mp (List.pairwise_append.mp sorted).2.1).1 kind' later

theorem isWordStart_of_isDigit {c : Char} (digit : c.isDigit = true) : isWordStart c = false := by
  have high : c.toNat ≤ 0x39 := (Char.isDigit_iff_toNat.mp digit).2
  have letter : Text.isAlphabetic c = false := by
    rw [Text.isAlphabetic, Text.alphabeticRanges, Text.inRanges]
    exact Bool.and_eq_false_imp.mpr fun above => absurd (of_decide_eq_true above) (by omega)
  have underscore : c ≠ '_' := by
    rintro rfl
    exact absurd digit (by decide)
  simp [isWordStart, letter, underscore]

namespace TokenRule

/-- The characters with which lexemes of the rule begin. -/
def Begins (c : Char) : TokenRule → Prop
  | word => isWordStart c = true
  | number => c.isDigit = true
  | string => isQuote c = true
  | symbol kind => kind ∈ TokenKind.symbols ∧ kind.spelling.toList.head? = some c

variable {rule : TokenRule} {c : Char}

theorem Matches.begins {lexeme rest text : List Char} (matched : rule.Matches lexeme rest)
    (whole : lexeme ++ rest = c :: text) : rule.Begins c := by
  cases matched with
  | word start parts =>
    obtain ⟨rfl, -⟩ := List.cons.inj whole
    exact start
  | integer some inside =>
    obtain ⟨d, digits, rfl⟩ := List.exists_cons_of_ne_nil some
    obtain ⟨rfl, -⟩ := List.cons.inj whole
    exact inside d List.mem_cons_self
  | decimal some inside more behind =>
    obtain ⟨d, digits, rfl⟩ := List.exists_cons_of_ne_nil some
    obtain ⟨rfl, -⟩ := List.cons.inj whole
    exact inside d List.mem_cons_self
  | closed isQuote escaped closes =>
    obtain ⟨rfl, -⟩ := List.cons.inj whole
    exact isQuote
  | runsOut isQuote escaped =>
    obtain ⟨rfl, -⟩ := List.cons.inj whole
    exact isQuote
  | @symbol kind _ symbol =>
    have spelled : ∀ kind ∈ TokenKind.symbols, kind.spelling.toList ≠ [] := by decide
    obtain ⟨d, more, spelling⟩ := List.exists_cons_of_ne_nil (spelled kind symbol)
    rw [spelling] at whole
    obtain ⟨rfl, -⟩ := List.cons.inj whole
    exact ⟨symbol, by rw [spelling]; rfl⟩

theorem plain_of_symbol {kind : TokenKind} (begins : (symbol kind).Begins c) :
    isQuote c = false ∧ c.isDigit = false ∧ isWordStart c = false := by
  have plain : ∀ kind ∈ TokenKind.symbols, kind.spelling.toList.head?.all
      (fun c => !(isQuote c || c.isDigit || isWordStart c)) = true := by decide
  simpa [and_assoc] using (Option.all_eq_true _ _).mp (plain kind begins.1) c begins.2

theorem plain_of_isQuote (quote : isQuote c = true) :
    c.isDigit = false ∧ isWordStart c = false := by
  have either : c = '"' ∨ c = '\'' := by simpa [isQuote] using quote
  rcases either with rfl | rfl <;> decide

theorem eq_string (quote : isQuote c = true) (begins : rule.Begins c) : rule = string := by
  obtain ⟨notDigit, notWord⟩ := plain_of_isQuote quote
  cases rule with
  | word => exact absurd begins (by simp [Begins, notWord])
  | number => exact absurd begins (by simp [Begins, notDigit])
  | string => rfl
  | symbol kind => exact absurd quote (by simp [(plain_of_symbol begins).1])

theorem eq_number (digit : c.isDigit = true) (begins : rule.Begins c) : rule = number := by
  cases rule with
  | word => exact absurd begins (by simp [Begins, isWordStart_of_isDigit digit])
  | number => rfl
  | string => exact absurd digit (by simp [(plain_of_isQuote begins).1])
  | symbol kind => exact absurd digit (by simp [(plain_of_symbol begins).2.1])

theorem eq_word (start : isWordStart c = true) (begins : rule.Begins c) : rule = word := by
  cases rule with
  | word => rfl
  | number => exact absurd start (by simp [isWordStart_of_isDigit begins])
  | string => exact absurd start (by simp [(plain_of_isQuote begins).2])
  | symbol kind => exact absurd start (by simp [(plain_of_symbol begins).2.2])

theorem exists_symbol (notQuote : ¬ isQuote c = true) (notDigit : ¬ c.isDigit = true)
    (notWord : ¬ isWordStart c = true) (begins : rule.Begins c) : ∃ kind, rule = symbol kind := by
  cases rule with
  | word => exact absurd begins notWord
  | number => exact absurd begins notDigit
  | string => exact absurd begins notQuote
  | symbol kind => exact ⟨kind, rfl⟩

/-- Words are keywords if they are found among them. -/
theorem kindOf_word_mem_keywords_iff (lexeme : List Char) :
    word.kindOf lexeme ∈ TokenKind.keywords ↔
      (TokenKind.keyword? (String.ofList lexeme)).isSome = true := by
  rw [kindOf]
  cases found : TokenKind.keyword? (String.ofList lexeme) with
  | none => exact iff_of_false (by decide) (by decide)
  | some kind => exact iff_of_true (List.mem_of_find?_eq_some found) rfl

/-- Words are identifiers or keywords. -/
theorem kindOf_word_cases (lexeme : List Char) :
    word.kindOf lexeme = .identifier ∨ word.kindOf lexeme ∈ TokenKind.keywords := by
  rw [kindOf]
  cases found : TokenKind.keyword? (String.ofList lexeme) with
  | none => exact .inl rfl
  | some kind => exact .inr (List.mem_of_find?_eq_some found)

theorem eq_symbol_minus {lexeme : List Char} (minus : rule.kindOf lexeme = .minus) :
    rule = symbol .minus := by
  cases rule with
  | word => exact absurd (minus ▸ kindOf_word_cases lexeme) (by decide)
  | number => cases minus
  | string => cases minus
  | symbol kind => exact congrArg symbol minus

/-- Only strings are of the kind of strings. -/
theorem eq_string_of_kindOf {lexeme rest : List Char} (matched : rule.Matches lexeme rest)
    (same : rule.kindOf lexeme = .string) : rule = string := by
  cases rule with
  | word => exact absurd (same ▸ kindOf_word_cases lexeme) (by decide)
  | number => cases same
  | string => rfl
  | symbol kind =>
    obtain rfl : kind = .string := same
    cases matched with
    | symbol symbol => exact absurd symbol (by decide)

end TokenRule

section Matching

variable {kind : TokenKind} {rule : TokenRule} {c : Char} {text lexeme rest : List Char}

/-- What a rule matches, before a text that begins no comment. -/
theorem LongestMatch.of_matches (matched : rule.Matches lexeme rest)
    (noComment : ¬ ['-', '-'] <+: lexeme ++ rest)
    (kindOf : ∀ rule : TokenRule, rule.Matches lexeme rest → kind = rule.kindOf lexeme)
    (longest : ∀ (rule : TokenRule) (lexeme' rest' : List Char),
      lexeme' ++ rest' = lexeme ++ rest → rule.Matches lexeme' rest' →
        lexeme'.length ≤ lexeme.length) : LongestMatch kind lexeme rest where
  matched := .inl ⟨rule, matched⟩
  longest := longest
  kindOf := kindOf
  keyword word := by
    rw [kindOf .word word]
    exact TokenRule.kindOf_word_mem_keywords_iff lexeme
  hyphen minus := by
    have same := kindOf rule matched
    rw [minus] at same
    obtain rfl := TokenRule.eq_symbol_minus same.symm
    cases matched
    intro c member
    rintro rfl
    obtain ⟨more, rfl⟩ := List.head?_eq_some_iff.mp member
    exact noComment (List.prefix_append ['-', '-'] more)

/-- The only rule that matches a text with such a first character. -/
theorem LongestMatch.of_only (matched : rule.Matches lexeme rest)
    (whole : lexeme ++ rest = c :: text) (noComment : ¬ ['-', '-'] <+: c :: text)
    (kindOf : kind = rule.kindOf lexeme) (only : ∀ rule' : TokenRule, rule'.Begins c → rule' = rule)
    (longest : ∀ lexeme' rest', rule.Matches lexeme' rest' → lexeme' ++ rest' = c :: text →
      lexeme'.length ≤ lexeme.length) : LongestMatch kind lexeme rest := by
  refine .of_matches matched (by rwa [whole]) ?_ ?_
  · intro rule' matched'
    obtain rfl := only rule' (matched'.begins whole)
    exact kindOf
  · intro rule' lexeme' rest' same matched'
    rw [whole] at same
    obtain rfl := only rule' (matched'.begins same)
    exact longest lexeme' rest' matched' same

theorem longestMatch_symbol (found : Piece.symbol? (c :: text) = some kind)
    (whole : kind.spelling.toList ++ rest = c :: text) (noComment : ¬ ['-', '-'] <+: c :: text)
    (only : ∀ rule : TokenRule, rule.Begins c → ∃ kind, rule = .symbol kind) :
    LongestMatch kind kind.spelling.toList rest := by
  have symbol := List.mem_of_find?_eq_some found
  refine .of_matches (.symbol symbol) (by rwa [whole]) ?_ ?_
  · intro rule matched
    obtain ⟨kind', rfl⟩ := only rule (matched.begins whole)
    generalize spelling : kind.spelling.toList = lexeme at matched
    cases matched with
    | symbol symbol' => exact TokenKind.eq_of_spelling_eq symbol symbol' spelling
  · intro rule lexeme' rest' same matched
    rw [whole] at same
    obtain ⟨kind', rfl⟩ := only rule (matched.begins same)
    cases matched with
    | symbol symbol' =>
      exact Piece.length_le_symbol? found symbol' (same ▸ List.prefix_append _ _)

theorem longestMatch_unknown (none : Piece.symbol? (c :: text) = none)
    (only : ∀ rule : TokenRule, rule.Begins c → ∃ kind, rule = .symbol kind) :
    LongestMatch .unknown [c] text := by
  have never (rule : TokenRule) (lexeme rest : List Char) (whole : lexeme ++ rest = c :: text) :
      ¬ rule.Matches lexeme rest := by
    intro matched
    obtain ⟨kind, rfl⟩ := only rule (matched.begins whole)
    cases matched with
    | symbol symbol =>
      have unfit := List.find?_eq_none.mp none kind symbol
      exact unfit (List.isPrefixOf_iff_prefix.mpr (whole ▸ List.prefix_append _ _))
  exact {
    matched := .inr ⟨rfl, rfl, never⟩
    longest := fun rule lexeme rest whole matched => absurd matched (never rule lexeme rest whole)
    kindOf := fun rule matched => absurd matched (never rule [c] text rfl)
    keyword := fun matched => absurd matched (never .word [c] text rfl)
    hyphen := nofun }

theorem longestMatch_firstToken (noComment : ¬ ['-', '-'] <+: c :: text)
    (found : Piece.firstToken c text = (.token kind lexeme, rest)) :
    LongestMatch kind lexeme rest := by
  have whole := Piece.firstToken_append c text
  rw [found] at whole
  change lexeme ++ rest = c :: text at whole
  unfold Piece.firstToken at found
  split at found
  · next quote =>
    cases found
    exact .of_only (Cut.matches_quoted quote text) whole noComment rfl
      (fun _ => TokenRule.eq_string quote) fun _ _ => Cut.length_le_quoted quote
  split at found
  · next digit =>
    cases found
    refine .of_only (Cut.matches_decimal digit text _) whole noComment rfl
      (fun _ => TokenRule.eq_number digit) fun lexeme' rest' matched same => ?_
    have longest := Cut.length_le_decimal matched same
    rwa [Cut.decimal_cons digit] at longest
  split at found
  · next start =>
    cases found
    refine .of_only (.word start Cut.run_inside) whole noComment rfl
      (fun _ => TokenRule.eq_word start) fun lexeme' rest' matched same => ?_
    cases matched with
    | word start' parts =>
      exact Nat.succ_le_succ (Cut.length_le_run parts (List.cons.inj same).2)
  next notQuote notDigit notWord =>
  have only (rule : TokenRule) : rule.Begins c → ∃ kind, rule = .symbol kind :=
    TokenRule.exists_symbol notQuote notDigit notWord
  split at found
  · next symbol =>
    cases found
    exact longestMatch_symbol symbol whole noComment only
  · next none =>
    cases found
    exact longestMatch_unknown none only

end Matching

namespace Piece

variable {c : Char} {text rest rest' : List Char}

/-- The closing brackets of a block comment are the first ones behind its opening. -/
theorem not_infix_blockText_concat (closed : (blockText text).2.1 = true) :
    ¬ [']', ']'] <:+: (blockText text).1 ++ [']'] := by
  fun_induction blockText text with
  | case1 => cases closed
  | case2 =>
    have short : ¬ [']', ']'] <:+: [']'] := by decide
    exact short
  | case3 c rest opens ih =>
    rw [List.cons_append, List.infix_cons_iff, not_or]
    refine ⟨?_, ih closed⟩
    rintro ⟨tail, same⟩
    obtain ⟨bracket, inner⟩ := List.cons.inj same
    have whole := blockText_append rest
    rw [if_pos closed] at whole
    change (blockText rest).1 ++ ([']'] ++ _) = rest at whole
    rw [← List.append_assoc, ← inner] at whole
    exact opens _ bracket.symm whole.symm

theorem isToken_firstToken (c : Char) (text : List Char) :
    (firstToken c text).1.isToken = true := by
  unfold firstToken
  split
  · rfl
  split
  · rfl
  split
  · rfl
  split <;> rfl

/-- A blank or a comment is skipped with what follows it. -/
theorem skips_first {piece : Piece} (found : first c text = (piece, rest))
    (notToken : piece.isToken = false) (more : Skips rest rest') : Skips (c :: text) rest' := by
  unfold first at found
  split at found
  · next blank =>
    obtain ⟨-, rfl⟩ := Prod.mk.inj found
    exact .blank blank more
  split at found
  · next body _ =>
    obtain ⟨-, rfl⟩ := Prod.mk.inj found
    have whole := blockText_append body
    cases closed : (blockText body).2.1 with
    | true =>
      rw [closed] at whole
      rw [← whole]
      exact .block (not_infix_blockText_concat closed) more
    | false =>
      rw [closed, blockText_rest closed, if_neg Bool.false_ne_true, List.append_nil,
        List.append_nil] at whole
      rw [blockText_rest closed] at more
      have never := not_infix_blockText body
      rw [whole] at never
      cases more with
      | done => exact .openBlock never
  · next body noBlock _ =>
    obtain ⟨-, rfl⟩ := Prod.mk.inj found
    have whole : (Cut.run (· != '\n') body).taken ++ (Cut.run (· != '\n') body).rest = body :=
      Cut.run_divides _ body
    rw [← whole]
    refine .line ?_ ?_ ?_ more
    · rw [whole]
      rintro ⟨tail, rfl⟩
      exact noBlock tail rfl
    · intro newline
      exact absurd (Cut.run_inside _ newline) (by decide)
    · intro d member
      simpa using Cut.run_outside d member
  · have token := isToken_firstToken c text
    rw [found, notToken] at token
    cases token

/-- A token stands where nothing is skipped. -/
theorem longestMatch_first {kind : TokenKind} {lexeme : List Char}
    (found : first c text = (.token kind lexeme, rest)) :
    Skips (c :: text) (c :: text) ∧ LongestMatch kind lexeme rest := by
  unfold first at found
  split at found
  · cases found
  next notBlank =>
  split at found
  · cases found
  · cases found
  · next noLine =>
    have noComment : ¬ ['-', '-'] <+: c :: text := by
      rintro ⟨tail, same⟩
      obtain ⟨rfl, rfl⟩ := List.cons.inj same
      exact noLine tail rfl rfl
    refine ⟨.done ?_ noComment, longestMatch_firstToken noComment found⟩
    intro d member
    obtain rfl := Option.some.inj member
    exact Bool.eq_false_iff.mpr notBlank

/-- A token of the kind of strings begins with a quote. -/
theorem isQuote_of_string {lexeme : List Char}
    (found : first c text = (.token .string lexeme, rest)) : isQuote c = true := by
  have whole := first_append c text
  rw [found] at whole
  obtain ⟨-, longest⟩ := longestMatch_first found
  obtain ⟨rule, matched⟩ | ⟨unknown, -⟩ := longest.matched
  · obtain rfl := TokenRule.eq_string_of_kindOf matched (longest.kindOf rule matched).symm
    exact matched.begins whole
  · cases unknown

end Piece

section TokensFrom

variable {source : String}

/-- What is skipped first leaves the same tokens. -/
theorem TokensFrom.skip {offset offset' : Nat} {tokens : List Token}
    (step : ∀ {rest}, Skips (textFrom source offset') rest → Skips (textFrom source offset) rest)
    (read : TokensFrom source offset' tokens) : TokensFrom source offset tokens := by
  cases read with
  | stop skips => exact .stop (step skips)
  | token skips written longest others => exact .token (step skips) written longest others

/-- A token in front, where nothing is skipped. -/
theorem TokensFrom.behind {before lexeme rest : List Char} {kind : TokenKind} {tokens : List Token}
    (whole : source.toList = before ++ lexeme ++ rest)
    (stop : Skips (lexeme ++ rest) (lexeme ++ rest)) (longest : LongestMatch kind lexeme rest)
    (others : TokensFrom source (utf8Len (before ++ lexeme)) tokens) :
    TokensFrom source (utf8Len before)
      (⟨kind, String.ofList lexeme, .behind before lexeme⟩ :: tokens) := by
  have start : textFrom source (utf8Len before) = lexeme ++ rest :=
    textFrom_utf8Len (by rw [whole, List.append_assoc])
  have finish : textFrom source (utf8Len (before ++ lexeme)) = rest := textFrom_utf8Len whole
  have offset : (Span.behind before lexeme).endOffset = utf8Len (before ++ lexeme) := by
    rw [Span.endOffset_behind, String.utf8Len_append]
  refine .token ?_ ?_ ?_ ?_
  · rwa [Span.startOffset_behind, start]
  · rw [Span.startOffset_behind, offset, start, finish, String.toList_ofList]
  · rwa [offset, finish, String.toList_ofList]
  · rwa [offset]

theorem tokensFrom_ofPieces {before text : List Char} (whole : source.toList = before ++ text) :
    TokensFrom source (utf8Len before)
      (Scan.ofPieces (Place.start.after before) (Piece.cut text)).tokens := by
  fun_induction Piece.cut text generalizing before with
  | case1 =>
    refine .stop ?_
    rw [textFrom_utf8Len whole]
    exact .done (by simp) (by simp)
  | case2 c text ih =>
    have divided := Piece.first_append c text
    generalize found : Piece.first c text = split at ih divided
    obtain ⟨piece, rest⟩ := split
    have behind : source.toList = before ++ piece.chars ++ rest := by
      rw [List.append_assoc, divided, whole]
    have others := ih behind
    rw [Place.after_append] at others
    have skipped (notToken : piece.isToken = false) : TokensFrom source (utf8Len before)
        (Scan.ofPieces ((Place.start.after before).after piece.chars) (Piece.cut rest)).tokens := by
      refine others.skip fun more => ?_
      rw [textFrom_utf8Len behind] at more
      rw [textFrom_utf8Len whole]
      exact Piece.skips_first found notToken more
    cases piece with
    | blank | lineComment | blockComment => exact skipped rfl
    | token kind lexeme =>
      obtain ⟨stop, longest⟩ := Piece.longestMatch_first found
      rw [← divided] at stop
      have read := TokensFrom.behind behind stop longest others
      rw [Span.behind, Place.after_append] at read
      exact read

/-- Scanning takes the longest matches. -/
theorem tokensFrom_tokenize (source : String) : TokensFrom source 0 (tokenize source) := by
  have whole : source.toList = [] ++ source.toList := rfl
  exact tokensFrom_ofPieces whole

/-- Of four points, three are one token. -/
example : (tokenize "a....5 --[[.]]~=").map (·.lexeme) = ["a", "...", ".", "5", "~=", ""] := by
  decide +kernel

end TokensFrom

end LuaTree
