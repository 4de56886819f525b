import LuaTree.Render

/-!
# Pieces that stand apart

A list of pieces is written one behind the other. Reading the text back gives
the same pieces only if no piece runs into the text behind it: two hyphens would
begin a comment, two letters one word, a point and a digit one number.

`Piece.Fits` says this of one piece, `Piece.Apart` of a list, and
`cut_of_apart` is what it is for. The rest of the module tells what may stand
behind a piece of each sort.
-/

namespace LuaTree

/-- A list of which the first part and nothing behind it is in the class is divided there. -/
theorem takeWhile_dropWhile_append {α : Type} {p : α → Bool} {body rest : List α}
    (inside : ∀ a ∈ body, p a = true) (outside : ∀ a ∈ rest.head?, p a = false) :
    (body ++ rest).takeWhile p = body ∧ (body ++ rest).dropWhile p = rest := by
  rw [List.takeWhile_append_of_pos inside, List.dropWhile_append_of_pos inside]
  cases rest with
  | nil => simp
  | cons a rest => simp [outside a rfl]

namespace Cut

theorem run_append {p : Char → Bool} {body rest : List Char} (inside : ∀ c ∈ body, p c = true)
    (outside : ∀ c ∈ rest.head?, p c = false) : run p (body ++ rest) = ⟨body, rest⟩ := by
  obtain ⟨taken, left⟩ := takeWhile_dropWhile_append inside outside
  rw [run, taken, left]

theorem run_inside {p : Char → Bool} {text : List Char} :
    ∀ c ∈ (run p text).taken, p c = true := by
  intro c member
  exact List.all_eq_true.mp List.all_takeWhile c member

theorem run_outside {p : Char → Bool} {text : List Char} :
    ∀ c ∈ (run p text).rest.head?, p c = false := by
  intro c member
  have stop := List.head?_dropWhile_not p text
  change (List.dropWhile p text).head? = some c at member
  rw [member] at stop
  exact stop

end Cut

/-- The text between the quotes of a string: no quote that closes it, no backslash at its end. -/
def isQuotable (quote : Char) : List Char → Bool
  | [] => true
  | c :: text =>
    if c = '\\' then
      match text with
      | [] => false
      | _ :: text => isQuotable quote text
    else c != quote && isQuotable quote text

theorem isQuote_ne_backslash {quote : Char} (h : isQuote quote = true) : quote ≠ '\\' := by
  intro same
  rw [same] at h
  exact absurd h (by decide)

/-- A character is no backslash if it neither is one at the end nor escapes the next one. -/
theorem ne_backslash {c : Char} {text : List Char} (noEnd : c = '\\' → text = [] → False)
    (noEscape : ∀ d rest, c = '\\' → text = d :: rest → False) : c ≠ '\\' := by
  rintro rfl
  cases text with
  | nil => exact noEnd rfl rfl
  | cons d rest => exact noEscape d rest rfl rfl

theorem Cut.quoted_cons {quote c : Char} (plain : c ≠ '\\') (text : List Char) :
    Cut.quoted quote (c :: text) =
      if c = quote then ⟨[c], text⟩ else (Cut.quoted quote text).behind [c] := by
  rw [Cut.quoted]
  · intro same; exact absurd same plain
  · intro d rest same; exact absurd same plain

/-- A quotable text is read up to the quote behind it. -/
theorem Cut.quoted_append {quote : Char} (isQuote : isQuote quote = true) {text : List Char}
    (quotable : isQuotable quote text = true) (rest : List Char) :
    Cut.quoted quote (text ++ quote :: rest) = ⟨text ++ [quote], rest⟩ := by
  fun_induction isQuotable quote text with
  | case1 => simp [Cut.quoted_cons (isQuote_ne_backslash isQuote)]
  | case2 => exact absurd quotable (by decide)
  | case3 c text ih => simp [Cut.quoted, ih quotable, Cut.behind]
  | case4 c text plain ih =>
    obtain ⟨other, quotable⟩ := Bool.and_eq_true_iff.mp quotable
    simp [Cut.quoted_cons plain, bne_iff_ne.mp other, ih quotable, Cut.behind]

/-- The contents of a string token are the text between its quotes. -/
theorem beforeQuote_append {quote : Char} (isQuote : isQuote quote = true) {text : List Char}
    (quotable : isQuotable quote text = true) :
    beforeQuote quote false (text ++ [quote]) = text := by
  fun_induction isQuotable quote text with
  | case1 => simp [beforeQuote, isQuote_ne_backslash isQuote]
  | case2 => exact absurd quotable (by decide)
  | case3 c text ih => simp [beforeQuote, ih quotable]
  | case4 c text plain ih =>
    obtain ⟨other, quotable⟩ := Bool.and_eq_true_iff.mp quotable
    simp [beforeQuote, plain, bne_iff_ne.mp other, ih quotable]

namespace Piece

/-- The piece does not run into the text behind it. -/
def Fits (piece : Piece) (rest : List Char) : Prop :=
  cut (piece.chars ++ rest) = piece :: cut rest

/-- Every piece fits before what follows it, the last one before `rest`. -/
def Apart : List Piece → List Char → Prop
  | [], _ => True
  | piece :: pieces, rest => piece.Fits (textOf pieces ++ rest) ∧ Apart pieces rest

theorem textOf_append (pieces more : List Piece) :
    textOf (pieces ++ more) = textOf pieces ++ textOf more :=
  List.flatMap_append

@[simp] theorem apart_nil (rest : List Char) : Apart [] rest := trivial

@[simp] theorem apart_cons {piece : Piece} {pieces : List Piece} {rest : List Char} :
    Apart (piece :: pieces) rest ↔ piece.Fits (textOf pieces ++ rest) ∧ Apart pieces rest :=
  Iff.rfl

@[simp] theorem apart_append {pieces more : List Piece} {rest : List Char} :
    Apart (pieces ++ more) rest ↔ Apart pieces (textOf more ++ rest) ∧ Apart more rest := by
  induction pieces with
  | nil => simp
  | cons piece pieces ih => simp [ih, textOf_append, and_assoc]

/-- Pieces that stand apart are found again. -/
theorem cut_of_apart {pieces : List Piece} {rest : List Char} (apart : Apart pieces rest) :
    cut (textOf pieces ++ rest) = pieces ++ cut rest := by
  induction pieces with
  | nil => rfl
  | cons piece pieces ih =>
    obtain ⟨fits, apart⟩ := apart
    rw [textOf_cons, List.append_assoc, fits, ih apart, List.cons_append]

theorem cut_cons (c : Char) (text : List Char) :
    cut (c :: text) = (first c text).1 :: cut (first c text).2 := by
  rw [cut]

theorem fits_of_first (c : Char) (text : List Char) {piece : Piece} {rest : List Char}
    (chars : piece.chars ++ rest = c :: text) (found : first c text = (piece, rest)) :
    piece.Fits rest := by
  rw [Fits, chars, cut_cons, found]

theorem fits_blank {c : Char} (blank : Text.isBlank c = true) (rest : List Char) :
    (Piece.blank c).Fits rest :=
  fits_of_first _ _ rfl (by simp [first, blank])

/-- The text of a block comment: its first closing is the one behind it. -/
def isEnclosable (text : List Char) : Prop :=
  blockText (text ++ [']', ']']) = (text, true, [])

theorem blockText_append_of_closed {text rest more : List Char}
    (closed : blockText text = (rest, true, [])) :
    blockText (text ++ more) = (rest, true, more) := by
  fun_induction blockText text generalizing rest with
  | case1 => simp at closed
  | case2 tail =>
    obtain ⟨rfl, rfl⟩ : rest = [] ∧ tail = [] := by simpa [eq_comm] using closed
    simp [blockText]
  | case3 c tail open_ ih =>
    have parts := Prod.mk.inj closed
    have inner : blockText tail = ((blockText tail).1, true, []) := Prod.ext rfl parts.2
    have opens : ∀ next, c = ']' → tail ++ more = ']' :: next → False := by
      intro next bracket same
      cases tail with
      | nil => simp [blockText] at inner
      | cons d tail =>
        have first := (List.cons.inj same).1
        exact open_ tail bracket (by rw [first])
    rw [List.cons_append, blockText, ih inner]
    · exact Prod.ext parts.1 rfl
    · exact opens

theorem fits_blockComment {text : List Char} (enclosable : isEnclosable text)
    (rest : List Char) : (Piece.blockComment text true).Fits rest := by
  have read : blockText (text ++ ']' :: ']' :: rest) = (text, true, rest) := by
    simpa using blockText_append_of_closed enclosable
  refine fits_of_first '-' ('-' :: '[' :: '[' :: (text ++ ']' :: ']' :: rest))
    (by simp [chars]) ?_
  have plain : Text.isBlank '-' = false := by decide
  simp [first, plain, read]

/-- The text of a line comment: one line that does not open a block comment. -/
def isOneLine (text : List Char) : Prop :=
  (∀ c ∈ text, c ≠ '\n') ∧ ¬ ['[', '['] <+: text

theorem fits_lineComment {text : List Char} (oneLine : isOneLine text) {rest : List Char}
    (newline : ∀ c ∈ rest.head?, c = '\n') : (Piece.lineComment text).Fits rest := by
  obtain ⟨inside, opens⟩ := oneLine
  have read : Cut.run (· != '\n') (text ++ rest) = ⟨text, rest⟩ := by
    apply Cut.run_append
    · intro c member; simpa using inside c member
    · intro c member; simpa using newline c member
  refine fits_of_first '-' ('-' :: (text ++ rest)) (by simp [chars]) ?_
  have plain : Text.isBlank '-' = false := by decide
  have line : ∀ tail, text ++ rest ≠ '[' :: '[' :: tail := by
    intro tail same
    apply opens
    cases text with
    | nil =>
      have := newline '[' (by simpa using congrArg List.head? same)
      simp at this
    | cons c text =>
      cases text with
      | nil =>
        have := newline '[' (by simpa using congrArg (List.head? ·.tail) same)
        simp at this
      | cons d text => simp_all
  rw [first, if_neg (by simp [plain]), read]
  exact line

/-- A text that cannot continue a word or a number before it. -/
def Follows (rest : List Char) : Prop :=
  (∀ c ∈ rest.head?, isWordPart c = false) ∧ Cut.fraction rest = ⟨[], rest⟩

/-- What a word is made of. Its first character begins no other sort of piece. -/
structure IsWord (c : Char) (text : List Char) : Prop where
  notBlank : Text.isBlank c = false
  notQuote : isQuote c = false
  notDigit : c.isDigit = false
  start : isWordStart c = true
  parts : ∀ d ∈ text, isWordPart d = true

theorem IsWord.ne_hyphen {c : Char} {text : List Char} (word : IsWord c text) : c ≠ '-' := by
  intro same
  have start := word.start
  rw [same] at start
  exact absurd start (by decide)

theorem first_of_not_hyphen {c : Char} {text : List Char} (notBlank : Text.isBlank c = false)
    (notHyphen : c ≠ '-') : first c text = firstToken c text := by
  rw [first, if_neg (by simp [notBlank])]
  · intro _ hyphen; exact absurd hyphen notHyphen
  · intro _ hyphen; exact absurd hyphen notHyphen

theorem fits_ofWord {c : Char} {text rest : List Char} (word : IsWord c text)
    (outside : ∀ d ∈ rest.head?, isWordPart d = false) : (ofWord (c :: text)).Fits rest := by
  apply fits_of_first c (text ++ rest) rfl
  rw [first_of_not_hyphen word.notBlank word.ne_hyphen]
  simp [firstToken, word.notQuote, word.notDigit, word.start,
    Cut.run_append word.parts outside]

theorem isWordPart_of_isDigit {c : Char} (digit : c.isDigit = true) : isWordPart c = true := by
  have ⟨low, high⟩ := Char.isDigit_iff_toNat.mp digit
  have numeric : Text.isNumeric c = true := by
    rw [Text.isNumeric, Text.numericRanges, Text.inRanges]
    exact Bool.and_eq_true_iff.mpr ⟨decide_eq_true low, by simp [show c.toNat ≤ 0x39 from high]⟩
  simp [isWordPart, numeric]

/-- What a number is made of: digits, and perhaps a point and digits. -/
structure IsNumber (c : Char) (digits fraction : List Char) : Prop where
  notBlank : Text.isBlank c = false
  notQuote : isQuote c = false
  start : c.isDigit = true
  digits : ∀ d ∈ digits, d.isDigit = true
  fraction : fraction = [] ∨
    ∃ d more, fraction = '.' :: d :: more ∧ d.isDigit = true ∧ ∀ e ∈ more, e.isDigit = true

theorem IsNumber.decimal_append {c : Char} {digits fraction rest : List Char}
    (number : IsNumber c digits fraction) (follows : Follows rest) :
    Cut.decimal (digits ++ (fraction ++ rest)) = ⟨digits ++ fraction, rest⟩ := by
  have stop : ∀ d ∈ rest.head?, d.isDigit = false := by
    intro d member
    cases digit : d.isDigit with
    | false => rfl
    | true => exact absurd (isWordPart_of_isDigit digit) (by simp [follows.1 d member])
  rcases number.fraction with rfl | ⟨d, more, rfl, digit, inside⟩
  · simp [Cut.decimal, Cut.run_append number.digits stop, follows.2, Cut.behind]
  · have point : ∀ e ∈ ('.' :: d :: (more ++ rest)).head?, e.isDigit = false := by
      intro e member
      obtain rfl : '.' = e := by simpa using member
      decide
    simp [Cut.decimal, Cut.run_append number.digits point, Cut.fraction, digit,
      Cut.run_append inside stop, Cut.behind]

theorem fits_number {c : Char} {digits fraction rest : List Char}
    (number : IsNumber c digits fraction) (follows : Follows rest) :
    (token .number (c :: digits ++ fraction)).Fits rest := by
  have notHyphen : c ≠ '-' := by
    intro same
    have start := number.start
    rw [same] at start
    exact absurd start (by decide)
  apply fits_of_first c (digits ++ (fraction ++ rest)) (by simp [chars])
  rw [first_of_not_hyphen number.notBlank notHyphen]
  simp [firstToken, number.notQuote, number.start, number.decimal_append follows]

theorem fits_string {quote : Char} {text : List Char} (isQuote : isQuote quote = true)
    (quotable : isQuotable quote text = true) (rest : List Char) :
    (token .string (quote :: text ++ [quote])).Fits rest := by
  apply fits_of_first quote (text ++ quote :: rest) (by simp [chars])
  have either : quote = '"' ∨ quote = '\'' := by simpa [LuaTree.isQuote] using isQuote
  have notBlank : Text.isBlank quote = false := by rcases either with rfl | rfl <;> decide
  have notHyphen : quote ≠ '-' := by rcases either with rfl | rfl <;> decide
  rw [first_of_not_hyphen notBlank notHyphen]
  simp [firstToken, isQuote, Cut.quoted_append isQuote quotable]

theorem fits_symbol_space {kind : TokenKind} (symbol : kind ∈ TokenKind.symbols)
    (rest : List Char) : (token kind kind.spelling.toList).Fits (' ' :: rest) := by
  cases kind <;> first | exact fits_of_first _ _ rfl rfl | exact absurd symbol (by decide)

/-- The symbols that no longer symbol begins with and that begin no comment. -/
def solid : List TokenKind := [
  .lParen, .rParen, .lBrace, .rBrace, .lBracket, .rBracket, .semicolon, .colon, .comma, .ellipsis,
  .hash]

theorem fits_solid {kind : TokenKind} (symbol : kind ∈ solid) (rest : List Char) :
    (token kind kind.spelling.toList).Fits rest := by
  cases kind <;> first | exact fits_of_first _ _ rfl rfl | exact absurd symbol (by decide)

theorem fits_dot {rest : List Char} (single : ∀ c ∈ rest.head?, c ≠ '.') :
    (token .dot TokenKind.dot.spelling.toList).Fits rest := by
  cases rest with
  | nil => exact fits_of_first _ _ rfl rfl
  | cons c rest =>
    have other : ('.' == c) = false := beq_eq_false_iff_ne.mpr (single c rfl).symm
    have found : symbol? ('.' :: c :: rest) = some .dot := by
      simp [symbol?, TokenKind.symbols, TokenKind.spelling, List.find?, List.isPrefixOf, other]
    apply fits_of_first '.' (c :: rest) rfl
    rw [first_of_not_hyphen (by decide) (by decide), firstToken, found]
    rfl

theorem fits_minus {rest : List Char} (single : ∀ c ∈ rest.head?, c ≠ '-' ∧ c ≠ '=') :
    (token .minus TokenKind.minus.spelling.toList).Fits rest := by
  cases rest with
  | nil => exact fits_of_first _ _ rfl rfl
  | cons c rest =>
    have ⟨noComment, noSign⟩ := single c rfl
    have other : ('=' == c) = false := beq_eq_false_iff_ne.mpr noSign.symm
    have found : symbol? ('-' :: c :: rest) = some .minus := by
      simp [symbol?, TokenKind.symbols, TokenKind.spelling, List.find?, List.isPrefixOf, other]
    have token : first '-' (c :: rest) = firstToken '-' (c :: rest) := by
      rw [first, if_neg (by decide)]
      · intro tail _ same; exact noComment (List.cons.inj same).1
      · intro tail _ same; exact noComment (List.cons.inj same).1
    apply fits_of_first '-' (c :: rest) rfl
    rw [token, firstToken, found]
    rfl

/-- Keywords are words. -/
theorem keyword_isWord {kind : TokenKind} (keyword : kind ∈ TokenKind.keywords) :
    ∃ c text, kind.spelling.toList = c :: text ∧ IsWord c text ∧
      ofWord (c :: text) = token kind kind.spelling.toList := by
  cases kind <;> first
    | exact ⟨_, _, rfl, ⟨by decide, by decide, by decide, by decide,
        List.all_eq_true.mp (by decide)⟩, by decide⟩
    | exact absurd keyword (by decide)

theorem fits_keyword {kind : TokenKind} (keyword : kind ∈ TokenKind.keywords) {rest : List Char}
    (outside : ∀ d ∈ rest.head?, isWordPart d = false) :
    (token kind kind.spelling.toList).Fits rest := by
  obtain ⟨c, text, -, word, same⟩ := keyword_isWord keyword
  rw [← same]
  exact fits_ofWord word outside

/-- A string with its closing quote, or a block comment with its closing brackets; all other pieces
end by themselves. -/
def isTerminated : Piece → Bool
  | blockComment _ closed => closed
  | token .string (quote :: text) =>
    text.getLast? == some quote && isQuotable quote text.dropLast
  | _ => true

/-- The pieces that cutting finds, apart from those that are not terminated. -/
inductive Genuine : Piece → Prop
  | blank {c : Char} (blank : Text.isBlank c = true) : Genuine (.blank c)
  | lineComment {text : List Char} (oneLine : isOneLine text) : Genuine (.lineComment text)
  | blockComment {text : List Char} (enclosable : isEnclosable text) :
      Genuine (.blockComment text true)
  | identifier {c : Char} {text : List Char} (word : IsWord c text)
      (free : TokenKind.keyword? (String.ofList (c :: text)) = none) :
      Genuine (.token .identifier (c :: text))
  | keyword {kind : TokenKind} (keyword : kind ∈ TokenKind.keywords) :
      Genuine (.token kind kind.spelling.toList)
  | number {c : Char} {digits fraction : List Char} (number : IsNumber c digits fraction) :
      Genuine (.token .number (c :: digits ++ fraction))
  | string {quote : Char} {text : List Char} (isQuote : isQuote quote = true)
      (quotable : isQuotable quote text = true) :
      Genuine (.token .string (quote :: text ++ [quote]))
  | symbol {kind : TokenKind} (symbol : kind ∈ TokenKind.symbols) :
      Genuine (.token kind kind.spelling.toList)
  | unknown (c : Char) : Genuine (.token .unknown [c])

theorem enclosable_blockText {text : List Char} (closed : (blockText text).2.1 = true) :
    isEnclosable (blockText text).1 := by
  rw [isEnclosable]
  fun_induction blockText text with
  | case1 => simp at closed
  | case2 => simp [blockText]
  | case3 c rest open_ ih =>
    rw [List.cons_append, blockText, ih closed]
    intro tail bracket same
    have whole := blockText_append rest
    rw [if_pos closed, ← List.append_assoc, same] at whole
    exact open_ _ bracket whole.symm

theorem oneLine_run {text : List Char} (line : ∀ tail, text ≠ '[' :: '[' :: tail) :
    isOneLine (Cut.run (· != '\n') text).taken := by
  constructor
  · intro c member
    simpa using Cut.run_inside c member
  · rintro ⟨tail, same⟩
    have whole := Cut.run_divides (· != '\n') text
    rw [Cut.Divides, ← same] at whole
    exact line _ whole.symm

theorem number_decimal {c : Char} {text : List Char} (notBlank : Text.isBlank c = false)
    (notQuote : isQuote c = false) (digit : c.isDigit = true) :
    Genuine (.token .number (c :: (Cut.decimal text).taken)) := by
  have digits : ∀ d ∈ (Cut.run Char.isDigit text).taken, d.isDigit = true := Cut.run_inside
  suffices number : IsNumber c (Cut.run Char.isDigit text).taken
      (Cut.fraction (Cut.run Char.isDigit text).rest).taken from .number number
  refine ⟨notBlank, notQuote, digit, digits, ?_⟩
  fun_cases Cut.fraction (Cut.run Char.isDigit text).rest with
  | case1 d rest digit => exact .inr ⟨d, _, rfl, digit, Cut.run_inside⟩
  | case2 => exact .inl rfl
  | case3 => exact .inl rfl

theorem ofWord_of_free {word : List Char}
    (free : TokenKind.keyword? (String.ofList word) = none) :
    ofWord word = .token .identifier word := by
  simp only [ofWord, free, Option.getD_none]

theorem genuine_ofWord {c : Char} {text : List Char} (word : IsWord c text) :
    Genuine (ofWord (c :: text)) := by
  cases found : TokenKind.keyword? (String.ofList (c :: text)) with
  | none =>
    rw [ofWord_of_free found]
    exact .identifier word found
  | some kind =>
    have spelled : kind.spelling = String.ofList (c :: text) := by
      have fits := List.find?_some found
      exact beq_iff_eq.mp fits
    have same : ofWord (c :: text) = .token kind kind.spelling.toList := by
      rw [ofWord, found, spelled, String.toList_ofList, Option.getD_some]
    rw [same]
    exact .keyword (List.mem_of_find?_eq_some found)

theorem genuine_firstToken {c : Char} {text : List Char} (notBlank : Text.isBlank c = false)
    (terminated : (firstToken c text).1.isTerminated = true) :
    Genuine (firstToken c text).1 := by
  revert terminated
  unfold firstToken
  split
  · next quote =>
    intro terminated
    have ⟨last, quotable⟩ := Bool.and_eq_true_iff.mp terminated
    obtain ⟨inner, same⟩ := List.getLast?_eq_some_iff.mp (beq_iff_eq.mp last)
    rw [same, List.dropLast_concat] at quotable
    rw [same]
    exact .string quote quotable
  · next quote =>
    split
    · next digit => intro _; exact number_decimal notBlank (by simpa using quote) digit
    · next digit =>
      split
      · next start =>
        intro _
        exact genuine_ofWord
          ⟨notBlank, by simpa using quote, by simpa using digit, start, Cut.run_inside⟩
      · split
        · next kind found => intro _; exact .symbol (List.mem_of_find?_eq_some found)
        · intro _; exact .unknown c

theorem genuine_first {c : Char} {text : List Char}
    (terminated : (first c text).1.isTerminated = true) : Genuine (first c text).1 := by
  revert terminated
  unfold first
  split
  · next blank => intro _; exact .blank blank
  · next notBlank =>
    split
    · next rest =>
      intro closed
      change (blockText rest).2.1 = true at closed
      rw [closed]
      exact .blockComment (enclosable_blockText closed)
    · next rest line => intro _; exact .lineComment (oneLine_run line)
    · intro terminated; exact genuine_firstToken (by simpa using notBlank) terminated

/-- Every terminated piece of a text is genuine. -/
theorem genuine_of_mem_cut {piece : Piece} {text : List Char} (member : piece ∈ cut text)
    (terminated : piece.isTerminated = true) : Genuine piece := by
  fun_induction cut text with
  | case1 => simp at member
  | case2 c text ih =>
    rcases List.mem_cons.mp member with rfl | member
    · exact genuine_first terminated
    · exact ih member

theorem word_of_identifier {text : List Char} (genuine : Genuine (.token .identifier text)) :
    ∃ c rest, text = c :: rest ∧ IsWord c rest ∧ ofWord text = .token .identifier text := by
  cases genuine with
  | identifier word free => exact ⟨_, _, rfl, word, ofWord_of_free free⟩
  | keyword keyword => exact absurd keyword (by decide)
  | symbol symbol => exact absurd symbol (by decide)

theorem number_of_token {text : List Char} (genuine : Genuine (.token .number text)) :
    ∃ c digits fraction, text = c :: digits ++ fraction ∧ IsNumber c digits fraction := by
  cases genuine with
  | number number => exact ⟨_, _, _, rfl, number⟩
  | keyword keyword => exact absurd keyword (by decide)
  | symbol symbol => exact absurd symbol (by decide)

theorem quoted_of_string {text : List Char} (genuine : Genuine (.token .string text)) :
    ∃ quote inner, text = quote :: inner ++ [quote] ∧ isQuote quote = true ∧
      isQuotable quote inner = true := by
  cases genuine with
  | string isQuote quotable => exact ⟨_, _, rfl, isQuote, quotable⟩
  | keyword keyword => exact absurd keyword (by decide)
  | symbol symbol => exact absurd symbol (by decide)

/-- Keywords and symbols are written as they are spelled. -/
theorem spelling_of_token {kind : TokenKind} {text : List Char}
    (genuine : Genuine (.token kind text))
    (fixed : kind ∈ TokenKind.keywords ∨ kind ∈ TokenKind.symbols) :
    text = kind.spelling.toList := by
  cases genuine with
  | keyword keyword => rfl
  | symbol symbol => rfl
  | _ => exact absurd fixed (by decide)

theorem follows_nil : Follows [] :=
  ⟨by simp, rfl⟩

theorem cut_number {text : List Char} (genuine : Genuine (.token .number text)) :
    cut text = [.token .number text] := by
  obtain ⟨c, digits, fraction, rfl, number⟩ := number_of_token genuine
  have fits := fits_number number follows_nil
  rwa [Fits, chars, cut, List.append_nil] at fits

theorem not_genuine_eof (text : List Char) : ¬ Genuine (.token .eof text) := by
  intro genuine
  cases genuine with
  | keyword keyword => exact absurd keyword (by decide)
  | symbol symbol => exact absurd symbol (by decide)

end Piece

end LuaTree
