import LuaTree.Proofs.Endings
import LuaTree.Proofs.Slices
import Mathlib.Data.List.Find

/-!
# Text behind a token

A text can be cut behind a token and go on with something else: what stands
before the cut has the same pieces as before, provided that the last token does
not run into what follows (`cut_append`). A semicolon and a line feed run into
nothing but strings and comments without an end.

The rules of the grammar that look behind a statement are then seen to hold for
texts: nothing may follow a statement behind which its block must end.
-/

namespace LuaTree

/-- A character that goes on with no token and begins no comment. -/
structure IsDivider (c : Char) : Prop where
  word : isWordPart c = false
  hyphen : c ≠ '-'
  symbol : ∀ kind ∈ TokenKind.symbols, c ∉ kind.spelling.toList.tail

theorem isDivider_semicolon : IsDivider ';' := ⟨by decide, by decide, by decide⟩

theorem isDivider_newline : IsDivider '\n' := ⟨by decide, by decide, by decide⟩

namespace IsDivider

variable {c : Char} (divider : IsDivider c)

include divider

theorem not_digit : c.isDigit = false := by
  cases digit : c.isDigit with
  | false => rfl
  | true => exact absurd (Piece.isWordPart_of_isDigit digit) (by simp [divider.word])

theorem ne_point : c ≠ '.' := by
  rintro rfl
  exact divider.symbol .dotDot (by decide) (by decide)

/-- A hyphen in front stands before the divider. -/
theorem exists_of_append {front back body : List Char} (same : front ++ c :: back = '-' :: body) :
    ∃ body, front = '-' :: body := by
  cases front with
  | nil => exact absurd (List.cons.inj same).1 divider.hyphen
  | cons d front => exact ⟨front, by rw [(List.cons.inj same).1]⟩

end IsDivider

namespace Cut

variable {taken rest more : List Char} {d : Char}

theorem run_extend {p : Char → Bool} (outside : p d = false)
    (divided : run p (taken ++ rest) = ⟨taken, rest⟩) (more : List Char) :
    run p (taken ++ (rest ++ d :: more)) = ⟨taken, rest ++ d :: more⟩ := by
  have inside : ∀ c ∈ (run p (taken ++ rest)).taken, p c = true := run_inside
  have stop : ∀ c ∈ (run p (taken ++ rest)).rest.head?, p c = false := run_outside
  rw [divided] at inside stop
  refine run_append inside fun c member => ?_
  cases rest with
  | nil =>
    obtain rfl := Option.some.inj member
    exact outside
  | cons e rest => exact stop c member

variable (divider : IsDivider d)

include divider

theorem fraction_extend (divided : fraction (taken ++ rest) = ⟨taken, rest⟩) :
    fraction (taken ++ (rest ++ d :: more)) = ⟨taken, rest ++ d :: more⟩ := by
  generalize whole : taken ++ rest = text at divided
  fun_cases fraction text with
  | case1 e text digit =>
    rw [fraction, if_pos digit] at divided
    obtain ⟨rfl, left⟩ := Cut.mk.inj divided
    have inner : (run Char.isDigit text).taken ++ rest = text := by simpa using whole
    have digits : run Char.isDigit ((run Char.isDigit text).taken ++ rest) =
        ⟨(run Char.isDigit text).taken, rest⟩ := by
      rw [inner, ← left]
    change fraction ('.' :: e :: ((run Char.isDigit text).taken ++ (rest ++ d :: more))) = _
    rw [fraction, if_pos digit, run_extend divider.not_digit digits more]
    rfl
  | case2 e text other =>
    rw [fraction, if_neg other] at divided
    obtain ⟨rfl, rfl⟩ := Cut.mk.inj divided
    change fraction ('.' :: e :: (text ++ d :: more)) = _
    rw [fraction, if_neg other]
    rfl
  | case3 text noFraction =>
    rw [fraction] at divided
    · obtain ⟨rfl, rfl⟩ := Cut.mk.inj divided
      apply fraction_of_not_digit
      intro e after same
      rw [List.nil_append] at same
      obtain _ | ⟨point, _ | ⟨f, text⟩⟩ := text
      · exact absurd (List.cons.inj same).1 divider.ne_point
      · obtain rfl : d = e := (List.cons.inj (List.cons.inj same).2).1
        exact divider.not_digit
      · obtain rfl : point = '.' := (List.cons.inj same).1
        exact absurd rfl (noFraction f text)
    · exact noFraction

theorem decimal_extend (divided : decimal (taken ++ rest) = ⟨taken, rest⟩) :
    decimal (taken ++ (rest ++ d :: more)) = ⟨taken, rest ++ d :: more⟩ := by
  generalize whole : taken ++ rest = text at divided
  obtain ⟨rfl, left⟩ := Cut.mk.inj divided
  have point := fraction_divides (run Char.isDigit text).rest
  rw [Divides, left] at point
  have fractionLong :
      fraction ((fraction (run Char.isDigit text).rest).taken ++ (rest ++ d :: more)) =
        ⟨(fraction (run Char.isDigit text).rest).taken, rest ++ d :: more⟩ := by
    apply fraction_extend divider
    rw [point, ← left]
  have digits : run Char.isDigit ((run Char.isDigit text).taken ++
      ((fraction (run Char.isDigit text).rest).taken ++ rest)) =
        ⟨(run Char.isDigit text).taken, (fraction (run Char.isDigit text).rest).taken ++ rest⟩ := by
    rw [point, run_divides]
  have digitsLong := run_extend divider.not_digit digits more
  rw [List.append_assoc] at digitsLong
  rw [decimal, List.append_assoc, digitsLong, fractionLong]
  rfl

end Cut

namespace Piece

variable {d : Char} {more : List Char}

theorem symbol?_extend (divider : IsDivider d) (c : Char) (text : List Char) :
    symbol? (c :: (text ++ d :: more)) = symbol? (c :: text) := by
  refine List.find?_congr fun kind symbol => ?_
  rw [Bool.eq_iff_iff, List.isPrefixOf_iff_prefix, List.isPrefixOf_iff_prefix,
    ← List.cons_append]
  refine ⟨fun long => ?_, fun short => short.trans (List.prefix_append _ _)⟩
  -- a spelling that reaches beyond the text would hold the divider behind its first character
  obtain short | beyond := Nat.lt_or_ge (c :: text).length kind.spelling.toList.length
  · have front : (c :: text) ++ [d] <+: kind.spelling.toList := by
      refine List.prefix_of_prefix_length_le ?_ long (by simpa [Nat.succ_le_iff] using short)
      exact (List.prefix_append_right_inj _).mpr ⟨more, rfl⟩
    obtain ⟨after, spelling⟩ := front
    exact absurd (by rw [← spelling]; simp) (divider.symbol kind symbol)
  · exact List.prefix_of_prefix_length_le long (List.prefix_append _ _) beyond

/-- Whether the text ends in a backslash that has nothing to escape. -/
def endsInEscape : List Char → Bool
  | [] => false
  | ['\\'] => true
  | '\\' :: _ :: text => endsInEscape text
  | _ :: text => endsInEscape text

theorem endsInEscape_cons {c : Char} (plain : c ≠ '\\') (text : List Char) :
    endsInEscape (c :: text) = endsInEscape text := by
  rw [endsInEscape]
  · exact fun same => absurd same plain
  · exact fun d rest same => absurd same plain

theorem isQuotable_cons {quote c : Char} (plain : c ≠ '\\') (text : List Char) :
    isQuotable quote (c :: text) = (c != quote && isQuotable quote text) := by
  conv_lhs => unfold isQuotable
  rw [if_neg plain]

/-- What is quoted ends with the closing quote, or it is open and ends with the text. A quote behind
an open text closes it unless it is escaped there. -/
theorem quoted_cases (quote : Char) (text : List Char) :
    (∃ inner, (Cut.quoted quote text).taken = inner ++ [quote] ∧ isQuotable quote inner = true) ∨
      (Cut.quoted quote text).rest = [] ∧
        (isQuotable quote (Cut.quoted quote text).taken =
          !endsInEscape (Cut.quoted quote text).taken) ∧
        beforeQuote quote false (Cut.quoted quote text).taken = (Cut.quoted quote text).taken := by
  fun_induction Cut.quoted quote text with
  | case1 => exact .inr ⟨rfl, rfl, rfl⟩
  | case2 => exact .inr ⟨rfl, rfl, rfl⟩
  | case3 c text ih =>
    rcases ih with ⟨inner, taken, quotable⟩ | ⟨stop, closes, contents⟩
    · refine .inl ⟨'\\' :: c :: inner, ?_, ?_⟩
      · rw [Cut.behind, taken]
        rfl
      · rwa [isQuotable, if_pos rfl]
    · refine .inr ⟨stop, ?_, ?_⟩
      · exact closes
      · simp [Cut.behind, beforeQuote, contents]
  | case4 text => exact .inl ⟨[], rfl, rfl⟩
  | case5 c text noEnd noEscape other ih =>
    have plain := ne_backslash noEnd noEscape
    rcases ih with ⟨inner, taken, quotable⟩ | ⟨stop, closes, contents⟩
    · refine .inl ⟨c :: inner, ?_, ?_⟩
      · rw [Cut.behind, taken]
        rfl
      · rw [isQuotable_cons plain, quotable, Bool.and_true]
        exact bne_iff_ne.mpr other
    · refine .inr ⟨stop, ?_, ?_⟩
      · rw [Cut.behind, List.singleton_append, isQuotable_cons plain, endsInEscape_cons plain,
          bne_iff_ne.mpr other, Bool.true_and, closes]
      · simp [Cut.behind, beforeQuote, contents, plain, other]

theorem isTerminated_ofWord (word : List Char) : (ofWord word).isTerminated = true := by
  have kinds : ∀ kind ∈ TokenKind.keywords, (token kind word).isTerminated = true := by
    intro kind keyword
    cases kind
    case string => exact absurd keyword (by decide)
    all_goals rfl
  rw [ofWord]
  cases found : TokenKind.keyword? (String.ofList word) with
  | none => rfl
  | some kind => exact kinds kind (List.mem_of_find?_eq_some found)

/-- Only strings may lack their end. -/
theorem isTerminated_firstToken_of_not_quote {c : Char} (plain : isQuote c = false)
    (text : List Char) : (firstToken c text).1.isTerminated = true := by
  unfold firstToken
  rw [if_neg (by simp [plain])]
  split
  · rfl
  split
  · exact isTerminated_ofWord _
  split
  · next kind found =>
    have symbol := List.mem_of_find?_eq_some found
    have spelled : ∀ kind ∈ TokenKind.symbols,
        (token kind kind.spelling.toList).isTerminated = true := by decide
    exact spelled kind symbol
  · rfl

theorem isTerminated_firstToken {c : Char} {text : List Char} (more : (firstToken c text).2 ≠ []) :
    (firstToken c text).1.isTerminated = true := by
  cases quote : isQuote c with
  | false => exact isTerminated_firstToken_of_not_quote quote text
  | true =>
    unfold firstToken at more ⊢
    rw [if_pos quote] at more ⊢
    obtain ⟨inner, taken, quotable⟩ := (quoted_cases c text).resolve_right fun open' =>
      more open'.1
    simp [taken, isTerminated, quotable]

/-- Only the last piece of a text may lack its end. -/
theorem Fits.isTerminated {piece : Piece} {rest : List Char} (fits : piece.Fits rest)
    (more : rest ≠ []) : piece.isTerminated = true := by
  obtain ⟨c, text, -, found⟩ := fits.exists_first
  unfold first at found
  split at found
  · obtain ⟨rfl, -⟩ := Prod.mk.inj found
    rfl
  split at found
  · next body _ =>
    obtain ⟨rfl, rfl⟩ := Prod.mk.inj found
    change (blockText body).2.1 = true
    by_contra unclosed
    exact more (blockText_rest (Bool.eq_false_iff.mpr unclosed))
  · obtain ⟨rfl, -⟩ := Prod.mk.inj found
    rfl
  · have behind : (firstToken c text).2 ≠ [] := by rwa [found]
    have front := isTerminated_firstToken behind
    rwa [found] at front

theorem firstToken_extend (divider : IsDivider d) {c : Char} {tail rest : List Char} {piece : Piece}
    (chars : piece.chars = c :: tail) (terminated : piece.isTerminated = true)
    (found : firstToken c (tail ++ rest) = (piece, rest)) :
    firstToken c (tail ++ (rest ++ d :: more)) = (piece, rest ++ d :: more) := by
  unfold firstToken at found ⊢
  split at found
  · next quote =>
    obtain ⟨rfl, left⟩ := Prod.mk.inj found
    have taken : (Cut.quoted c (tail ++ rest)).taken = tail := (List.cons.inj chars).2
    rw [taken] at terminated ⊢
    have ⟨last, quotable⟩ := Bool.and_eq_true_iff.mp terminated
    obtain ⟨inner, same⟩ := List.getLast?_eq_some_iff.mp (beq_iff_eq.mp last)
    rw [same, List.dropLast_concat] at quotable
    rw [if_pos quote, same, List.append_assoc, List.singleton_append,
      Cut.quoted_append quote quotable]
  split at found
  · next notQuote digit =>
    obtain ⟨rfl, left⟩ := Prod.mk.inj found
    have taken : (Cut.decimal (tail ++ rest)).taken = tail := (List.cons.inj chars).2
    rw [if_neg notQuote, if_pos digit,
      Cut.decimal_extend divider (congrArg₂ Cut.mk taken left), taken]
  split at found
  · next notQuote notDigit word =>
    obtain ⟨rfl, left⟩ := Prod.mk.inj found
    have taken : (Cut.run isWordPart (tail ++ rest)).taken = tail := (List.cons.inj chars).2
    rw [if_neg notQuote, if_neg notDigit, if_pos word,
      Cut.run_extend divider.word (congrArg₂ Cut.mk taken left), taken]
  next notQuote notDigit notWord =>
  rw [if_neg notQuote, if_neg notDigit, if_neg notWord, ← List.append_assoc,
    symbol?_extend divider]
  split at found
  · next kind symbol =>
    obtain ⟨rfl, left⟩ := Prod.mk.inj found
    have spelling : kind.spelling.toList = c :: tail := chars
    rw [List.append_assoc, ← List.cons_append, ← spelling, List.drop_left]
  · obtain ⟨rfl, left⟩ := Prod.mk.inj found
    obtain rfl := (List.cons.inj chars).2
    rfl

theorem Fits.extend (divider : IsDivider d) {piece : Piece} {rest : List Char}
    (fits : piece.Fits rest) (terminated : piece.isTerminated = true)
    (line : rest = [] → ∀ text, piece ≠ .lineComment text) : piece.Fits (rest ++ d :: more) := by
  obtain ⟨c, text, whole, found⟩ := fits.exists_first
  unfold first at found
  split at found
  · next blank =>
    obtain ⟨rfl, -⟩ := Prod.mk.inj found
    exact fits_blank blank _
  next notBlank =>
  split at found
  · next body =>
    obtain ⟨rfl, left⟩ := Prod.mk.inj found
    have closed : (blockText body).2.1 = true := terminated
    rw [closed]
    exact fits_blockComment (enclosable_blockText closed) _
  · next body noBlock =>
    obtain ⟨rfl, left⟩ := Prod.mk.inj found
    apply fits_lineComment (oneLine_run noBlock)
    have outside : ∀ d ∈ (Cut.run (· != '\n') body).rest.head?, (d != '\n') = false :=
      Cut.run_outside
    rw [left] at outside
    cases rest with
    | nil => exact absurd rfl (line rfl _)
    | cons e rest => exact fun e member => by simpa using outside e member
  · next noBlock noLine =>
    have some : piece.chars ≠ [] := by
      rw [← (Prod.mk.inj found).1]
      exact firstToken_chars_ne_nil c text
    obtain ⟨e, tail, chars⟩ := List.exists_cons_of_ne_nil some
    rw [chars, List.cons_append] at whole
    obtain ⟨rfl, rfl⟩ := List.cons.inj whole
    have noComment {body : List Char} (hyphen : e = '-')
        (same : tail ++ (rest ++ d :: more) = '-' :: body) : False := by
      rw [← List.append_assoc] at same
      obtain ⟨body, same⟩ := divider.exists_of_append same
      exact noLine body hyphen same
    apply fits_of_first e (tail ++ (rest ++ d :: more)) (by rw [chars]; rfl)
    rw [first, if_neg notBlank]
    · exact firstToken_extend divider chars terminated found
    · exact fun body hyphen same => noComment hyphen same
    · exact fun body hyphen same => noComment hyphen same

theorem Fits.chars_ne_nil {piece : Piece} {rest : List Char} (fits : piece.Fits rest) :
    piece.chars ≠ [] := by
  obtain ⟨c, text, -, found⟩ := fits.exists_first
  have some := first_chars_ne_nil c text
  rwa [found] at some

/-- A quote begins a string. -/
theorem first_of_quote {c : Char} (quote : isQuote c = true) (text : List Char) :
    (first c text).1 = .token .string (c :: (Cut.quoted c text).taken) := by
  have either : c = '"' ∨ c = '\'' := by simpa [isQuote] using quote
  have notBlank : Text.isBlank c = false := by rcases either with rfl | rfl <;> decide
  have notHyphen : c ≠ '-' := by rcases either with rfl | rfl <;> decide
  rw [first_of_not_hyphen notBlank notHyphen, firstToken, if_pos quote]

/-- A token without its end is a string. -/
theorem quote_of_not_isTerminated {c : Char} {text lexeme rest : List Char} {kind : TokenKind}
    (found : first c text = (token kind lexeme, rest))
    (unterminated : (token kind lexeme).isTerminated = false) : isQuote c = true := by
  unfold first at found
  split at found
  · cases found
  split at found
  · cases found
  · cases found
  · by_contra plain
    have closed := isTerminated_firstToken_of_not_quote (Bool.eq_false_iff.mpr plain) text
    rw [found, unterminated] at closed
    cases closed

/-- Whatever stands behind a divider, a token before it is of its kind. -/
theorem Fits.exists_extend (divider : IsDivider d) (more : List Char) {kind : TokenKind}
    {lexeme rest : List Char} (fits : (token kind lexeme).Fits rest) : ∃ lexeme' back,
      cut ((token kind lexeme).chars ++ (rest ++ d :: more)) = token kind lexeme' :: back := by
  cases terminated : (token kind lexeme).isTerminated with
  | true => exact ⟨lexeme, _, fits.extend divider terminated fun _ _ => nofun⟩
  | false =>
    obtain ⟨c, text, whole, found⟩ := fits.exists_first
    have quote := quote_of_not_isTerminated found terminated
    have first := first_of_quote quote text
    rw [found] at first
    rw [← List.append_assoc, whole, List.cons_append, cut_cons, first_of_quote quote]
    obtain ⟨rfl, -⟩ := Piece.token.inj first
    exact ⟨_, _, rfl⟩

/-- Pieces before a divider: unless something stood before it, the last of them is closed. -/
theorem Apart.extend (divider : IsDivider d) {pieces : List Piece} {rest : List Char}
    (apart : Apart pieces rest)
    (closed : rest = [] → ∀ piece ∈ pieces.getLast?, piece.isToken = true ∧
      piece.isTerminated = true) : Apart pieces (rest ++ d :: more) := by
  induction pieces with
  | nil => trivial
  | cons piece pieces ih =>
    obtain ⟨fits, apart⟩ := apart
    have ends : textOf pieces ++ rest = [] → piece.isToken = true ∧ piece.isTerminated = true := by
      intro nothing
      obtain ⟨none, rfl⟩ := List.append_eq_nil_iff.mp nothing
      cases pieces with
      | nil => exact closed rfl piece rfl
      | cons other pieces => exact absurd (List.append_eq_nil_iff.mp none).1 apart.1.chars_ne_nil
    have terminated : piece.isTerminated = true := by
      by_cases nothing : textOf pieces ++ rest = []
      · exact (ends nothing).2
      · exact fits.isTerminated nothing
    refine ⟨?_, ih apart fun none last member => closed none last ?_⟩
    · rw [← List.append_assoc]
      refine fits.extend divider terminated fun nothing text same => ?_
      have token := (ends nothing).1
      rw [same] at token
      cases token
    · obtain ⟨others, rfl⟩ := List.getLast?_eq_some_iff.mp member
      rw [← List.cons_append, List.getLast?_concat]
      rfl

section Cut

variable {text : List Char} {front back : List Piece}

/-- A text that goes on in another way behind a closed token has the same pieces up to it. -/
theorem cut_append (divider : IsDivider d) {piece : Piece}
    (split : cut text = front ++ piece :: back) (token : piece.isToken = true)
    (terminated : piece.isTerminated = true) :
    cut (textOf (front ++ [piece]) ++ d :: more) = front ++ piece :: cut (d :: more) := by
  have apart := apart_cut text
  rw [split, List.append_cons, apart_append] at apart
  have alone : Apart (front ++ [piece]) [] := by
    have before : Apart (front ++ [piece]) ([] ++ textOf back) := by simpa using apart.1
    exact before.of_append
  have longer : Apart (front ++ [piece]) ([] ++ d :: more) := by
    refine alone.extend divider fun _ last member => ?_
    rw [List.getLast?_concat] at member
    obtain rfl := Option.some.inj member
    exact ⟨token, terminated⟩
  rw [List.nil_append] at longer
  rw [cut_of_apart longer, List.append_assoc]
  rfl

/-- A token of a text that goes on behind a divider begins where it did, and is of its kind. -/
theorem exists_cut_append (divider : IsDivider d) {kind : TokenKind} {lexeme : List Char}
    (split : cut text = front ++ .token kind lexeme :: back) (more : List Char) : ∃ lexeme' back',
      cut (text ++ d :: more) = front ++ .token kind lexeme' :: back' := by
  have apart := apart_cut text
  have whole : text = textOf front ++ textOf (.token kind lexeme :: back) := by
    rw [← textOf_cut text, split, textOf_append]
  rw [split, apart_append, List.append_nil] at apart
  obtain ⟨before, fits, -⟩ := apart
  rw [List.append_nil] at fits
  have some : textOf (.token kind lexeme :: back) ≠ [] := fun none =>
    fits.chars_ne_nil (List.append_eq_nil_iff.mp none).1
  have longer : Apart front (textOf (.token kind lexeme :: back) ++ d :: more) :=
    before.extend divider fun none => absurd none some
  rw [whole, List.append_assoc, cut_of_apart longer]
  obtain ⟨lexeme', back', found⟩ := fits.exists_extend divider more
  exact ⟨lexeme', back', by rw [textOf_cons, List.append_assoc, found]⟩

end Cut

theorem located_append (place : Place) (pieces more : List Piece) :
    located place (pieces ++ more) =
      located place pieces ++ located (place.after (textOf pieces)) more := by
  induction pieces generalizing place with
  | nil => rfl
  | cons piece pieces ih =>
    rw [List.cons_append, located, ih, textOf_cons, Place.after_append]
    rfl

theorem filterMap_token?_eq_nil_iff {place : Place} {pieces : List Piece} :
    (located place pieces).filterMap token? = [] ↔ ∀ piece ∈ pieces, piece.isToken = false := by
  induction pieces generalizing place with
  | nil => simp [located]
  | cons piece pieces ih =>
    rw [List.forall_mem_cons, located]
    cases piece with
    | token => simp [token?, isToken]
    | blank | lineComment | blockComment => exact ih.trans (and_iff_right rfl).symm

/-- The piece of a token, and the tokens before it. -/
theorem exists_token_piece {place : Place} {pieces : List Piece} {own others : List Token}
    {t : Token} (tokens : (located place pieces).filterMap token? = own ++ t :: others) :
    ∃ front lexeme back, pieces = front ++ .token t.kind lexeme :: back ∧
      (located place front).filterMap token? = own ∧ t.lexeme = String.ofList lexeme ∧
      t.span =
        .between (place.after (textOf front)) ((place.after (textOf front)).after lexeme) := by
  induction pieces generalizing place own with
  | nil => simp [located] at tokens
  | cons piece pieces ih =>
    cases piece with
    | token kind lexeme =>
      cases own with
      | nil =>
        obtain ⟨rfl, -⟩ := List.cons.inj tokens
        exact ⟨[], lexeme, pieces, rfl, rfl, rfl, rfl⟩
      | cons first own =>
        obtain ⟨rfl, later⟩ := List.cons.inj tokens
        obtain ⟨front, lexeme', back, rfl, rfl, same, span⟩ := ih later
        refine ⟨.token kind lexeme :: front, lexeme', back, rfl, rfl, same, ?_⟩
        rw [textOf_cons, Place.after_append]
        exact span
    | blank | lineComment | blockComment =>
      obtain ⟨front, lexeme', back, rfl, rfl, same, span⟩ := ih tokens
      refine ⟨_ :: front, lexeme', back, rfl, rfl, same, ?_⟩
      rw [textOf_cons, Place.after_append]
      exact span

end Piece

theorem Cursor.rest_facing (last : Span) (place : Place) (pieces : List Piece) :
    (facing last place pieces).rest = (Piece.located place pieces).filterMap Piece.token? := by
  induction pieces generalizing place with
  | nil => rfl
  | cons piece pieces ih =>
    cases piece with
    | token => exact congrArg _ (ih _)
    | blank | lineComment | blockComment => exact ih _

theorem Cursor.rest_ofSource (source : String) : (ofSource source).rest =
    (Piece.located .start (Piece.cut source.toList)).filterMap Piece.token? := by
  obtain ⟨last, rest⟩ := exists_rest_ofSource source
  rw [rest, rest_facing]

/-- A text with another one put in at a byte offset. -/
def insertAt (source : String) (offset : Nat) (text : String) : String :=
  String.Pos.Raw.extract source 0 ⟨offset⟩ ++ text ++
    String.Pos.Raw.extract source ⟨offset⟩ ⟨source.utf8ByteSize⟩

theorem toList_insertAt {source : String} {before after : List Char} (text : String)
    (split : source.toList = before ++ after) :
    (insertAt source (String.utf8Len before) text).toList = before ++ text.toList ++ after := by
  rw [insertAt, String.toList_append, String.toList_append, toList_extract_before split,
    toList_extract_behind split]

end LuaTree
