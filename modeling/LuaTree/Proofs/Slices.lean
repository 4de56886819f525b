import LuaTree.Proofs.Excerpts
import LuaTree.Proofs.LineBreaks
import LuaTree.Proofs.Nesting
import LuaTree.Proofs.Written

/-!
# The text of a node alone

The text in the span of a node is cut into the same pieces as it is in the whole
text: a piece ends where it did when less stands behind it (`Fits.of_append`).
Its tokens then stand as they did, but for the lines and columns on which the
text begins, and are read as the same tree (`rereads_of_span`).
-/

namespace LuaTree

namespace Cut

/-- A text is divided at the same place when it ends earlier behind it. -/
def IsStable (divide : List Char → Cut) : Prop :=
  ∀ taken rest more, divide (taken ++ (rest ++ more)) = ⟨taken, rest ++ more⟩ →
    divide (taken ++ rest) = ⟨taken, rest⟩

theorem IsStable.of_parts {divide : List Char → Cut} (stable : IsStable divide)
    {taken rest more : List Char} (front : (divide (taken ++ (rest ++ more))).taken = taken)
    (left : (divide (taken ++ (rest ++ more))).rest = rest ++ more) :
    divide (taken ++ rest) = ⟨taken, rest⟩ :=
  stable taken rest more (congrArg₂ Cut.mk front left)

theorem isStable_run (p : Char → Bool) : IsStable (run p) := by
  intro taken rest more divided
  have inside : ∀ c ∈ (run p (taken ++ (rest ++ more))).taken, p c = true := run_inside
  have outside : ∀ c ∈ (run p (taken ++ (rest ++ more))).rest.head?, p c = false := run_outside
  rw [divided] at inside outside
  apply run_append inside
  intro c member
  exact outside c (List.mem_head?_append_of_mem_head? member)

theorem isStable_quoted (quote : Char) : IsStable (quoted quote) := by
  intro taken rest more divided
  generalize whole : taken ++ (rest ++ more) = text at divided
  fun_induction quoted quote text generalizing taken with
  | case1 | case2 =>
    obtain ⟨rfl, none⟩ := Cut.mk.inj divided
    obtain ⟨rfl, rfl⟩ := List.append_eq_nil_iff.mp none.symm
    rfl
  | case3 c text ih =>
    obtain ⟨rfl, left⟩ := Cut.mk.inj divided
    have inner := ih (quoted quote text).taken (List.cons.inj (List.cons.inj whole).2).2
      (by rw [← left])
    change quoted quote ('\\' :: c :: ((quoted quote text).taken ++ rest)) = _
    rw [quoted, inner]
    rfl
  | case4 text noEnd noEscape =>
    obtain ⟨rfl, left⟩ := Cut.mk.inj divided
    have plain := ne_backslash noEnd noEscape
    rw [List.singleton_append, quoted_cons plain, if_pos rfl]
  | case5 c text noEnd noEscape other ih =>
    obtain ⟨rfl, left⟩ := Cut.mk.inj divided
    have inner := ih (quoted quote text).taken (List.cons.inj whole).2 (by rw [← left])
    have plain := ne_backslash noEnd noEscape
    change quoted quote (c :: ((quoted quote text).taken ++ rest)) = _
    rw [quoted_cons plain, if_neg other, inner]
    rfl

theorem fraction_of_not_digit {text : List Char}
    (noDigit : ∀ d rest, text = '.' :: d :: rest → d.isDigit = false) :
    fraction text = ⟨[], text⟩ := by
  fun_cases fraction text with
  | case1 d rest digit => simp [noDigit d rest rfl] at digit
  | case2 => rfl
  | case3 => rfl

theorem isStable_fraction : IsStable fraction := by
  intro taken rest more divided
  generalize whole : taken ++ (rest ++ more) = text at divided
  fun_cases fraction text with
  | case1 d text digit =>
    rw [fraction, if_pos digit] at divided
    obtain ⟨rfl, left⟩ := Cut.mk.inj divided
    have inner : (run Char.isDigit text).taken ++ (rest ++ more) = text := by simpa using whole
    have shorter := isStable_run Char.isDigit (run Char.isDigit text).taken rest more
      (by rw [inner, ← left])
    change fraction ('.' :: d :: ((run Char.isDigit text).taken ++ rest)) = _
    rw [fraction, if_pos digit, shorter]
    rfl
  | case2 d text other =>
    rw [fraction, if_neg other] at divided
    obtain ⟨rfl, left⟩ := Cut.mk.inj divided
    apply fraction_of_not_digit
    rintro d' rest' rfl
    obtain rfl : d = d' := (List.cons.inj (List.cons.inj left).2).1
    simpa using other
  | case3 text noFraction =>
    rw [fraction] at divided
    · obtain ⟨rfl, left⟩ := Cut.mk.inj divided
      apply fraction_of_not_digit
      rintro d rest rfl
      exact absurd left (noFraction d _)
    · exact noFraction

theorem isStable_decimal : IsStable decimal := by
  intro taken rest more divided
  generalize whole : taken ++ (rest ++ more) = text at divided
  obtain ⟨rfl, left⟩ := Cut.mk.inj divided
  -- the digits end before the fraction, and the fraction before the rest
  have point := fraction_divides (run Char.isDigit text).rest
  rw [Divides, left] at point
  have fractionShort : fraction ((fraction (run Char.isDigit text).rest).taken ++ rest) =
      ⟨(fraction (run Char.isDigit text).rest).taken, rest⟩ := by
    apply isStable_fraction _ rest more
    rw [point, ← left]
  have digitsShort := isStable_run Char.isDigit (run Char.isDigit text).taken
    ((fraction (run Char.isDigit text).rest).taken ++ rest) more (by
      rw [List.append_assoc, point, run_divides])
  rw [decimal, List.append_assoc, digitsShort, fractionShort]
  rfl

end Cut

namespace Piece

theorem symbol?_of_append {text more : List Char} {kind : TokenKind}
    (found : symbol? (text ++ more) = some kind) (fits : kind.spelling.toList <+: text) :
    symbol? text = some kind := by
  unfold symbol? at found ⊢
  rw [List.find?_eq_some_iff_append] at found ⊢
  obtain ⟨-, before, after, split, longer⟩ := found
  refine ⟨List.isPrefixOf_iff_prefix.mpr fits, before, after, split, fun other member => ?_⟩
  have misfit := longer other member
  simp only [Bool.not_eq_true', Bool.eq_false_iff, ne_eq, List.isPrefixOf_iff_prefix] at misfit ⊢
  exact fun short => misfit (short.trans (List.prefix_append text more))

theorem symbol?_eq_none_of_append {text more : List Char}
    (unknown : symbol? (text ++ more) = none) : symbol? text = none := by
  unfold symbol? at unknown ⊢
  rw [List.find?_eq_none] at unknown ⊢
  intro kind member short
  have fits := (List.isPrefixOf_iff_prefix.mp short).trans (List.prefix_append text more)
  exact unknown kind member (List.isPrefixOf_iff_prefix.mpr fits)

theorem firstToken_of_append {c : Char} {tail rest more : List Char} {piece : Piece}
    (chars : piece.chars = c :: tail)
    (found : firstToken c (tail ++ (rest ++ more)) = (piece, rest ++ more)) :
    firstToken c (tail ++ rest) = (piece, rest) := by
  unfold firstToken at found ⊢
  split at found
  · next quote =>
    obtain ⟨rfl, left⟩ := Prod.mk.inj found
    have taken : (Cut.quoted c (tail ++ (rest ++ more))).taken = tail := (List.cons.inj chars).2
    rw [if_pos quote, (Cut.isStable_quoted c).of_parts taken left, taken]
  split at found
  · next notQuote digit =>
    obtain ⟨rfl, left⟩ := Prod.mk.inj found
    have taken : (Cut.decimal (tail ++ (rest ++ more))).taken = tail := (List.cons.inj chars).2
    rw [if_neg notQuote, if_pos digit, Cut.isStable_decimal.of_parts taken left, taken]
  split at found
  · next notQuote notDigit word =>
    obtain ⟨rfl, left⟩ := Prod.mk.inj found
    have taken : (Cut.run isWordPart (tail ++ (rest ++ more))).taken = tail :=
      (List.cons.inj chars).2
    rw [if_neg notQuote, if_neg notDigit, if_pos word,
      (Cut.isStable_run isWordPart).of_parts taken left, taken]
  next notQuote notDigit notWord =>
  rw [if_neg notQuote, if_neg notDigit, if_neg notWord]
  have longer : c :: (tail ++ (rest ++ more)) = c :: (tail ++ rest) ++ more := by simp
  split at found
  · next kind symbol =>
    -- longer symbols are tried first, and one that did not fit still does not
    obtain ⟨rfl, left⟩ := Prod.mk.inj found
    rw [longer] at symbol
    have spelling : kind.spelling.toList ++ rest = c :: (tail ++ rest) := by
      rw [show kind.spelling.toList = c :: tail from chars]
      rfl
    rw [symbol?_of_append symbol ⟨rest, spelling⟩]
    simp only
    rw [← spelling, List.drop_left]
  · next symbol =>
    obtain ⟨rfl, left⟩ := Prod.mk.inj found
    obtain rfl := (List.cons.inj chars).2
    rw [longer] at symbol
    rw [symbol?_eq_none_of_append symbol]
    rfl

/-- The first piece of a text that it is followed by. -/
theorem Fits.exists_first {piece : Piece} {rest : List Char} (fits : piece.Fits rest) :
    ∃ c text, piece.chars ++ rest = c :: text ∧ first c text = (piece, rest) := by
  unfold Fits at fits
  cases whole : piece.chars ++ rest with
  | nil =>
    rw [whole, cut] at fits
    cases fits
  | cons c text =>
    rw [whole, cut_cons] at fits
    obtain ⟨same, behind⟩ := List.cons.inj fits
    have left := congrArg textOf behind
    rw [textOf_cut, textOf_cut] at left
    exact ⟨c, text, rfl, Prod.ext same left⟩

/-- A piece that fits before a text fits before a shorter one. -/
theorem Fits.of_append {piece : Piece} {rest more : List Char} (fits : piece.Fits (rest ++ more)) :
    piece.Fits rest := by
  obtain ⟨c, text, whole, found⟩ := fits.exists_first
  unfold first at found
  split at found
  · next blank =>
    obtain ⟨rfl, -⟩ := Prod.mk.inj found
    exact fits_blank blank rest
  next notBlank =>
  split at found
  · next body =>
    obtain ⟨rfl, left⟩ := Prod.mk.inj found
    cases closed : (blockText body).2.1 with
    | true => exact fits_blockComment (enclosable_blockText closed) rest
    | false =>
      -- an open comment runs to the end, so nothing stood behind it
      rw [blockText_rest closed] at left
      obtain ⟨rfl, rfl⟩ := List.append_eq_nil_iff.mp left.symm
      rwa [closed, List.append_nil] at fits
  · next body noBlock =>
    obtain ⟨rfl, left⟩ := Prod.mk.inj found
    apply fits_lineComment (oneLine_run noBlock)
    intro d member
    have outside : ∀ d ∈ (Cut.run (· != '\n') body).rest.head?, (d != '\n') = false :=
      Cut.run_outside
    rw [left] at outside
    simpa using outside d (List.mem_head?_append_of_mem_head? member)
  · next noBlock noLine =>
    have some : piece.chars ≠ [] := by
      rw [← (Prod.mk.inj found).1]
      exact firstToken_chars_ne_nil c text
    obtain ⟨d, tail, chars⟩ := List.exists_cons_of_ne_nil some
    rw [chars, List.cons_append] at whole
    obtain ⟨rfl, rfl⟩ := List.cons.inj whole
    have longer {body : List Char} (same : tail ++ rest = '-' :: body) :
        tail ++ (rest ++ more) = '-' :: (body ++ more) := by
      rw [← List.append_assoc, same, List.cons_append]
    apply fits_of_first d (tail ++ rest) (by rw [chars]; rfl)
    rw [first, if_neg notBlank]
    · exact firstToken_of_append chars found
    · intro body hyphen same
      exact noLine _ hyphen (longer same)
    · intro body hyphen same
      exact noLine _ hyphen (longer same)

theorem Apart.of_append {pieces : List Piece} {rest more : List Char}
    (apart : Apart pieces (rest ++ more)) : Apart pieces rest := by
  induction pieces with
  | nil => trivial
  | cons piece pieces ih =>
    obtain ⟨fits, apart⟩ := apart
    rw [← List.append_assoc] at fits
    exact ⟨fits.of_append, ih apart⟩

/-- The pieces of a text stand apart. -/
theorem apart_cut (text : List Char) : Apart (cut text) [] := by
  fun_induction cut text with
  | case1 => trivial
  | case2 c text ih =>
    refine ⟨?_, ih⟩
    rw [textOf_cut, List.append_nil]
    exact fits_of_first c text (first_append c text) rfl

/-- Some pieces of a text are the pieces of their own text. -/
theorem cut_textOf {text : List Char} {front pieces back : List Piece}
    (split : cut text = front ++ pieces ++ back) : cut (textOf pieces) = pieces := by
  have apart := apart_cut text
  rw [split, apart_append, apart_append] at apart
  have alone : Apart pieces [] := by
    have before : Apart pieces ([] ++ textOf back) := by simpa using apart.1.2
    exact before.of_append
  have found := cut_of_apart alone
  rwa [List.append_nil, cut, List.append_nil] at found

end Piece

/-- A text ends as many lines further down as it begins. -/
theorem Place.line_after_add (p q : Place) (text : List Char) :
    (p.after text).position.line + q.position.line =
      (q.after text).position.line + p.position.line := by
  induction text generalizing p q with
  | nil => exact Nat.add_comm _ _
  | cons c text ih =>
    have step (p : Place) : (p.next c).position.line =
        p.position.line + if c = '\n' then 1 else 0 := by
      unfold Place.next
      split <;> rfl
    have shift := ih (p.next c) (q.next c)
    rw [step, step] at shift
    rw [Place.after_cons, Place.after_cons]
    omega

namespace Cursor

open Piece

/-- The tokens up to some place end with a piece there. -/
theorem exists_front_pieces {last : Span} {place : Place} {pieces : List Piece}
    {own behind : List Token} (rest : (facing last place pieces).rest = own ++ behind)
    (some : own ≠ []) : ∃ text back, pieces = text ++ back ∧ (facing last place text).rest = own ∧
      ∀ token ∈ own.getLast?, token.span.endOffset = (place.after (textOf text)).offset := by
  induction pieces generalizing place own with
  | nil => exact absurd (List.append_eq_nil_iff.mp rest.symm).1 some
  | cons piece pieces ih =>
    cases piece with
    | token kind lexeme =>
      obtain ⟨first, others, rfl⟩ := List.exists_cons_of_ne_nil some
      obtain ⟨rfl, later⟩ := List.cons.inj rest
      by_cases final : others = []
      · subst final
        refine ⟨[.token kind lexeme], pieces, rfl, rfl, fun token member => ?_⟩
        obtain rfl := Option.some.inj member
        rw [textOf_cons, textOf_nil, List.append_nil]
        rfl
      · obtain ⟨text, back, rfl, own, stop⟩ := ih later final
        refine ⟨.token kind lexeme :: text, back, rfl, congrArg (List.cons _) own, ?_⟩
        rw [textOf_cons, Place.after_append, List.getLast?_cons_of_ne_nil final]
        exact stop
    | blank | lineComment | blockComment =>
      obtain ⟨text, back, rfl, own, stop⟩ := ih rest some
      refine ⟨_ :: text, back, rfl, own, ?_⟩
      rw [textOf_cons, Place.after_append]
      exact stop

/-- The tokens from some place on begin with a piece there. -/
theorem exists_back_pieces {last : Span} {place : Place} {pieces : List Piece}
    {before own : List Token} (rest : (facing last place pieces).rest = before ++ own)
    (some : own ≠ []) : ∃ front text, pieces = front ++ text ∧
      (facing last (place.after (textOf front)) text).rest = own ∧
      ∀ token ∈ own.head?, token.span.startOffset = (place.after (textOf front)).offset := by
  induction pieces generalizing place before with
  | nil => exact absurd (List.append_eq_nil_iff.mp rest.symm).2 some
  | cons piece pieces ih =>
    cases piece with
    | token kind lexeme =>
      cases before with
      | nil =>
        refine ⟨[], _, rfl, rest, fun token member => ?_⟩
        rw [← List.nil_append own, ← rest] at member
        obtain rfl := Option.some.inj member
        rfl
      | cons token before =>
        obtain ⟨front, text, rfl, own, start⟩ := ih (List.cons.inj rest).2
        refine ⟨.token kind lexeme :: front, text, rfl, ?_⟩
        rw [textOf_cons, Place.after_append]
        exact ⟨own, start⟩
    | blank | lineComment | blockComment =>
      obtain ⟨front, text, rfl, own, start⟩ := ih rest
      refine ⟨_ :: front, text, rfl, ?_⟩
      rw [textOf_cons, Place.after_append]
      exact ⟨own, start⟩

/-- Pieces have the same tokens wherever they stand, but for places. -/
theorem aligned_facing (x y : Span) (pieces : List Piece) {p q : Place} {l m : Span}
    (lines : l.stop.line + q.position.line = m.stop.line + p.position.line) :
    Aligned .clear l m (facing x p pieces).rest (facing y q pieces).rest := by
  induction pieces generalizing p q l m with
  | nil => exact .nil
  | cons piece pieces ih =>
    have shift := Place.line_after_add p q piece.chars
    cases piece with
    | token kind lexeme =>
      refine .cons ⟨rfl, fun _ => rfl, rfl, rfl, rfl⟩ ?_ ?_
      · intro _
        change l.stop.line < p.position.line ↔ m.stop.line < q.position.line
        omega
      · exact ih (Nat.add_comm _ _)
    | blank | lineComment | blockComment => exact ih (by omega)

/-- Tokens of a text that stand side by side are the tokens of the slice from the first to the
last. -/
theorem exists_slice {source : String} {own : List Token} {span : Span}
    (part : own <:+: (ofSource source).rest) (spans : Spans own span) :
    ∃ last place, 1 ≤ place.position.line ∧
      (facing last place (cut (span.textIn source).toList)).rest = own := by
  obtain ⟨last, whole⟩ := exists_facing_cut source
  obtain ⟨before, behind, rest⟩ := part
  obtain ⟨first, final, isFirst, isFinal, rfl⟩ := spans
  have some : own ≠ [] := by
    rintro rfl
    cases isFirst
  rw [ofSource, whole, List.append_assoc] at rest
  obtain ⟨front, more, split, found, start⟩ := exists_back_pieces rest.symm (by simp [some])
  obtain ⟨pieces, back, rfl, own, stop⟩ := exists_front_pieces found some
  rw [← List.append_assoc] at split
  refine ⟨last, Place.start.after (textOf front), Place.start.line_le_after _, ?_⟩
  have text : (first.span.through final.span).textIn source = String.ofList (textOf pieces) := by
    have characters : source.toList = textOf front ++ textOf pieces ++ textOf back := by
      rw [← textOf_cut source.toList, split, textOf_append, textOf_append]
    have starts : first.span.startOffset = (Span.behind (textOf front) (textOf pieces)).startOffset :=
      start first (List.mem_head?_append_of_mem_head? isFirst)
    have stops : final.span.endOffset = (Span.behind (textOf front) (textOf pieces)).endOffset := by
      rw [stop final isFinal, ← Place.after_append]
      rfl
    rw [← Span.textIn_behind characters, Span.textIn, Span.textIn, ← starts, ← stops]
    rfl
  rw [text, String.toList_ofList, cut_textOf split]
  exact own

/-- What is read from the tokens of some pieces is read from them wherever they stand. -/
theorem exists_derives_facing {rule : Rule SourceTree} {own : List Token} {stop : Token}
    {comments : List Comment} {t : SourceTree} {c' d : Cursor} {pieces : List Piece} {x y : Span}
    {p q : Place}
    (agree : ∀ {pairs rules}, Grammar.RulesAgree .clear pairs rules →
      TokenReader.Agree .clear pairs Blur.clear.SameView (rules _ rule) (rules _ rule))
    (read : ∀ last, Grammar.Derives _ rule ⟨own, stop, last, comments⟩ t c') (eof : stop.kind = .eof)
    (all : c'.rest = []) (here : (facing x p pieces).rest = own) (down : 1 ≤ p.position.line)
    (ends : d.EndsFile) (there : d.rest = (facing y q pieces).rest) (top : q.position.line = 1) :
    ∃ u d', Grammar.Derives _ rule d u d' ∧ Blur.clear.Same t u ∧ d'.rest = [] := by
  -- a token before the first one, as far above it as the one before the other cursor
  let last : Span := { d.last with stop := ⟨d.last.stop.line + p.position.line - 1, 1⟩ }
  have lines : last.stop.line + q.position.line = d.last.stop.line + p.position.line := by
    change d.last.stop.line + p.position.line - 1 + q.position.line = _
    omega
  have aligned := aligned_facing x y pieces lines
  rw [here, ← there] at aligned
  have abreast : Abreast .clear _ ⟨own, stop, last, comments⟩ d :=
    ⟨eof, ends, aligned, List.suffix_refl _, ⟨rfl, rfl⟩, ⟨rfl, rfl⟩⟩
  obtain ⟨u, d', beside, same, abreast⟩ :=
    Grammar.exists_derives_abreast abreast agree (read last)
  refine ⟨u, d', beside, same, ?_⟩
  rw [← List.length_eq_zero_iff, ← abreast.aligned.length_eq, all]
  rfl

end Cursor

open Cursor Grammar

theorem TokenKind.endsBlock_of_startsStatement {kind : TokenKind}
    (starts : kind.startsStatement = true) : kind.endsBlock = false := by
  cases kind <;> first | rfl | exact absurd starts (by decide)

/-- One statement with nothing behind it is a program. -/
theorem Grammar.exists_chunk_of_statement {c c' : Cursor} {t : SourceTree} (ends : c.EndsFile)
    (read : Derives _ .statement c.afterLeading t c') (all : c'.rest = []) :
    ∃ m n leading trailing c'', Chunk Derives c
      (.node m (.chunk (.node n (.block [t.withComments leading trailing])))) c'' := by
  have front : c.afterLeading.EndsFile := ends
  have back : c'.EndsFile := (read.shortens front).endsFile front
  have eof : c'.current.kind = .eof := by
    rw [current, all]
    exact back
  have start : c.current.kind.endsBlock = false := by
    have first : Statement Derives c.afterLeading t c' := (derives_iff front).mp read
    exact TokenKind.endsBlock_of_startsStatement first.starts
  have stay : c'.skip .semicolon = c' := if_neg (by rw [eof]; decide)
  have stop : (c'.skip .semicolon).current.kind.endsBlock = true := by
    rw [stay, eof]
    rfl
  have none : Statements Derives (c'.skip .semicolon).afterTrailing [] _ := .none stop
  have rest : Derives _ .statements _ [] _ := (derives_iff (by rwa [stay])).mpr none
  have statements : Statements Derives c _ _ := .some start read (fun _ => stop) rest
  have block : Block Derives c _ _ := .intro ((derives_iff ends).mpr statements)
  refine ⟨_, _, _, _, _, .intro ((derives_iff ends).mpr block) ?_⟩
  rw [stay]
  exact eof

/-- A text of one statement is a program. -/
theorem parse_of_statement {source : String} {t : SourceTree} {c' : Cursor}
    (read : Derives _ .statement (ofSource source).afterLeading t c') (all : c'.rest = []) :
    ∃ m n leading trailing, parse source =
      .ok (.node m (.chunk (.node n (.block [t.withComments leading trailing])))) := by
  obtain ⟨m, n, leading, trailing, c'', chunk⟩ :=
    exists_chunk_of_statement (endsFile_ofTokens _ _) read all
  exact ⟨m, n, leading, trailing, parseTokens_ok_iff.mpr ⟨c'', chunk⟩⟩

theorem TokenKind.endsBlock_of_startsExpression {kind : TokenKind}
    (starts : kind.startsExpression = true) : kind ≠ .semicolon ∧ kind.endsBlock = false := by
  cases kind <;> first | decide | exact absurd starts (by decide)

/-- One expression behind `return` with nothing behind it is a statement. -/
theorem Grammar.exists_return_of_expression {c c' : Cursor} {t : SourceTree} (ends : c.EndsFile)
    (start : c.current.kind = .returnKw) (read : Derives _ (.expression 1) c.advance t c')
    (all : c'.rest = []) : ∃ m, Derives _ .statement c (.node m (.returning [t])) c' := by
  have inside := (shortens_advance_any c).endsFile ends
  have back := (read.shortens inside).endsFile inside
  have more : MoreExpressions Derives c' [] c' := by
    apply MoreExpressions.none
    rw [current, all]
    change c'.stop.kind ≠ .comma
    rw [show c'.stop.kind = .eof from back]
    decide
  have values : Expressions Derives c.advance [t] c' := .intro read ((derives_iff back).mpr more)
  have notBare : ¬ c.advance.endsReturn := by
    have starts := startsExpression_of_expression inside read
    obtain ⟨noSemicolon, noEnd⟩ := TokenKind.endsBlock_of_startsExpression starts
    simp [endsReturn, noSemicolon, noEnd]
  have returning := ReturnStatement.values notBare ((derives_iff inside).mpr values)
  exact ⟨_, (derives_iff ends).mpr (.returning start returning)⟩

theorem Cursor.exists_rest_ofSource (source : String) :
    ∃ last, (ofSource source).rest = (facing last .start (Piece.cut source.toList)).rest := by
  obtain ⟨last, whole⟩ := exists_facing_cut source
  exact ⟨last, by rw [ofSource, whole]⟩

theorem Cursor.rest_facing_wordThen (last : Span) (place : Place) (kind : TokenKind)
    (pieces : List Piece) : ∃ lexeme span, (facing last place (Layout.wordThen kind ++ pieces)).rest =
      ⟨kind, lexeme, span⟩ ::
        (facing last ((place.after kind.spelling.toList).after [' ']) pieces).rest :=
  ⟨_, _, rfl⟩

/-- Behind `return` and a blank a text has the tokens it has. -/
theorem Cursor.exists_rest_return (text : String) :
    ∃ last, (ofSource ("return " ++ text)).afterLeading.current.kind = .returnKw ∧
      (ofSource ("return " ++ text)).afterLeading.advance.rest =
        (facing last (Place.start.after "return ".toList) (Piece.cut text.toList)).rest := by
  obtain ⟨last, whole⟩ := exists_rest_ofSource ("return " ++ text)
  have apart : Piece.Apart (Layout.wordThen .returnKw) text.toList :=
    Piece.apart_wordThen (.inl (by decide)) text.toList
  have pieces : Piece.cut ("return " ++ text).toList =
      Layout.wordThen .returnKw ++ Piece.cut text.toList := by
    rw [← Piece.cut_of_apart apart, String.toList_append]
    rfl
  obtain ⟨lexeme, span, word⟩ :=
    rest_facing_wordThen last .start .returnKw (Piece.cut text.toList)
  rw [pieces, word, ← Place.after_append] at whole
  generalize ofSource ("return " ++ text) = c at whole
  obtain ⟨rest, stop, before, comments⟩ := c
  obtain rfl : rest = _ := whole
  exact ⟨last, rfl, rfl⟩

theorem Tree.same_of_clear {t u : SourceTree} (same : Blur.clear.Same t u) : t.same u = true := by
  change t.blurred .clear = u.blurred .clear at same
  rw [Tree.blurred_clear, Tree.blurred_clear] at same
  exact Tree.same_of_mapMark_eq same

section Excerpt

variable {source : String} {t : SourceTree}

theorem Blur.same_of_kind {b : Blur} {t u : SourceTree} (kind : t.kind = u.kind) : b.Same t u := by
  obtain ⟨m, k⟩ := t
  obtain ⟨n, l⟩ := u
  obtain rfl : k = l := kind
  simp

/-- The slice of a statement is a program of this statement. -/
theorem parse_of_excerpt_statement (excerpt : (ofSource source).Excerpt .statement t) :
    ∃ m n u, parse (t.span.textIn source) = .ok (.node m (.chunk (.node n (.block [u])))) ∧
      t.same u = true := by
  obtain ⟨own, stop, comments, v, c', part, eof, kind, span, all, read⟩ := excerpt
  have spans : Spans own v.span :=
    spans_of_statement (c := ⟨own, stop, default, comments⟩) eof (read default) all
  rw [span] at spans
  obtain ⟨x, p, down, here⟩ := exists_slice part spans
  obtain ⟨y, there⟩ := exists_rest_ofSource (t.span.textIn source)
  obtain ⟨u, d', reread, same, done⟩ := exists_derives_facing
    (d := (ofSource (t.span.textIn source)).afterLeading) (fun agree => agree.statement) read
    eof all here down (endsFile_ofTokens _ _) there rfl
  obtain ⟨m, n, leading, trailing, parsed⟩ := parse_of_statement reread done
  refine ⟨m, n, _, parsed, Tree.same_of_clear ?_⟩
  have kinds : Blur.clear.Same t v := Blur.same_of_kind kind.symm
  exact (kinds.trans same).trans (Tree.blurred_withComments _ _ _ _).symm

/-- The slice of a value, behind `return`, is a program that returns this value. -/
theorem parse_of_excerpt_expression (excerpt : (ofSource source).Excerpt (.expression 1) t) :
    ∃ m n k u, parse ("return " ++ t.span.textIn source) =
        .ok (.node m (.chunk (.node n (.block [.node k (.returning [u])])))) ∧
      t.same u = true := by
  obtain ⟨own, stop, comments, v, c', part, eof, kind, span, all, read⟩ := excerpt
  have spans : Spans own v.span :=
    spans_of_expression (c := ⟨own, stop, default, comments⟩) eof (read default) all
  rw [span] at spans
  obtain ⟨x, p, down, here⟩ := exists_slice part spans
  obtain ⟨y, start, there⟩ := exists_rest_return (t.span.textIn source)
  have ends : (ofSource ("return " ++ t.span.textIn source)).afterLeading.EndsFile :=
    endsFile_ofTokens _ _
  have top : (Place.start.after "return ".toList).position.line = 1 := by decide
  obtain ⟨u, d', reread, same, done⟩ := exists_derives_facing (fun agree => agree.expression 1)
    read eof all here down ((shortens_advance_any _).endsFile ends) there top
  obtain ⟨k, returning⟩ := exists_return_of_expression ends start reread done
  obtain ⟨m, n, leading, trailing, parsed⟩ := parse_of_statement returning done
  refine ⟨m, n, _, u, parsed, Tree.same_of_clear ?_⟩
  exact (Blur.same_of_kind kind.symm).trans same

end Excerpt

namespace Arena

variable {a : Arena} {t : SourceTree}

theorem Sound.map_tree (sound : a.Sound) {id : NodeId} {m : Origin} {kind : Kind SourceTree}
    (tree : a.tree id = .node m kind) : (a.kind id).map a.tree = kind := by
  rw [sound.tree_eq] at tree
  exact (Tree.node.inj tree).2

/-- A program of one statement has one statement on top. -/
theorem Sound.exists_topLevel (sound : a.Sound) {r : NodeId} {m n : Origin} {u : SourceTree}
    (tree : a.tree r = .node m (.chunk (.node n (.block [u])))) :
    ∃ s, a.topLevel r = [s] ∧ a.tree s = u := by
  have chunk := sound.map_tree tree
  cases root : a.kind r with
  | chunk b =>
    rw [root] at chunk
    have block := sound.map_tree (Kind.chunk.inj chunk)
    cases body : a.kind b with
    | block statements =>
      rw [body] at block
      obtain ⟨s, rfl, same⟩ := List.map_eq_singleton_iff.mp (Kind.block.inj block)
      refine ⟨s, ?_, same⟩
      rw [topLevel, root]
      simp only [body]
    | _ =>
      rw [body] at block
      cases block
  | _ =>
    rw [root] at chunk
    cases chunk

theorem Sound.exists_returned (sound : a.Sound) {s : NodeId} {m : Origin} {u : SourceTree}
    (tree : a.tree s = .node m (.returning [u])) :
    ∃ e, a.kind s = .returning [e] ∧ a.tree e = u := by
  have returning := sound.map_tree tree
  cases kind : a.kind s with
  | returning values =>
    rw [kind] at returning
    obtain ⟨e, rfl, same⟩ := List.map_eq_singleton_iff.mp (Kind.returning.inj returning)
    exact ⟨e, rfl, same⟩
  | _ =>
    rw [kind] at returning
    cases returning

/-- The text in the span of a statement is a program of that statement alone, and behind `return`
the text in the span of a value is a program that returns that value alone. -/
theorem rereads_of_span {source : String} (parsed : parse source = .ok t) {id : NodeId}
    (present : (ofTree t).contains id = true) :
    (((ofTree t).kind id).isStatement = true →
      ∃ u r s, parse (((ofTree t).span id).textIn source) = .ok u ∧ (ofTree u).root = some r ∧
        (ofTree u).topLevel r = [s] ∧ (ofTree t).same id (ofTree u) s = true) ∧
    (((ofTree t).kind id).isValue = true →
      ∃ u r s e, parse ("return " ++ ((ofTree t).span id).textIn source) = .ok u ∧
        (ofTree u).root = some r ∧ (ofTree u).topLevel r = [s] ∧
        (ofTree u).kind s = .returning [e] ∧ (ofTree t).same id (ofTree u) e = true) := by
  have sound := sound_ofTree t
  have quotable : (ofSource source).Quotable ((ofTree t).tree id) := by
    refine forall_tree (quotable_of_parseTokens parsed) ?_ id (contains_iff.mp present)
    intro m k quotable c child
    cases quotable with
    | node statement value below => exact below c child
  rw [sound.tree_eq] at quotable
  obtain ⟨statement, value, -⟩ := quotable
  rw [← sound.tree_eq] at statement value
  rw [Kind.isStatement_map] at statement
  rw [Kind.isValue_map] at value
  constructor
  · intro isStatement
    obtain ⟨m, n, u, reread, same⟩ := parse_of_excerpt_statement (statement isStatement)
    rw [sound.span_tree] at reread
    obtain ⟨s, top, tree⟩ := (sound_ofTree _).exists_topLevel (tree_ofTree (.node m _))
    refine ⟨_, _, s, reread, root_ofTree _, top, ?_⟩
    rw [same_eq, tree]
    exact same
  · intro isValue
    obtain ⟨m, n, k, u, reread, same⟩ := parse_of_excerpt_expression (value isValue)
    rw [sound.span_tree] at reread
    obtain ⟨s, top, tree⟩ := (sound_ofTree _).exists_topLevel (tree_ofTree (.node m _))
    obtain ⟨e, returning, tree⟩ := (sound_ofTree _).exists_returned tree
    refine ⟨_, _, s, e, reread, root_ofTree _, top, returning, ?_⟩
    rw [same_eq, tree]
    exact same

/-- A statement behind a comment and a value over two lines are read alone. -/
theorem rereads_of_span_lines :
    ∃ t, parse "x = f(1) -- a\n(g)(2 +\n3 * 4)" = .ok t ∧
      (∃ u r s, parse "(g)(2 +\n3 * 4)" = .ok u ∧ (ofTree u).root = some r ∧
        (ofTree u).topLevel r = [s] ∧ (ofTree t).same ⟨13⟩ (ofTree u) s = true) ∧
      ∃ u r s e, parse "return 2 +\n3 * 4" = .ok u ∧ (ofTree u).root = some r ∧
        (ofTree u).topLevel r = [s] ∧ (ofTree u).kind s = .returning [e] ∧
        (ofTree t).same ⟨11⟩ (ofTree u) e = true := by
  obtain ⟨t, parsed⟩ : ∃ t, parse "x = f(1) -- a\n(g)(2 +\n3 * 4)" = .ok t :=
    exists_parse (by decide +kernel)
  have parts : (parse "x = f(1) -- a\n(g)(2 +\n3 * 4)").toOption.all (fun t =>
      (ofTree t).contains ⟨13⟩ = true ∧ (ofTree t).contains ⟨11⟩ = true ∧
        ((ofTree t).kind ⟨13⟩).isStatement = true ∧ ((ofTree t).kind ⟨11⟩).isValue = true ∧
        ((ofTree t).span ⟨13⟩).textIn "x = f(1) -- a\n(g)(2 +\n3 * 4)" = "(g)(2 +\n3 * 4)" ∧
        "return " ++ ((ofTree t).span ⟨11⟩).textIn "x = f(1) -- a\n(g)(2 +\n3 * 4)" =
          "return 2 +\n3 * 4") = true := by
    decide +kernel
  rw [parsed] at parts
  obtain ⟨present, present', isStatement, isValue, text, text'⟩ := of_decide_eq_true parts
  refine ⟨t, parsed, ?_, ?_⟩
  · rw [← text]
    exact (rereads_of_span parsed present).1 isStatement
  · rw [← text']
    exact (rereads_of_span parsed present').2 isValue

end Arena

end LuaTree
