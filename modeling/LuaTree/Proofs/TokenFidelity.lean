import LuaTree.Proofs.Grafting
import LuaTree.Proofs.Parsed
import LuaTree.Proofs.Words

/-!
# Tokens survive a round trip

A program that is parsed and written again without comments has the tokens it had,
but for the signs that the grammar leaves to the author: semicolons behind
statements, and how the fields of a table are separated. `normalize` settles these.
No production drops, doubles, reorders or respells any other token: what a rule
reads are the words of the tree that it yields (`derives_spelt`).
-/

namespace LuaTree

/-- What a token stands in: the braces of a table or the words around a block. -/
inductive Scope where
  | table
  | block
deriving DecidableEq, Repr

/-- The scopes behind a token, innermost first, given those before it. -/
def TokenKind.scopes : TokenKind → List Scope → List Scope
  | .lBrace, around => .table :: around
  | .functionKw, around | .doKw, around | .ifKw, around | .repeatKw, around => .block :: around
  | .rBrace, around | .endKw, around | .untilKw, around => around.tail
  | _, around => around

/-- A comma, unless the words behind it begin with a closing brace. -/
def separator : List Word → List Word
  | (.rBrace, _) :: _ => []
  | _ => [fixed .comma]

/-- Words without the semicolons behind statements, with commas for the semicolons between the
fields of tables, and without a separator behind the last field. -/
def normalize (around : List Scope) : List Word → List Word
  | [] => []
  | (.comma, _) :: words => separator words ++ normalize around words
  | (.semicolon, _) :: words =>
    (if around.head? = some .table then separator words else []) ++ normalize around words
  | (kind, lexeme) :: words => (kind, lexeme) :: normalize (kind.scopes around) words

theorem normalize_cons {kind : TokenKind} (noComma : kind ≠ .comma)
    (noSemicolon : kind ≠ .semicolon) (around : List Scope) (lexeme : String) (words : List Word) :
    normalize around ((kind, lexeme) :: words) =
      (kind, lexeme) :: normalize (kind.scopes around) words := by
  rw [normalize]
  · exact noComma
  · exact noSemicolon

theorem Token.word_of_genuine {token : Token} {kind : TokenKind} (front : token.kind = kind)
    (genuine : Piece.Genuine (.token token.kind token.lexeme.toList))
    (isFixed : kind ∈ TokenKind.keywords ∨ kind ∈ TokenKind.symbols) :
    token.word = fixed kind := by
  rw [front] at genuine
  have text := Piece.spelling_of_token genuine isFixed
  rw [word, fixed, front, String.toList_inj.mp text]

namespace Cursor

/-- The words in front of a cursor, with the end of the file. -/
def words (c : Cursor) : List Word :=
  (c.rest ++ [c.stop]).map Token.word

/-- The words in front of a cursor in their normal form, given what is around them. -/
def ahead (c : Cursor) (around : List Scope) : List Word :=
  normalize around c.words

theorem separator_words (c : Cursor) :
    separator c.words = if c.current.kind = .rBrace then [] else [fixed .comma] := by
  obtain ⟨words, same⟩ : ∃ words, c.words = c.current.word :: words := by
    obtain ⟨rest, stop, last, comments⟩ := c
    cases rest with
    | nil => exact ⟨[], rfl⟩
    | cons token rest => exact ⟨(rest ++ [stop]).map Token.word, rfl⟩
  rw [same, Token.word]
  split
  · next brace => rw [brace, separator]
  · next other =>
    rw [separator]
    rintro lexeme rest same
    exact other (Prod.mk.inj (List.cons.inj same).1).1

section Lexed

variable {c : Cursor} {kind : TokenKind}

theorem Lexed.words_cons (lexed : c.Lexed) (more : c.current.kind ≠ .eof) :
    c.words = c.current.word :: c.advance.words := by
  obtain ⟨rest, stop, last, comments⟩ := c
  cases rest with
  | nil => exact absurd lexed.ends more
  | cons token rest => rfl

/-- A token that is no separator stays and may open or close a scope. -/
theorem Lexed.ahead_token (lexed : c.Lexed) (more : c.current.kind ≠ .eof)
    (noComma : c.current.kind ≠ .comma) (noSemicolon : c.current.kind ≠ .semicolon)
    (around : List Scope) :
    c.ahead around = c.current.word :: c.advance.ahead (c.current.kind.scopes around) := by
  rw [ahead, lexed.words_cons more, Token.word, normalize_cons noComma noSemicolon]
  rfl

/-- Keywords and symbols that are no separators. -/
def isKept (kind : TokenKind) : Bool :=
  (TokenKind.keywords.contains kind || TokenKind.symbols.contains kind) && kind != .comma &&
    kind != .semicolon

theorem Lexed.ahead_fixed (lexed : c.Lexed) (front : c.current.kind = kind)
    (kept : isKept kind = true) (around : List Scope) :
    c.ahead around = fixed kind :: c.advance.ahead (kind.scopes around) := by
  simp only [isKept, Bool.and_eq_true, Bool.or_eq_true, List.contains_iff_mem, bne_iff_ne] at kept
  obtain ⟨⟨isFixed, noComma⟩, noSemicolon⟩ := kept
  have more : c.current.kind ≠ .eof := by
    rw [front]
    rintro rfl
    exact absurd isFixed (by decide)
  have word := Token.word_of_genuine front (lexed.current more) isFixed
  subst front
  rw [lexed.ahead_token more noComma noSemicolon, word]

/-- A comma, or a semicolon in a table, is a comma unless the table is closed behind it. -/
theorem Lexed.ahead_separator (lexed : c.Lexed) (around : List Scope)
    (front : c.current.kind = .comma ∨
      c.current.kind = .semicolon ∧ around.head? = some .table) :
    c.ahead around =
      (if c.advance.current.kind = .rBrace then [] else [fixed .comma]) ++
        c.advance.ahead around := by
  rw [← separator_words, ahead, ahead]
  rcases front with comma | ⟨semicolon, inside⟩
  · rw [lexed.words_cons (by simp [comma]), Token.word, comma, normalize]
  · rw [lexed.words_cons (by simp [semicolon]), Token.word, semicolon, normalize, if_pos inside]

theorem Lexed.ahead_comma (lexed : c.Lexed) (front : c.current.kind = .comma)
    (next : c.advance.current.kind ≠ .rBrace) (around : List Scope) :
    c.ahead around = fixed .comma :: c.advance.ahead around := by
  rw [lexed.ahead_separator around (.inl front), if_neg next, List.singleton_append]

/-- Outside tables semicolons do not count. -/
theorem Lexed.ahead_skip {around : List Scope} (lexed : c.Lexed)
    (outside : around.head? ≠ some .table) :
    c.ahead around = (c.skip .semicolon).ahead around := by
  unfold Cursor.skip
  split
  · next semicolon =>
    rw [ahead, ahead, lexed.words_cons (by simp [semicolon]), Token.word, semicolon, normalize,
      if_neg outside, List.nil_append]
  · rfl

end Lexed

end Cursor

namespace Grammar

open Cursor

/-- From `c` to `c'` stand the given words, whatever is around them. -/
def Passes (c : Cursor) (words : List Word) (c' : Cursor) : Prop :=
  ∀ around, c.ahead around = words ++ c'.ahead around

/-- The same among statements, that is, not directly in a table. -/
def PassesLines (c : Cursor) (words : List Word) (c' : Cursor) : Prop :=
  ∀ around, around.head? ≠ some .table → c.ahead around = words ++ c'.ahead around

/-- The words of trees that each stand behind a comma. -/
def moreWords (ts : List SourceTree) : List Word :=
  (ts.map Tree.words).flatMap (fixed .comma :: ·)

/-- What each rule reads are the words of what it yields. A rule that goes on behind a tree reads
the words that are added to those of the tree. -/
def Spelt : Reading
  | _, .block, c, t, c' => c.Lexed → PassesLines c t.words c' ∧ c'.Lexed
  | _, .statements, c, ts, c' => c.Lexed →
    PassesLines c (ts.map Tree.words).flatten c' ∧ c'.Lexed
  | _, .statement, c, t, c' => c.Lexed → Passes c t.words c' ∧ c'.Lexed
  | _, .elseIfs, c, ts, c' => c.Lexed →
    PassesLines c (ts.map Tree.words).flatten c' ∧ c'.Lexed
  | _, .moreTargets, c, ts, c' => c.Lexed → Passes c (moreWords ts) c' ∧ c'.Lexed
  | _, .moreNames _, c, ts, c' => c.Lexed → Passes c (moreWords ts) c' ∧ c'.Lexed
  | _, .dottedName head, c, t, c' => c.Lexed →
    (∀ around, head.words ++ c.ahead around = t.words ++ c'.ahead around) ∧ c'.Lexed
  | _, .expressions, c, ts, c' => c.Lexed →
    ts ≠ [] ∧ Passes c (commaWords (ts.map Tree.words)) c' ∧ c'.Lexed
  | _, .moreExpressions, c, ts, c' => c.Lexed → Passes c (moreWords ts) c' ∧ c'.Lexed
  | _, .expression _, c, t, c' => c.Lexed → Passes c t.words c' ∧ c'.Lexed
  | _, .operators _ left, c, t, c' => c.Lexed →
    (∀ around, left.words ++ c.ahead around = t.words ++ c'.ahead around) ∧ c'.Lexed
  | _, .suffixes head, c, t, c' => c.Lexed →
    (∀ around, head.words ++ c.ahead around = t.words ++ c'.ahead around) ∧ c'.Lexed
  | _, .fields, c, ts, c' => c.Lexed → c'.current.kind = .rBrace →
    (ts = [] ↔ c.current.kind = .rBrace) ∧ (∀ around, c.ahead (.table :: around) =
      commaWords (ts.map Tree.words) ++ c'.ahead (.table :: around)) ∧ c'.Lexed
  | _, .parameters, c, ts, c' => c.Lexed → ts ≠ [] ∧ c.current.kind ≠ .rBrace ∧
    Passes c (commaWords (ts.map Tree.words)) c' ∧ c'.Lexed

/-- What the rules read, with what is to be shown of its words. -/
def Traced : Reading :=
  fun α rule c a c' => Derives α rule c a c' ∧ Spelt α rule c a c'

theorem words_close (c : Cursor) (start : Span) (kind : Kind SourceTree) :
    (c.close start kind).words = (kind.map Tree.words).words :=
  Tree.words_node _ _

theorem words_leaf (c : Cursor) (kind : Kind SourceTree) :
    (c.leaf kind).words = (kind.map Tree.words).words :=
  Tree.words_node _ _

theorem commaWords_cons (t : SourceTree) (ts : List SourceTree) :
    commaWords ((t :: ts).map Tree.words) = t.words ++ moreWords ts :=
  rfl

theorem moreWords_cons (t : SourceTree) (ts : List SourceTree) :
    moreWords (t :: ts) = fixed .comma :: (t.words ++ moreWords ts) :=
  rfl

theorem moreWords_eq {ts : List SourceTree} (some : ts ≠ []) :
    moreWords ts = fixed .comma :: commaWords (ts.map Tree.words) := by
  cases ts with
  | nil => exact absurd rfl some
  | cons t ts => rfl

section Expressions

variable {c c' : Cursor} {t : SourceTree} {ts : List SourceTree}

theorem ne_rBrace_of_startsExpression {kind : TokenKind} (starts : kind.startsExpression = true) :
    kind ≠ .rBrace := by
  rintro rfl
  exact absurd starts (by decide)

theorem Name.spelt (lexed : c.Lexed) (read : Name c t c') : Passes c t.words c' ∧ c'.Lexed := by
  obtain ⟨kind⟩ := read
  refine ⟨fun around => ?_, lexed.advance⟩
  rw [lexed.ahead_token (by simp [kind]) (by simp [kind]) (by simp [kind]), words_leaf, Token.word,
    kind]
  rfl

theorem Enclosed.spelt {rule : Rule (List SourceTree)} (lexed : c.Lexed)
    (list : ∀ {c₁}, Traced _ rule c ts c₁ →
      Passes c (commaWords (ts.map Tree.words)) c₁ ∧ c₁.Lexed)
    (read : Enclosed Traced rule c ts c') :
    Passes c (commaWords (ts.map Tree.words) ++ [fixed .rParen]) c' ∧ c'.Lexed := by
  rcases read with close | ⟨-, readList, close⟩
  · exact ⟨lexed.ahead_fixed close (by decide), lexed.advance⟩
  · obtain ⟨inner, lexed⟩ := list readList
    refine ⟨fun around => ?_, lexed.advance⟩
    rw [inner, lexed.ahead_fixed close (by decide), List.append_assoc]
    rfl

theorem Enclosed.arguments (lexed : c.Lexed) (read : Enclosed Traced .expressions c ts c') :
    Passes c (commaWords (ts.map Tree.words) ++ [fixed .rParen]) c' ∧ c'.Lexed :=
  read.spelt lexed fun readList => (readList.2 lexed).2

theorem FunctionBody.spelt {params : List SourceTree} {body : SourceTree} (lexed : c.Lexed)
    (read : FunctionBody Traced c params body c') :
    (∀ around, c.ahead (.block :: around) =
      fixed .lParen :: (commaWords (params.map Tree.words) ++
        fixed .rParen :: (body.words ++ fixed .endKw :: c'.ahead around))) ∧ c'.Lexed := by
  obtain ⟨start, readParams, readBody, close⟩ := read
  obtain ⟨parameters, lexed₁⟩ :=
    readParams.spelt lexed.advance fun readList => (readList.2 lexed.advance).2.2
  obtain ⟨block, lexed₂⟩ := readBody.2 lexed₁
  refine ⟨fun around => ?_, lexed₂.advance⟩
  rw [lexed.ahead_fixed start (by decide), parameters, block _ (by simp [TokenKind.scopes]),
    lexed₂.ahead_fixed close (by decide)]
  simp [TokenKind.scopes]

theorem Expressions.spelt (lexed : c.Lexed) (read : Expressions Traced c ts c') :
    ts ≠ [] ∧ Passes c (commaWords (ts.map Tree.words)) c' ∧ c'.Lexed := by
  obtain ⟨readFirst, readMore⟩ := read
  obtain ⟨first, lexed⟩ := readFirst.2 lexed
  obtain ⟨more, lexed⟩ := readMore.2 lexed
  refine ⟨by simp, fun around => ?_, lexed⟩
  rw [first, more, commaWords_cons, List.append_assoc]

theorem MoreExpressions.spelt (lexed : c.Lexed) (read : MoreExpressions Traced c ts c') :
    Passes c (moreWords ts) c' ∧ c'.Lexed := by
  rcases read with stop | ⟨comma, readList⟩
  · exact ⟨fun around => rfl, lexed⟩
  · have starts := startsExpression_of_expressions lexed.advance.ends readList.1
    obtain ⟨some, list, lexed'⟩ := readList.2 lexed.advance
    refine ⟨fun around => ?_, lexed'⟩
    rw [lexed.ahead_comma comma (ne_rBrace_of_startsExpression starts), list, moreWords_eq some]
    rfl

theorem Parameters.spelt (lexed : c.Lexed) (read : Parameters Traced c ts c') :
    ts ≠ [] ∧ c.current.kind ≠ .rBrace ∧ Passes c (commaWords (ts.map Tree.words)) c' ∧
      c'.Lexed := by
  rcases read with kind | ⟨readName, -⟩ | ⟨readName, comma, readMore⟩
  · refine ⟨by simp, by simp [kind], fun around => ?_, lexed.advance⟩
    rw [lexed.ahead_fixed kind (by decide), commaWords_cons, words_leaf]
    rfl
  · obtain ⟨name, lexed'⟩ := readName.spelt lexed
    obtain ⟨kind⟩ := readName
    refine ⟨by simp, by simp [kind], fun around => ?_, lexed'⟩
    rw [name, commaWords_cons, List.append_assoc]
    rfl
  · obtain ⟨name, lexed₁⟩ := readName.spelt lexed
    obtain ⟨some, noBrace, more, lexed₂⟩ := readMore.2 lexed₁.advance
    obtain ⟨kind⟩ := readName
    refine ⟨by simp, by simp [kind], fun around => ?_, lexed₂⟩
    rw [name, lexed₁.ahead_comma comma noBrace, more, commaWords_cons, moreWords_eq some,
      List.append_assoc]
    rfl

theorem Field.spelt (lexed : c.Lexed) (read : Field Traced c t c') :
    Passes c t.words c' ∧ c'.Lexed := by
  rcases read with ⟨start, readKey, close, assign, readValue⟩ | ⟨readName, assign, readValue⟩ |
    ⟨noKey, noName, readValue⟩
  · obtain ⟨key, lexed₁⟩ := readKey.2 lexed.advance
    obtain ⟨value, lexed₂⟩ := readValue.2 lexed₁.advance.advance
    refine ⟨fun around => ?_, lexed₂⟩
    rw [lexed.ahead_fixed start (by decide), key, lexed₁.ahead_fixed close (by decide),
      lexed₁.advance.ahead_fixed assign (by decide), value, words_close]
    simp [Kind.map, Kind.words, TokenKind.scopes]
  · obtain ⟨name, lexed₁⟩ := readName.spelt lexed
    obtain ⟨value, lexed₂⟩ := readValue.2 lexed₁.advance
    obtain ⟨kind⟩ := readName
    rw [← current_advance] at assign
    refine ⟨fun around => ?_, lexed₂⟩
    rw [name, lexed₁.ahead_fixed assign (by decide), value, words_close]
    simp [Kind.map, Kind.words, TokenKind.scopes]
  · obtain ⟨value, lexed⟩ := readValue.2 lexed
    refine ⟨fun around => ?_, lexed⟩
    rw [value, words_close]
    rfl

theorem Fields.spelt (read : Fields Traced c ts c') : Spelt _ .fields c ts c' := by
  intro lexed close
  cases read with
  | none stop => exact ⟨by simp [close], fun around => rfl, lexed⟩
  | last start readField stop =>
    obtain ⟨field, lexed⟩ := readField.spelt lexed
    refine ⟨by simpa using fun brace => start (.inl brace), fun around => ?_, lexed⟩
    rw [field, commaWords_cons, List.append_assoc]
    rfl
  | more start readField divider readMore =>
    obtain ⟨field, lexed₁⟩ := readField.spelt lexed
    obtain ⟨last, fields, lexed₂⟩ := readMore.2 lexed₁.advance close
    refine ⟨by simpa using fun brace => start (.inl brace), fun around => ?_, lexed₂⟩
    have separated := lexed₁.ahead_separator (.table :: around)
      (divider.imp_right fun semicolon => ⟨semicolon, rfl⟩)
    rw [field, separated, fields, commaWords_cons, List.append_assoc]
    -- the separator is written again exactly if a field stands behind it
    split
    · next brace =>
      obtain rfl := last.mpr brace
      rfl
    · next other =>
      rw [moreWords_eq fun none => other (last.mp none)]
      rfl

/-- The token of a literal neither separates nor opens nor closes anything. -/
theorem literal?_keeps {token : Token} {literal : Literal} (found : literal? token = some literal) :
    token.kind ≠ .comma ∧ token.kind ≠ .semicolon ∧
      ∀ around, token.kind.scopes around = around := by
  unfold literal? at found
  split at found <;> simp_all [TokenKind.scopes]

/-- A literal is written as the token from which it was read. -/
theorem words_of_literal? {token : Token} {literal : Literal}
    (genuine : Piece.Genuine (.token token.kind token.lexeme.toList))
    (found : literal? token = some literal) :
    Piece.words [Layout.literal literal] = [token.word] := by
  unfold literal? at found
  split at found
  · next kind =>
    obtain rfl := Option.some.inj found
    simp [Layout.literal, Token.word, kind]
  · next kind =>
    obtain rfl := Option.some.inj found
    obtain ⟨quote, inner, text, -, -, quote?, contents⟩ := quoted_of_genuine kind genuine
    have lexeme : token.lexeme = String.ofList (quote :: inner ++ [quote]) := by
      rw [← text, String.ofList_toList]
    simp [Layout.literal, Token.word, kind, quote?, contents, lexeme]
  · next kind =>
    obtain rfl := Option.some.inj found
    have word := Token.word_of_genuine kind genuine (by decide)
    rw [word, (Prod.mk.inj word).2]
    rfl
  · next kind =>
    obtain rfl := Option.some.inj found
    have word := Token.word_of_genuine kind genuine (by decide)
    rw [word, (Prod.mk.inj word).2]
    rfl
  · next kind =>
    obtain rfl := Option.some.inj found
    rw [Token.word_of_genuine kind genuine (by decide)]
    rfl
  · simp at found

theorem Primary.spelt (lexed : c.Lexed) (read : Primary Traced c t c') :
    Passes c t.words c' ∧ c'.Lexed := by
  cases read with
  | literal token =>
    have genuine := lexed.current (literal?_ne_eof token)
    obtain ⟨noComma, noSemicolon, scopes⟩ := literal?_keeps token
    refine ⟨fun around => ?_, lexed.advance⟩
    rw [lexed.ahead_token (literal?_ne_eof token) noComma noSemicolon, scopes, words_leaf,
      Kind.map, Kind.words, words_of_literal? genuine token]
    rfl
  | name readName => exact readName.spelt lexed
  | varArg kind =>
    refine ⟨fun around => ?_, lexed.advance⟩
    rw [lexed.ahead_fixed kind (by decide), words_leaf]
    rfl
  | table start readFields close =>
    obtain ⟨-, fields, lexed₁⟩ := readFields.2 lexed.advance close
    refine ⟨fun around => ?_, lexed₁.advance⟩
    have inner := fields around
    rw [lexed.ahead_fixed start (by decide), TokenKind.scopes, inner,
      lexed₁.ahead_fixed close (by decide), words_close]
    simp [Kind.map, Kind.words, TokenKind.scopes]
  | function start readBody =>
    obtain ⟨function, lexed'⟩ := readBody.spelt lexed.advance
    refine ⟨fun around => ?_, lexed'⟩
    rw [lexed.ahead_fixed start (by decide), words_close]
    simp [Kind.map, Kind.words, TokenKind.scopes, function]
  | paren start readInner close =>
    obtain ⟨inner, lexed₁⟩ := readInner.2 lexed.advance
    refine ⟨fun around => ?_, lexed₁.advance⟩
    rw [lexed.ahead_fixed start (by decide), inner, lexed₁.ahead_fixed close (by decide),
      words_close]
    simp [Kind.map, Kind.words, TokenKind.scopes]

theorem Suffixes.spelt {head : SourceTree} (read : Suffixes Traced head c t c') :
    Spelt _ (.suffixes head) c t c' := by
  intro lexed
  rcases read with stop | ⟨start, sameLine, readArgs, readMore⟩ |
    ⟨start, sameLine, readKey, close, readMore⟩ | ⟨start, readName, readMore⟩ |
    ⟨start, readName, parens, readArgs, readMore⟩
  · exact ⟨fun around => rfl, lexed⟩
  · obtain ⟨args, lexed₁⟩ := readArgs.arguments lexed.advance
    obtain ⟨more, lexed₂⟩ := readMore.2 lexed₁
    refine ⟨fun around => ?_, lexed₂⟩
    rw [← more, lexed.ahead_fixed start (by decide), args, words_close]
    simp [Kind.map, Kind.words, TokenKind.scopes]
  · obtain ⟨key, lexed₁⟩ := readKey.2 lexed.advance
    obtain ⟨more, lexed₂⟩ := readMore.2 lexed₁.advance
    refine ⟨fun around => ?_, lexed₂⟩
    rw [← more, lexed.ahead_fixed start (by decide), key, lexed₁.ahead_fixed close (by decide),
      words_close]
    simp [Kind.map, Kind.words, TokenKind.scopes]
  · obtain ⟨name, lexed₁⟩ := readName.spelt lexed.advance
    obtain ⟨more, lexed₂⟩ := readMore.2 lexed₁
    refine ⟨fun around => ?_, lexed₂⟩
    rw [← more, lexed.ahead_fixed start (by decide), name, words_close]
    simp [Kind.map, Kind.words, TokenKind.scopes]
  · obtain ⟨name, lexed₁⟩ := readName.spelt lexed.advance
    obtain ⟨args, lexed₂⟩ := readArgs.arguments lexed₁.advance
    obtain ⟨more, lexed₃⟩ := readMore.2 lexed₂
    refine ⟨fun around => ?_, lexed₃⟩
    rw [← more, lexed.ahead_fixed start (by decide), name, lexed₁.ahead_fixed parens (by decide),
      args, words_close]
    simp [Kind.map, Kind.words, TokenKind.scopes]

theorem PrefixExpression.spelt (lexed : c.Lexed) (read : PrefixExpression Traced c t c') :
    Passes c t.words c' ∧ c'.Lexed := by
  obtain ⟨readHead, readMore⟩ := read
  obtain ⟨head, lexed⟩ := readHead.spelt lexed
  obtain ⟨more, lexed⟩ := readMore.2 lexed
  exact ⟨fun around => (head around).trans (more around), lexed⟩

theorem words_binary (op : BinaryOp) (left right : SourceTree) :
    (binary op left right).words = left.words ++ fixed op.token :: right.words :=
  Tree.words_node _ _

theorem Power.spelt (lexed : c.Lexed) (read : Power Traced c t c') :
    Passes c t.words c' ∧ c'.Lexed := by
  rcases read with ⟨readBase, stop⟩ | ⟨readBase, caret, readExponent⟩
  · exact readBase.spelt lexed
  · obtain ⟨base, lexed₁⟩ := readBase.spelt lexed
    obtain ⟨exponent, lexed₂⟩ := readExponent.2 lexed₁.advance
    refine ⟨fun around => ?_, lexed₂⟩
    rw [base, lexed₁.ahead_fixed caret (by decide), exponent, words_binary, List.append_assoc]
    rfl

theorem Unary.spelt (lexed : c.Lexed) (read : Unary Traced c t c') :
    Passes c t.words c' ∧ c'.Lexed := by
  cases read with
  | @op op operand c₁ sign readOperand =>
    have kept : isKept op.token = true := by cases op <;> decide
    have same (around : List Scope) : op.token.scopes around = around := by cases op <;> rfl
    obtain ⟨inner, lexed₁⟩ := readOperand.2 lexed.advance
    refine ⟨fun around => ?_, lexed₁⟩
    rw [lexed.ahead_fixed (TokenKind.token_of_unaryOp? sign) kept, same, inner, Tree.words_node]
    rfl
  | power noSign readPower => exact readPower.spelt lexed

/-- The sign of a binary operator. -/
theorem ahead_sign {op : BinaryOp} (lexed : c.Lexed) (sign : c.current.kind.binaryOp? = some op)
    (around : List Scope) : c.ahead around = fixed op.token :: c.advance.ahead around := by
  have kept : isKept op.token = true := by cases op <;> decide
  have same : op.token.scopes around = around := by cases op <;> rfl
  rw [lexed.ahead_fixed (TokenKind.token_of_binaryOp? sign) kept, same]

theorem Operators.spelt {level : Nat} {left : SourceTree}
    (read : Operators Traced level left c t c') : Spelt _ (.operators level left) c t c' := by
  intro lexed
  rcases read with stop | ⟨sign, -, -, readRight, readMore⟩ | ⟨sign, -, -, readRight⟩ |
    ⟨sign, -, -, readRight⟩
  · exact ⟨fun around => rfl, lexed⟩
  · obtain ⟨right, lexed₁⟩ := readRight.2 lexed.advance
    obtain ⟨more, lexed₂⟩ := readMore.2 lexed₁
    refine ⟨fun around => ?_, lexed₂⟩
    rw [← more, ahead_sign lexed sign, right, words_binary, List.append_assoc]
    rfl
  · obtain ⟨right, lexed₁⟩ := readRight.2 lexed.advance
    refine ⟨fun around => ?_, lexed₁⟩
    rw [ahead_sign lexed sign, right, words_binary, List.append_assoc]
    rfl
  · obtain ⟨right, lexed₁⟩ := readRight.2 lexed.advance
    refine ⟨fun around => ?_, lexed₁⟩
    rw [ahead_sign lexed sign, right, words_binary, List.append_assoc]
    rfl

theorem Ladder.spelt {level : Nat} (lexed : c.Lexed) (read : Ladder Traced level c t c') :
    Passes c t.words c' ∧ c'.Lexed := by
  rcases read with ⟨low, readLeft, readMore⟩ | ⟨high, readUnary⟩
  · obtain ⟨left, lexed⟩ := readLeft.2 lexed
    obtain ⟨more, lexed⟩ := readMore.2 lexed
    exact ⟨fun around => (left around).trans (more around), lexed⟩
  · exact readUnary.spelt lexed

end Expressions

section Statements

variable {c c' : Cursor} {t : SourceTree} {ts : List SourceTree}

theorem MoreNames.spelt {cause : Cause} (lexed : c.Lexed) (read : MoreNames Traced cause c ts c') :
    Passes c (moreWords ts) c' ∧ c'.Lexed := by
  rcases read with stop | ⟨comma, readName, readMore⟩
  · exact ⟨fun around => rfl, lexed⟩
  · obtain ⟨name, lexed₁⟩ := readName.spelt lexed.advance
    obtain ⟨more, lexed₂⟩ := readMore.2 lexed₁
    obtain ⟨kind⟩ := readName
    refine ⟨fun around => ?_, lexed₂⟩
    rw [lexed.ahead_comma comma (by simp [kind]), name, more, moreWords_cons, List.cons_append,
      List.append_assoc]

theorem MoreTargets.spelt (lexed : c.Lexed) (read : MoreTargets Traced c ts c') :
    Passes c (moreWords ts) c' ∧ c'.Lexed := by
  rcases read with stop | ⟨comma, readTarget, readMore⟩
  · exact ⟨fun around => rfl, lexed⟩
  · have starts := TokenKind.startsExpression_of_startsPrimary readTarget.starts
    obtain ⟨target, lexed₁⟩ := readTarget.spelt lexed.advance
    obtain ⟨more, lexed₂⟩ := readMore.2 lexed₁
    refine ⟨fun around => ?_, lexed₂⟩
    rw [lexed.ahead_comma comma (ne_rBrace_of_startsExpression starts), target, more,
      moreWords_cons, List.cons_append, List.append_assoc]

theorem LocalStatement.spelt (lexed : c.Lexed) (word : c.current.kind = .localKw)
    (read : LocalStatement Traced c t c') : Passes c t.words c' ∧ c'.Lexed := by
  rcases read with ⟨start, readName, readBody⟩ | ⟨readName, readMore, stop⟩ |
    ⟨readName, readMore, assign, readValues⟩
  · obtain ⟨name, lexed₁⟩ := readName.spelt lexed.advance.advance
    obtain ⟨function, lexed₂⟩ := readBody.spelt lexed₁
    refine ⟨fun around => ?_, lexed₂⟩
    rw [lexed.ahead_fixed word (by decide), lexed.advance.ahead_fixed start (by decide), name,
      words_close]
    simp [Kind.map, Kind.words, TokenKind.scopes, function]
  · obtain ⟨name, lexed₁⟩ := readName.spelt lexed.advance
    obtain ⟨more, lexed₂⟩ := readMore.2 lexed₁
    refine ⟨fun around => ?_, lexed₂⟩
    rw [lexed.ahead_fixed word (by decide), name, more, words_close]
    simp [Kind.map, Kind.words, commaWords, moreWords, TokenKind.scopes]
  · obtain ⟨name, lexed₁⟩ := readName.spelt lexed.advance
    obtain ⟨more, lexed₂⟩ := readMore.2 lexed₁
    obtain ⟨some, values, lexed₃⟩ := readValues.2 lexed₂.advance
    refine ⟨fun around => ?_, lexed₃⟩
    rw [lexed.ahead_fixed word (by decide), name, more, lexed₂.ahead_fixed assign (by decide),
      values, words_close]
    simp [Kind.map, Kind.words, commaWords, moreWords, TokenKind.scopes, some]

theorem DottedName.spelt {head : SourceTree} (lexed : c.Lexed)
    (read : DottedName Traced head c t c') :
    (∀ around, head.words ++ c.ahead around = t.words ++ c'.ahead around) ∧ c'.Lexed := by
  rcases read with ⟨noDot, noColon⟩ | ⟨start, readName, readMore⟩ | ⟨start, readName⟩
  · exact ⟨fun around => rfl, lexed⟩
  · obtain ⟨name, lexed₁⟩ := readName.spelt lexed.advance
    obtain ⟨more, lexed₂⟩ := readMore.2 lexed₁
    refine ⟨fun around => ?_, lexed₂⟩
    rw [← more, lexed.ahead_fixed start (by decide), name, words_close]
    simp [Kind.map, Kind.words, TokenKind.scopes]
  · obtain ⟨name, lexed₁⟩ := readName.spelt lexed.advance
    refine ⟨fun around => ?_, lexed₁⟩
    rw [lexed.ahead_fixed start (by decide), name, words_close]
    simp [Kind.map, Kind.words, TokenKind.scopes]

theorem FunctionStatement.spelt (lexed : c.Lexed) (word : c.current.kind = .functionKw)
    (read : FunctionStatement Traced c t c') : Passes c t.words c' ∧ c'.Lexed := by
  obtain ⟨readFirst, readName, readBody⟩ := read
  obtain ⟨first, lexed₁⟩ := readFirst.spelt lexed.advance
  obtain ⟨name, lexed₂⟩ := readName.2 lexed₁
  obtain ⟨function, lexed₃⟩ := readBody.spelt lexed₂
  refine ⟨fun around => ?_, lexed₃⟩
  rw [lexed.ahead_fixed word (by decide), first, name, words_close]
  simp [Kind.map, Kind.words, TokenKind.scopes, function]

theorem ReturnStatement.spelt (lexed : c.Lexed) (word : c.current.kind = .returnKw)
    (read : ReturnStatement Traced c t c') : Passes c t.words c' ∧ c'.Lexed := by
  rcases read with stop | ⟨start, readValues⟩
  · refine ⟨fun around => ?_, lexed.advance⟩
    rw [lexed.ahead_fixed word (by decide), words_close]
    rfl
  · obtain ⟨-, values, lexed₁⟩ := readValues.2 lexed.advance
    refine ⟨fun around => ?_, lexed₁⟩
    rw [lexed.ahead_fixed word (by decide), values, words_close]
    simp [Kind.map, Kind.words, TokenKind.scopes]

theorem DoStatement.spelt (lexed : c.Lexed) (word : c.current.kind = .doKw)
    (read : DoStatement Traced c t c') : Passes c t.words c' ∧ c'.Lexed := by
  obtain ⟨readBody, close⟩ := read
  obtain ⟨body, lexed₁⟩ := readBody.2 lexed.advance
  refine ⟨fun around => ?_, lexed₁.advance⟩
  rw [lexed.ahead_fixed word (by decide), body _ (by simp [TokenKind.scopes]),
    lexed₁.ahead_fixed close (by decide), words_close]
  simp [Kind.map, Kind.words, TokenKind.scopes]

theorem ElseIfs.spelt (lexed : c.Lexed) (read : ElseIfs Traced c ts c') :
    PassesLines c (ts.map Tree.words).flatten c' ∧ c'.Lexed := by
  rcases read with stop | ⟨start, readCondition, thenKw, readBody, readMore⟩
  · exact ⟨fun around _ => rfl, lexed⟩
  · obtain ⟨condition, lexed₁⟩ := readCondition.2 lexed.advance
    obtain ⟨body, lexed₂⟩ := readBody.2 lexed₁.advance
    obtain ⟨more, lexed₃⟩ := readMore.2 lexed₂
    refine ⟨fun around outside => ?_, lexed₃⟩
    rw [lexed.ahead_fixed start (by decide), condition, lexed₁.ahead_fixed thenKw (by decide),
      List.map_cons, words_close]
    simp [Kind.map, Kind.words, TokenKind.scopes, body around outside, more around outside]

theorem ElseClause.spelt {branch : Option SourceTree} (lexed : c.Lexed)
    (read : ElseClause Traced c branch c') :
    PassesLines c (branch.map Tree.words).toList.flatten c' ∧ c'.Lexed := by
  rcases read with stop | ⟨start, readBody⟩
  · exact ⟨fun around _ => rfl, lexed⟩
  · obtain ⟨body, lexed₁⟩ := readBody.2 lexed.advance
    refine ⟨fun around outside => ?_, lexed₁⟩
    rw [lexed.ahead_fixed start (by decide), Option.map_some, words_close]
    simp [Kind.map, Kind.words, TokenKind.scopes, body around outside]

theorem IfStatement.spelt (lexed : c.Lexed) (word : c.current.kind = .ifKw)
    (read : IfStatement Traced c t c') : Passes c t.words c' ∧ c'.Lexed := by
  obtain ⟨readCondition, thenKw, readBody, readClauses, readBranch, close⟩ := read
  obtain ⟨condition, lexed₁⟩ := readCondition.2 lexed.advance
  obtain ⟨body, lexed₂⟩ := readBody.2 lexed₁.advance
  obtain ⟨clauses, lexed₃⟩ := readClauses.2 lexed₂
  obtain ⟨branch, lexed₄⟩ := readBranch.spelt lexed₃
  refine ⟨fun around => ?_, lexed₄.advance⟩
  have outside : (Scope.block :: around).head? ≠ some .table := by simp
  rw [lexed.ahead_fixed word (by decide), condition, lexed₁.ahead_fixed thenKw (by decide),
    words_close]
  simp [Kind.map, Kind.words, TokenKind.scopes, body _ outside, clauses _ outside,
    branch _ outside, lexed₄.ahead_fixed close (by decide)]

theorem WhileStatement.spelt (lexed : c.Lexed) (word : c.current.kind = .whileKw)
    (read : WhileStatement Traced c t c') : Passes c t.words c' ∧ c'.Lexed := by
  obtain ⟨readCondition, doKw, readBody, close⟩ := read
  obtain ⟨condition, lexed₁⟩ := readCondition.2 lexed.advance
  obtain ⟨body, lexed₂⟩ := readBody.2 lexed₁.advance
  refine ⟨fun around => ?_, lexed₂.advance⟩
  rw [lexed.ahead_fixed word (by decide), condition, lexed₁.ahead_fixed doKw (by decide),
    body _ (by simp [TokenKind.scopes]), lexed₂.ahead_fixed close (by decide), words_close]
  simp [Kind.map, Kind.words, TokenKind.scopes]

theorem RepeatStatement.spelt (lexed : c.Lexed) (word : c.current.kind = .repeatKw)
    (read : RepeatStatement Traced c t c') : Passes c t.words c' ∧ c'.Lexed := by
  obtain ⟨readBody, untilKw, readCondition⟩ := read
  obtain ⟨body, lexed₁⟩ := readBody.2 lexed.advance
  obtain ⟨condition, lexed₂⟩ := readCondition.2 lexed₁.advance
  refine ⟨fun around => ?_, lexed₂⟩
  rw [lexed.ahead_fixed word (by decide), body _ (by simp [TokenKind.scopes]),
    lexed₁.ahead_fixed untilKw (by decide), condition, words_close]
  simp [Kind.map, Kind.words, TokenKind.scopes]

theorem ForBody.spelt (lexed : c.Lexed) (read : ForBody Traced c t c') :
    Passes c (fixed .doKw :: (t.words ++ [fixed .endKw])) c' ∧ c'.Lexed := by
  obtain ⟨doKw, readBody, close⟩ := read
  obtain ⟨body, lexed₁⟩ := readBody.2 lexed.advance
  refine ⟨fun around => ?_, lexed₁.advance⟩
  rw [lexed.ahead_fixed doKw (by decide), body _ (by simp [TokenKind.scopes]),
    lexed₁.ahead_fixed close (by decide)]
  simp [TokenKind.scopes]

theorem ForStep.spelt {step : Option SourceTree} (lexed : c.Lexed)
    (read : ForStep Traced c step c') : Passes c (moreWords step.toList) c' ∧ c'.Lexed := by
  rcases read with stop | ⟨comma, readStep⟩
  · exact ⟨fun around => rfl, lexed⟩
  · have starts := startsExpression_of_expression lexed.advance.ends readStep.1
    obtain ⟨step, lexed₁⟩ := readStep.2 lexed.advance
    refine ⟨fun around => ?_, lexed₁⟩
    rw [lexed.ahead_comma comma (ne_rBrace_of_startsExpression starts), step]
    simp [moreWords]

theorem ForStatement.spelt (lexed : c.Lexed) (word : c.current.kind = .forKw)
    (read : ForStatement Traced c t c') : Passes c t.words c' ∧ c'.Lexed := by
  rcases read with ⟨assign, readCounter, readStart, comma, readLimit, readStep, readBody⟩ |
    ⟨noAssign, readName, readMore, inKw, readIterators, readBody⟩
  · obtain ⟨counter, lexed₁⟩ := readCounter.spelt lexed.advance
    obtain ⟨start, lexed₂⟩ := readStart.2 lexed₁.advance
    have starts := startsExpression_of_expression lexed₂.advance.ends readLimit.1
    obtain ⟨limit, lexed₃⟩ := readLimit.2 lexed₂.advance
    obtain ⟨step, lexed₄⟩ := readStep.spelt lexed₃
    obtain ⟨body, lexed₅⟩ := readBody.spelt lexed₄
    obtain ⟨kind⟩ := readCounter
    rw [← current_advance] at assign
    refine ⟨fun around => ?_, lexed₅⟩
    rw [lexed.ahead_fixed word (by decide), counter, lexed₁.ahead_fixed assign (by decide), start,
      lexed₂.ahead_comma comma (ne_rBrace_of_startsExpression starts), limit, step, body,
      words_close]
    simp [Kind.map, Kind.words, TokenKind.scopes, commaWords, moreWords, Option.toList_map]
  · obtain ⟨name, lexed₁⟩ := readName.spelt lexed.advance
    obtain ⟨more, lexed₂⟩ := readMore.2 lexed₁
    obtain ⟨-, iterators, lexed₃⟩ := readIterators.2 lexed₂.advance
    obtain ⟨body, lexed₄⟩ := readBody.spelt lexed₃
    refine ⟨fun around => ?_, lexed₄⟩
    rw [lexed.ahead_fixed word (by decide), name, more, lexed₂.ahead_fixed inKw (by decide),
      iterators, body, words_close]
    simp [Kind.map, Kind.words, TokenKind.scopes, commaWords, moreWords]

/-- The sign of a compound assignment. -/
theorem ahead_assignSign {op : BinaryOp} (lexed : c.Lexed)
    (sign : c.current.kind.assignOp? = some op) (around : List Scope) :
    c.ahead around = op.assignToken?.toList.map fixed ++ c.advance.ahead around := by
  have token := assignToken?_of_assignOp? sign
  generalize front : c.current.kind = kind at token
  have kept : isKept kind = true ∧ kind.scopes around = around := by
    cases op <;> cases token <;> exact ⟨by decide, rfl⟩
  rw [lexed.ahead_fixed front kept.1, kept.2, token]
  rfl

theorem ExpressionStatement.spelt (lexed : c.Lexed) (read : ExpressionStatement Traced c t c') :
    Passes c t.words c' ∧ c'.Lexed := by
  rcases read with ⟨readFirst, readMore, assign, -, readValues⟩ |
    ⟨readTarget, readMore, -, sign, -, readValue⟩ | ⟨readExpression, readMore, -, -, -⟩
  · obtain ⟨first, lexed₁⟩ := readFirst.spelt lexed
    obtain ⟨more, lexed₂⟩ := readMore.2 lexed₁
    obtain ⟨-, values, lexed₃⟩ := readValues.2 lexed₂.advance
    refine ⟨fun around => ?_, lexed₃⟩
    rw [first, more, lexed₂.ahead_fixed assign (by decide), values, words_close]
    simp [Kind.map, Kind.words, TokenKind.scopes, commaWords, moreWords]
  · obtain ⟨target, lexed₁⟩ := readTarget.spelt lexed
    obtain ⟨more, lexed₂⟩ := readMore.2 lexed₁
    obtain ⟨value, lexed₃⟩ := readValue.2 lexed₂.advance
    refine ⟨fun around => ?_, lexed₃⟩
    rw [target, more, ahead_assignSign lexed₂ sign, value, words_close]
    simp [Kind.map, Kind.words, moreWords]
  · obtain ⟨expression, lexed₁⟩ := readExpression.spelt lexed
    obtain ⟨more, lexed₂⟩ := readMore.2 lexed₁
    refine ⟨fun around => ?_, lexed₂⟩
    rw [expression, more, words_close]
    rfl

theorem Statement.spelt (lexed : c.Lexed) (read : Statement Traced c t c') :
    Passes c t.words c' ∧ c'.Lexed := by
  cases read with
  | localStatement start read => exact read.spelt lexed start
  | function start read => exact read.spelt lexed start
  | returning start read => exact read.spelt lexed start
  | breaking start =>
    refine ⟨fun around => ?_, lexed.advance⟩
    rw [lexed.ahead_fixed start (by decide), words_leaf]
    rfl
  | continuing start =>
    refine ⟨fun around => ?_, lexed.advance⟩
    rw [lexed.ahead_fixed start (by decide), words_leaf]
    rfl
  | doBlock start read => exact read.spelt lexed start
  | ifChain start read => exact read.spelt lexed start
  | whileLoop start read => exact read.spelt lexed start
  | repeatLoop start read => exact read.spelt lexed start
  | forLoop start read => exact read.spelt lexed start
  | expression start read => exact read.spelt lexed

theorem words_withComments (leading trailing : List Comment) (t : SourceTree) :
    (t.withComments leading trailing).words = t.words := by
  obtain ⟨m, kind⟩ := t
  exact (Tree.words_node _ _).trans (Tree.words_node _ _).symm

theorem Statements.spelt (lexed : c.Lexed) (read : Statements Traced c ts c') :
    PassesLines c (ts.map Tree.words).flatten c' ∧ c'.Lexed := by
  rcases read with stop | ⟨start, readStatement, -, readMore⟩
  · exact ⟨fun around _ => rfl, lexed⟩
  · obtain ⟨statement, lexed₁⟩ := readStatement.2 lexed.afterLeading
    obtain ⟨more, lexed₂⟩ := readMore.2 (lexed₁.skip .semicolon).afterTrailing
    refine ⟨fun around outside => ?_, lexed₂⟩
    have first := statement around
    have rest := more around outside
    -- taking comments from the cursor changes no word in front of it
    change c.ahead around = _ at first
    change (Cursor.skip _ .semicolon).ahead around = _ at rest
    rw [first, lexed₁.ahead_skip outside, rest, List.map_cons, words_withComments,
      List.flatten_cons, List.append_assoc]

theorem Block.spelt (lexed : c.Lexed) (read : Block Traced c t c') :
    PassesLines c t.words c' ∧ c'.Lexed := by
  obtain ⟨readAll⟩ := read
  obtain ⟨all, lexed⟩ := readAll.2 lexed
  refine ⟨fun around outside => ?_, lexed.afterLeading⟩
  rw [all around outside, Tree.words_node]
  rfl

end Statements

/-- Every rule reads the words of what it yields. -/
theorem derives_spelt {α : Type} {rule : Rule α} {c c' : Cursor} {a : α} (ends : c.EndsFile)
    (read : Derives α rule c a c') : Spelt α rule c a c' := by
  refine Derives.induct ?_ ends read
  intro α rule c c' a _ step
  change Step Traced α rule c a c' at step
  cases rule with
  | block => exact fun lexed => Block.spelt lexed step
  | statements => exact fun lexed => Statements.spelt lexed step
  | statement => exact fun lexed => Statement.spelt lexed step
  | elseIfs => exact fun lexed => ElseIfs.spelt lexed step
  | moreTargets => exact fun lexed => MoreTargets.spelt lexed step
  | moreNames cause => exact fun lexed => MoreNames.spelt lexed step
  | dottedName head => exact fun lexed => DottedName.spelt lexed step
  | expressions => exact fun lexed => Expressions.spelt lexed step
  | moreExpressions => exact fun lexed => MoreExpressions.spelt lexed step
  | expression level => exact fun lexed => Ladder.spelt lexed step
  | operators level left => exact Operators.spelt step
  | suffixes head => exact Suffixes.spelt step
  | fields => exact Fields.spelt step
  | parameters => exact fun lexed => Parameters.spelt lexed step

end Grammar

namespace Cursor

theorem words_facing (last : Span) (place : Place) (pieces : List Piece) :
    (facing last place pieces).words = Piece.words pieces ++ [(.eof, "")] := by
  induction pieces generalizing place with
  | nil => rfl
  | cons piece pieces ih =>
    have rest := ih (place.after piece.chars)
    cases piece with
    | token kind lexeme => exact congrArg ((kind, String.ofList lexeme) :: ·) rest
    | blank | lineComment | blockComment => exact rest

theorem stop_facing (last : Span) (place : Place) (pieces : List Piece) :
    (facing last place pieces).stop.word = (.eof, "") := by
  induction pieces generalizing place with
  | nil => rfl
  | cons piece pieces ih => cases piece <;> exact ih _

/-- At the end of the file nothing is left. -/
theorem Lexed.words_eof {c : Cursor} (lexed : c.Lexed) (stop : c.current.kind = .eof) :
    c.words = [c.stop.word] := by
  obtain ⟨rest, last, stop, comments⟩ := c
  cases rest with
  | nil => rfl
  | cons token rest =>
    have genuine := lexed.tokens token (List.mem_cons_self ..)
    rw [show token.kind = .eof from stop] at genuine
    exact absurd genuine (Piece.not_genuine_eof _)

end Cursor

/-- The tokens of a text, whatever their places. -/
theorem words_tokenize (source : String) :
    (tokenize source).map Token.word = Piece.words (Piece.cut source.toList) ++ [(.eof, "")] := by
  rw [tokenize, Scan.ofSource, Cursor.ofPieces_eq default]
  exact Cursor.words_facing _ _ _

/-- A whole program has the words of its tree. -/
theorem Grammar.Chunk.spelt {c c' : Cursor} {t : SourceTree} (lexed : c.Lexed)
    (read : Chunk Derives c t c') : c.ahead [] = t.words ++ [c.stop.word] := by
  obtain ⟨readBody, stop⟩ := read
  obtain ⟨body, lexed'⟩ := derives_spelt lexed.ends readBody lexed
  have ends : c'.stop.kind = .eof := lexed'.ends
  rw [body [] (by simp), Cursor.ahead, lexed'.words_eof stop, Token.word, ends,
    normalize_cons (by decide) (by decide), ← ends, ← Token.word,
    (readBody.shortens lexed.ends).stop, Tree.words_node]
  rfl

/-- In normal form, the words of a program are those of its tree. -/
theorem normalize_of_parse {source : String} {t : SourceTree}
    (terminated : isTerminated source = true) (parsed : parse source = .ok t) :
    normalize [] ((tokenize source).map Token.word) = t.words ++ [(.eof, "")] := by
  obtain ⟨last, start⟩ := Cursor.exists_facing_cut source
  obtain ⟨c', readChunk⟩ := parseTokens_ok_iff.mp parsed
  rw [start] at readChunk
  have lexed := Cursor.lexed_facing_cut (List.all_eq_true.mp terminated) last .start
  have ahead := readChunk.spelt lexed
  rwa [Cursor.ahead, Cursor.words_facing, Cursor.stop_facing, ← words_tokenize] at ahead

/-- What a layout without semicolons and comments writes has the words of the tree. -/
theorem words_render {o : Layout} (blank : o.IsBlank) (semicolons : o.semicolons = false)
    (comments : o.comments = false) {t : SourceTree} (formed : Writable .chunk t) :
    (tokenize (t.render o)).map Token.word = t.words ++ [(.eof, "")] ∧
      (Scan.ofSource (t.render o)).comments = [] := by
  have read : Piece.cut (t.render o).toList = o.pieces t := by
    rw [Tree.render, String.toList_ofList, Layout.cut_pieces blank formed]
  have spelt := Layout.spells semicolons comments formed 0
  constructor
  · rw [words_tokenize, read, Layout.pieces, spelt.words]
  · have notes := Cursor.notes_facing default .start (o.pieces t)
    rw [Layout.pieces, spelt.notes, List.map_eq_nil_iff] at notes
    rw [Scan.ofSource, read, Cursor.ofPieces_eq default]
    exact notes

open Arena

/-- Writing a parsed program without semicolons and comments gives a text with the tokens of the
source in normal form, and without comments. -/
theorem tokenize_render_parse {source : String} {t : SourceTree}
    (terminated : isTerminated source = true) (parsed : parse source = .ok t) {o : Layout}
    (blank : o.IsBlank) (semicolons : o.semicolons = false) (comments : o.comments = false) :
    ∃ r, (ofTree t).root = some r ∧
      (tokenize ((ofTree t).render r o)).map Token.word =
        normalize [] ((tokenize source).map Token.word) ∧
      (Scan.ofSource ((ofTree t).render r o)).comments = [] := by
  have written := words_render blank semicolons comments (writable_of_parse terminated parsed)
  refine ⟨top t, root_ofTree t, ?_⟩
  rw [render, tree_ofTree, normalize_of_parse terminated parsed]
  exact written

/-- Semicolons go, or become commas, and the last separator of the table goes too. -/
theorem tokenize_render_parse_separators :
    ∃ t r, parse "t = \x7b1; - -2; 'c',\x7d; -- d\nf(a, b);" = .ok t ∧
      (ofTree t).root = some r ∧
      (tokenize ((ofTree t).render r { comments := false })).map Token.word =
        normalize [] ((tokenize "t = \x7b1; - -2; 'c',\x7d; -- d\nf(a, b);").map Token.word) ∧
      (Scan.ofSource ((ofTree t).render r { comments := false })).comments = [] ∧
      (normalize [] ((tokenize "t = \x7b1; - -2; 'c',\x7d; -- d\nf(a, b);").map
        Token.word)).map Prod.snd =
        ["t", "=", "\x7b", "1", ",", "-", "-", "2", ",", "'c'", "\x7d", "f", "(", "a", ",", "b",
          ")", ""] := by
  obtain ⟨t, parsed⟩ : ∃ t, parse "t = \x7b1; - -2; 'c',\x7d; -- d\nf(a, b);" = .ok t :=
    exists_parse (by decide +kernel)
  obtain ⟨r, root, same, none⟩ := tokenize_render_parse (by decide +kernel) parsed
    (o := { comments := false }) (by decide) rfl rfl
  exact ⟨t, r, parsed, root, same, none, by decide +kernel⟩

end LuaTree
