import LuaTree.Proofs.Enclosure
import LuaTree.Proofs.OpenEnds

/-!
# Hyphens

Two hyphens begin a comment, so what is written with two hyphens side by side is
not read as it is meant. That some are lost shows in their number: the words of a
tree that is read have no more hyphens than the words of the text
(`hyphens_le_of_parse`), and a text with a comment has more hyphens than its words
(`hyphens_lt_of_comment`). Parentheses do not change the number
(`Tree.hyphens_eraseParens`).
-/

namespace LuaTree

/-- The number of hyphens in the texts of words. -/
def hyphens (words : List Word) : Nat :=
  (words.flatMap (·.2.toList)).count '-'

@[simp] theorem hyphens_nil : hyphens [] = 0 :=
  rfl

@[simp] theorem hyphens_cons (word : Word) (words : List Word) :
    hyphens (word :: words) = word.2.toList.count '-' + hyphens words :=
  List.count_append

@[simp] theorem hyphens_append (words more : List Word) :
    hyphens (words ++ more) = hyphens words + hyphens more := by
  rw [hyphens, List.flatMap_append, List.count_append, hyphens, hyphens]

@[simp] theorem hyphens_flatten (parts : List (List Word)) :
    hyphens parts.flatten = (parts.map hyphens).sum := by
  induction parts with
  | nil => rfl
  | cons part parts ih => simp [ih]

@[simp] theorem hyphens_commaWords (parts : List (List Word)) :
    hyphens (commaWords parts) = (parts.map hyphens).sum := by
  have noHyphen : (fixed .comma).2.toList.count '-' = 0 := by decide
  have behind : hyphens (parts.flatMap (fixed .comma :: ·)) = (parts.map hyphens).sum := by
    induction parts with
    | nil => rfl
    | cons part parts ih => simp [ih, noHyphen]
  cases parts with
  | nil => rfl
  | cons part parts => simpa [commaWords, noHyphen] using behind

@[simp] theorem hyphens_replicate (n : Nat) :
    hyphens (List.replicate n (fixed .minus)) = n := by
  have hyphen : (fixed .minus).2.toList.count '-' = 1 := by decide
  induction n with
  | zero => rfl
  | succ n ih => rw [List.replicate_succ, hyphens_cons, hyphen, ih, Nat.add_comm]

/-- The hyphens of a node are its own and as many as its children have. -/
theorem Kind.hyphens_words (k : Kind (List Word)) : hyphens k.words =
    hyphens (k.map fun words => List.replicate (hyphens words) (fixed .minus)).words := by
  cases k
  case access style t key => cases style <;> simp [map, words]
  case field style key e => cases style <;> cases key <;> simp [map, words]
  case localNames ns vs => cases vs <;> simp [map, words, Function.comp_def]
  case ifChain e b clauses branch => cases branch <;> simp [map, words, Function.comp_def]
  case numericFor n e₁ e₂ e₃ b => cases e₃ <;> simp [map, words]
  all_goals simp [map, words, Function.comp_def]

theorem Kind.hyphens_words_congr {α : Type} {f g : α → List Word} {k : Kind α}
    (same : ∀ c ∈ k.children, hyphens (f c) = hyphens (g c)) :
    hyphens (k.map f).words = hyphens (k.map g).words := by
  have parts : (k.map f).map hyphens = (k.map g).map hyphens := by
    rw [Kind.map_map, Kind.map_map]
    exact Kind.map_congr k same
  have tally (k : Kind (List Word)) : hyphens k.words =
      hyphens ((k.map hyphens).map fun n => List.replicate n (fixed .minus)).words := by
    rw [Kind.hyphens_words, Kind.map_map]
    rfl
  rw [tally, tally (k.map g), parts]

/-- Parentheses have no hyphens. -/
theorem Tree.hyphens_eraseParens {ι : Type} (t : Tree ι) :
    hyphens t.eraseParens.words = hyphens t.words := by
  induction t using Tree.induct with
  | step m k ih =>
    rcases eraseParens_cases m k with ⟨e, rfl, erased⟩ | ⟨-, erased⟩
    · have noHyphen : (fixed .lParen).2.toList.count '-' = 0 ∧
          (fixed .rParen).2.toList.count '-' = 0 := by decide
      rw [erased, ih e (List.mem_singleton_self _), words_node]
      simp [Kind.map, Kind.words, noHyphen]
    · rw [erased, words_node, words_node, Kind.map_map]
      exact Kind.hyphens_words_congr ih

/-- Normal forms have no more hyphens. -/
theorem hyphens_normalize_le (around : List Scope) (words : List Word) :
    hyphens (normalize around words) ≤ hyphens words := by
  have separator (words : List Word) : hyphens (separator words) = 0 := by
    unfold LuaTree.separator
    split <;> decide
  fun_induction normalize around words with
  | case1 => exact Nat.le_refl _
  | case2 around lexeme words ih =>
    rw [hyphens_append, separator, hyphens_cons]
    omega
  | case3 around lexeme words ih =>
    rw [hyphens_append, hyphens_cons]
    split
    · rw [separator]
      omega
    · rw [hyphens_nil]
      omega
  | case4 around kind lexeme words _ _ ih =>
    rw [hyphens_cons, hyphens_cons]
    omega

namespace Piece

/-- The words of a text have no other hyphens than the text. -/
theorem hyphens_words_le (pieces : List Piece) :
    hyphens (words pieces) ≤ (textOf pieces).count '-' := by
  induction pieces with
  | nil => exact Nat.le_refl _
  | cons piece pieces ih =>
    rw [textOf_cons, List.count_append]
    cases piece with
    | token kind lexeme =>
      rw [words_token, hyphens_cons, String.toList_ofList]
      exact Nat.add_le_add_left ih _
    | blank | lineComment | blockComment => exact Nat.le_add_left_of_le ih

/-- A comment has hyphens. -/
theorem hyphens_lt_of_comment {pieces : List Piece} {comment : Piece} (member : comment ∈ pieces)
    (isComment : comment.note?.isSome = true) :
    hyphens (words pieces) < (textOf pieces).count '-' := by
  obtain ⟨front, back, rfl⟩ := List.append_of_mem member
  have before := hyphens_words_le front
  have behind := hyphens_words_le back
  have silent : words (comment :: back) = words back := by
    cases comment with
    | blank | token => cases isComment
    | lineComment | blockComment => rfl
  have hyphen : 0 < comment.chars.count '-' := by
    refine List.count_pos_iff.mpr ?_
    cases comment with
    | blank | token => cases isComment
    | lineComment | blockComment => exact List.mem_cons_self ..
  rw [words_append, hyphens_append, silent, textOf_append, textOf_cons, List.count_append,
    List.count_append]
  omega

end Piece

namespace Token

/-- The token, with its quote behind it if it is a string that is open. -/
def completed (t : Token) : Token :=
  if (Piece.token t.kind t.lexeme.toList).isTerminated then t
  else { t with lexeme := String.ofList (t.lexeme.toList ++ t.lexeme.toList.take 1) }

/-- A token that can stand for another that may be open. -/
structure Completes (t u : Token) : Prop where
  genuine : Piece.Genuine (.token u.kind u.lexeme.toList)
  alike : t.Alike .clear u
  hyphens : u.lexeme.toList.count '-' = t.lexeme.toList.count '-'

/-- A string that does not dangle is the same literal with its quote behind it. -/
theorem completes_completed {t : Token} {text : List Char}
    (member : .token t.kind t.lexeme.toList ∈ Piece.cut text)
    (plain : (Piece.token t.kind t.lexeme.toList).dangles = false) : t.Completes t.completed := by
  unfold completed
  split
  · next terminated =>
    exact ⟨Piece.genuine_of_mem_cut member terminated, ⟨rfl, fun _ => rfl, rfl, rfl, rfl⟩, rfl⟩
  · next unclosed =>
    have unclosed := Bool.eq_false_iff.mpr unclosed
    obtain ⟨front, split, -⟩ := Piece.exists_cut_of_open member unclosed
    obtain ⟨quote, text, kind, lexeme, isQuote, quotable, literal⟩ :=
      Piece.open_string t (Piece.fits_of_cut split) unclosed
    rw [Piece.dangles, unclosed, lexeme, Bool.not_false, Bool.true_and,
      Piece.endsInEscape_cons (isQuote_ne_backslash isQuote)] at plain
    rw [plain, Bool.not_false] at quotable
    have noHyphen : quote ≠ '-' := by
      rintro rfl
      exact absurd isQuote (by decide)
    have written : t.lexeme.toList ++ t.lexeme.toList.take 1 = quote :: text ++ [quote] := by
      rw [lexeme]
      rfl
    rw [written]
    refine ⟨?_, ⟨rfl, fun name => absurd (kind.symm.trans name) (by decide), ?_, rfl, rfl⟩, ?_⟩
    · rw [kind, String.toList_ofList]
      exact .string isQuote quotable
    · have isToken : (⟨String.ofList text, .string quote⟩ : Literal).IsToken :=
        ⟨isQuote, by rwa [String.toList_ofList]⟩
      rw [literal, literal?_of_isToken isToken]
      simp [Layout.literal, kind]
    · rw [String.toList_ofList, lexeme, List.count_append]
      simp [noHyphen]

end Token

namespace Cursor

/-- The cursor with completed tokens in front of it, and no comments. -/
def completed (c : Cursor) : Cursor :=
  { c with rest := c.rest.map Token.completed, comments := [] }

variable {c : Cursor} (complete : ∀ t ∈ c.rest, t.Completes t.completed)

include complete

theorem lexed_completed (ends : c.EndsFile) : c.completed.Lexed := by
  refine ⟨ends, fun token member => ?_, nofun, .nil⟩
  obtain ⟨t, inside, rfl⟩ := List.mem_map.mp member
  exact (complete t inside).genuine

theorem abreast_completed (ends : c.EndsFile) :
    ∃ pairs, c.Abreast .clear pairs c.completed := by
  have aligned (ts : List Token) (complete : ∀ t ∈ ts, t.Completes t.completed) (last : Span) :
      Aligned .clear last last ts (ts.map Token.completed) := by
    induction ts generalizing last with
    | nil => exact .nil
    | cons t ts ih =>
      obtain ⟨here, others⟩ := List.forall_mem_cons.mp complete
      have span : t.completed.span = t.span := by
        unfold Token.completed
        split <;> rfl
      refine .cons here.alike (fun _ => ?_) ?_
      · rw [span]
      · rw [span]
        exact ih others t.span
  exact ⟨_, ends, ends, aligned _ complete _, List.suffix_refl _, ⟨rfl, rfl⟩, ⟨rfl, rfl⟩⟩

theorem hyphens_completed : hyphens c.completed.words = hyphens c.words := by
  have same (ts : List Token) (complete : ∀ t ∈ ts, t.Completes t.completed) :
      hyphens ((ts.map Token.completed).map Token.word) = hyphens (ts.map Token.word) := by
    induction ts with
    | nil => rfl
    | cons t ts ih =>
      obtain ⟨here, others⟩ := List.forall_mem_cons.mp complete
      simp only [List.map_cons, hyphens_cons, ih others]
      exact congrArg (· + _) here.hyphens
  simp only [words, List.map_append, hyphens_append]
  rw [completed, same _ complete]

end Cursor

open Grammar

/-- A program has the words of its completed tokens. -/
theorem Grammar.Chunk.spelt_completed {c c' : Cursor} {t : SourceTree} (ends : c.EndsFile)
    (complete : ∀ t ∈ c.rest, t.Completes t.completed) (read : Chunk Derives c t c') :
    c.completed.ahead [] = t.words ++ [c.stop.word] := by
  obtain ⟨pairs, abreast⟩ := Cursor.abreast_completed complete ends
  obtain ⟨readBody, stop⟩ := read
  obtain ⟨body, d', readBody', same, abreast'⟩ :=
    exists_derives_abreast abreast RulesAgree.block readBody
  have read' := Chunk.intro readBody' (abreast'.current.kind ▸ stop)
  rw [read'.spelt (Cursor.lexed_completed complete ends), Tree.words_node, Tree.words_node]
  refine congrArg (· ++ [c.stop.word]) ?_
  rw [Blur.Same, Tree.blurred_clear, Tree.blurred_clear] at same
  simp only [Kind.map, Kind.words]
  rw [← Tree.words_unmarked, ← same, Tree.words_unmarked]

/-- Reading adds no hyphens. -/
theorem hyphens_le_of_parse {source : String} {t : SourceTree} (closes : dangles source = false)
    (parsed : parse source = .ok t) :
    hyphens t.words ≤ hyphens (Piece.words (Piece.cut source.toList)) := by
  obtain ⟨last, start⟩ := Cursor.exists_facing_cut source
  obtain ⟨c', read⟩ := parseTokens_ok_iff.mp parsed
  rw [start] at read
  have complete : ∀ token ∈ (Cursor.facing last .start (Piece.cut source.toList)).rest,
      token.Completes token.completed := fun token member =>
    have inside := Cursor.mem_of_mem_rest member
    Token.completes_completed inside (dangles_eq_false_iff.mp closes _ inside)
  have spelt := read.spelt_completed (Cursor.facing_endsFile _ _ _) complete
  have most := hyphens_normalize_le []
    (Cursor.facing last .start (Piece.cut source.toList)).completed.words
  rw [Cursor.hyphens_completed complete, Cursor.words_facing, ← Cursor.ahead, spelt,
    Cursor.stop_facing, hyphens_append, hyphens_append] at most
  exact Nat.add_le_add_iff_right.mp most

end LuaTree
