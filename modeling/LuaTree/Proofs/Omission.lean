import LuaTree.Proofs.Enclosure
import LuaTree.Proofs.OpenEnds

/-!
# Parentheses left out

Marked operands are written in parentheses that are to be left out, if they need any
(`Layout.sparing`). The pieces have the text that is written without marks. What
remains of them spells the words of the tree that has no parentheses there
(`Tree.keeping`), and no piece of it runs into the next, except that two hyphens may
come together and begin a comment (`Layout.spared`).

The tree that is left is the same without any parentheses. If a marked operand needs
parentheses, it does not keep to the levels (`Tree.not_keepsLevels_of_omits`).
-/

namespace LuaTree

open Piece

namespace Piece

/-- A parenthesis that is to be left out. -/
def omitted (kind : TokenKind) : Piece :=
  .token .unknown kind.spelling.toList

def isOmitted : Piece → Bool
  | .token .unknown _ => true
  | _ => false

/-- The pieces that are not left out. -/
def remaining (pieces : List Piece) : List Piece :=
  pieces.filter fun piece => !piece.isOmitted

end Piece

/-- The fragment in parentheses that are to be left out. It is given no others. -/
def Fragment.loosened (f : Fragment) : Fragment :=
  ⟨.closed, fun depth => omitted .lParen :: f.write depth ++ [omitted .rParen]⟩

/-- Replace every child. What replaces an operand may depend on the test by which its place asks
for parentheses. -/
def Kind.mapOperands {α β : Type} (operand : (Grip → Bool) → α → β) (other : α → β) :
    Kind α → Kind β
  | .binary op l r =>
    .binary op (operand (·.needsParens op false) l) (operand (·.needsParens op true) r)
  | .unary op e => .unary op (operand Grip.isLooseBinary e)
  | .functionCall f args => .functionCall (operand Grip.needsPrefixParens f) (args.map other)
  | .methodCall e n args =>
    .methodCall (operand Grip.needsPrefixParens e) (other n) (args.map other)
  | .access style t key => .access style (operand Grip.needsPrefixParens t) (other key)
  | kind => kind.map other

/-- The operands of a node, each with the test by which its place asks for parentheses. -/
def Kind.operands {α : Type} : Kind α → List ((Grip → Bool) × α)
  | .binary op l r => [((·.needsParens op false), l), ((·.needsParens op true), r)]
  | .unary _ e => [(Grip.isLooseBinary, e)]
  | .functionCall f _ => [(Grip.needsPrefixParens, f)]
  | .methodCall e _ _ => [(Grip.needsPrefixParens, e)]
  | .access _ t _ => [(Grip.needsPrefixParens, t)]
  | _ => []

namespace Layout

/-- An operand, in parentheses that are to be left out if it is marked and needs parentheses. -/
def loosen (test : Grip → Bool) (operand : Bool × Fragment) : Fragment :=
  if operand.1 && test operand.2.grip then operand.2.loosened else operand.2

/-- A tree as a fragment in which the parentheses that are put around marked nodes are to be left
out, and whether the tree is marked itself. -/
def sparing (o : Layout) : Tree (Origin × Bool) → Bool × Fragment :=
  Tree.fold fun m kind => (m.2, o.node m.1 (kind.mapOperands loosen Prod.snd))

end Layout

namespace Tree

/-- An operand, in parentheses if it needs them and is not marked. -/
def keep (test : Grip → Bool) (operand : Bool × SourceTree) : SourceTree :=
  operand.2.parenIf (!operand.1 && test operand.2.grip)

/-- The tree with parentheses around the operands that need them and are not marked, and whether it
is marked itself. -/
def keeping : Tree (Origin × Bool) → Bool × SourceTree :=
  fold fun m kind => (m.2, .node m.1 (kind.mapOperands keep Prod.snd))

/-- Some marked operand needs parentheses. -/
inductive Omits : Tree (Origin × Bool) → Prop
  | here {m : Origin × Bool} {k : Kind (Tree (Origin × Bool))} {test : Grip → Bool}
      {c : Tree (Origin × Bool)} (operand : (test, c) ∈ k.operands) (marked : c.mark.2 = true)
      (needed : test c.grip = true) : Omits (.node m k)
  | child {m : Origin × Bool} {k : Kind (Tree (Origin × Bool))} {c : Tree (Origin × Bool)}
      (member : c ∈ k.children) (omits : Omits c) : Omits (.node m k)

end Tree

namespace Piece

/-- Every piece fits before what follows it, unless it is a hyphen before another. -/
def Nearly : List Piece → List Char → Prop
  | [], _ => True
  | piece :: pieces, rest =>
    (piece.Fits (textOf pieces ++ rest) ∨
      piece = Layout.word .minus ∧ (textOf pieces ++ rest).head? = some '-') ∧ Nearly pieces rest

theorem nearly_append {pieces more : List Piece} {rest : List Char} :
    Nearly (pieces ++ more) rest ↔ Nearly pieces (textOf more ++ rest) ∧ Nearly more rest := by
  induction pieces with
  | nil => simp [Nearly]
  | cons piece pieces ih => simp [Nearly, ih, textOf_append, and_assoc]

theorem nearly_of_apart {pieces : List Piece} {rest : List Char} (apart : Apart pieces rest) :
    Nearly pieces rest := by
  induction pieces with
  | nil => trivial
  | cons piece pieces ih => exact ⟨.inl apart.1, ih apart.2⟩

/-- Two hyphens begin a comment. -/
theorem exists_comment_of_hyphens {text : List Char} (hyphen : text.head? = some '-') :
    ∃ piece ∈ cut ('-' :: text), piece.note?.isSome = true := by
  obtain ⟨rest, rfl⟩ := List.head?_eq_some_iff.mp hyphen
  rw [cut_cons]
  refine ⟨_, List.mem_cons_self .., ?_⟩
  have plain : Text.isBlank '-' = false := by decide
  unfold first
  rw [if_neg (by simp [plain])]
  split
  · rfl
  · rfl
  · next noBlock noLine => exact absurd rfl (noLine rest rfl)

/-- Pieces that are nearly apart are apart, or their text has a comment. -/
theorem apart_or_exists_comment {pieces : List Piece} {rest : List Char}
    (near : Nearly pieces rest) :
    Apart pieces rest ∨ ∃ piece ∈ cut (textOf pieces ++ rest), piece.note?.isSome = true := by
  induction pieces with
  | nil => exact .inl trivial
  | cons piece pieces ih =>
    obtain ⟨fits | ⟨rfl, hyphen⟩, near⟩ := near
    · rcases ih near with apart | ⟨comment, inside, isComment⟩
      · exact .inl ⟨fits, apart⟩
      · refine .inr ⟨comment, ?_, isComment⟩
        rw [textOf_cons, List.append_assoc, fits]
        exact List.mem_cons_of_mem _ inside
    · exact .inr (exists_comment_of_hyphens hyphen)

end Piece

namespace Layout

section Matches

variable {marked written marked' written' : List Piece} {words words' : List Word}

/-- Marked pieces that have the text of those that are written, and what they spell without the
parentheses that are left out. -/
structure Matches (marked written : List Piece) (words : List Word) : Prop where
  text : textOf marked = textOf written
  plain : remaining written = written
  spell : Spell (remaining marked) words

theorem remaining_append (pieces more : List Piece) :
    remaining (pieces ++ more) = remaining pieces ++ remaining more :=
  List.filter_append ..

theorem Matches.append (first : Matches marked written words)
    (second : Matches marked' written' words') :
    Matches (marked ++ marked') (written ++ written') (words ++ words') where
  text := by rw [textOf_append, textOf_append, first.text, second.text]
  plain := by rw [remaining_append, first.plain, second.plain]
  spell := by
    rw [remaining_append]
    exact first.spell.append second.spell

theorem matches_nil : Matches [] [] [] :=
  ⟨rfl, rfl, spell_nil⟩

theorem Matches.space (later : Matches marked written words) :
    Matches (space :: marked) (space :: written) words :=
  ⟨congrArg (' ' :: ·) later.text, congrArg (Layout.space :: ·) later.plain, later.spell.space⟩

theorem remaining_word {kind : TokenKind} (known : kind ≠ .unknown) (pieces : List Piece) :
    remaining (word kind :: pieces) = word kind :: remaining pieces := by
  refine List.filter_cons_of_pos ?_
  cases kind
  case unknown => exact absurd rfl known
  all_goals rfl

theorem Matches.word {kind : TokenKind} (later : Matches marked written words)
    (known : kind ≠ .unknown) :
    Matches (word kind :: marked) (word kind :: written) (fixed kind :: words) where
  text := by rw [textOf_cons, textOf_cons, later.text]
  plain := by rw [remaining_word known, later.plain]
  spell := by
    rw [remaining_word known]
    exact later.spell.word kind

theorem matches_spaced {kind : TokenKind} (known : kind ≠ .unknown) :
    Matches (spaced kind) (spaced kind) [fixed kind] :=
  (matches_nil.space.word known).space

theorem Matches.parenthesized (inner : Matches marked written words) :
    Matches (parenthesized marked) (parenthesized written)
      (fixed .lParen :: (words ++ [fixed .rParen])) :=
  (inner.append (matches_nil.word (by decide))).word (by decide)

/-- What is true of the pieces of an expression: without the parentheses that are left out they
begin with no equals sign, and no piece runs into the next, two hyphens apart. -/
structure Spares (marked written : List Piece) (words : List Word) : Prop
    extends Matches marked written words where
  start : ∃ c text, textOf (remaining marked) = c :: text ∧ c ≠ '='
  near : ∀ rest, Follows rest → Nearly (remaining marked) rest

/-- What begins with an expression and goes on behind it. -/
theorem Spares.append (first : Spares marked written words)
    (second : Matches marked' written' words')
    (behind : ∀ rest, Follows rest → Follows (textOf (remaining marked') ++ rest) ∧
      Nearly (remaining marked') rest) :
    Spares (marked ++ marked') (written ++ written') (words ++ words') where
  toMatches := first.toMatches.append second
  start := by
    obtain ⟨c, text, chars, noSign⟩ := first.start
    refine ⟨c, text ++ textOf (remaining marked'), ?_, noSign⟩
    rw [remaining_append, textOf_append, chars, List.cons_append]
  near rest follows := by
    obtain ⟨stops, later⟩ := behind rest follows
    rw [remaining_append]
    exact nearly_append.mpr ⟨first.near _ stops, later⟩

/-- A single piece. -/
theorem spares_singleton {piece : Piece} (stands : Stands fun _ => [piece])
    (plain : piece.isOmitted = false) (spell : Spell [piece] words) :
    Spares [piece] [piece] words := by
  obtain ⟨start, apart⟩ := stands 0
  have remains : remaining [piece] = [piece] := by simp [remaining, plain]
  refine ⟨⟨rfl, remains, ?_⟩, ?_, fun rest follows => ?_⟩
  · rwa [remains]
  · rwa [remains]
  · rw [remains]
    exact nearly_of_apart (apart rest follows)

theorem nearly_parenthesized {pieces : List Piece} {rest : List Char}
    (inner : Nearly pieces (')' :: rest)) : Nearly (parenthesized pieces) rest :=
  ⟨.inl (fits_solid (by decide) _),
    nearly_append.mpr ⟨inner, .inl (fits_solid (by decide) rest), trivial⟩⟩

theorem remaining_parenthesized (pieces : List Piece) :
    remaining (Layout.parenthesized pieces) = Layout.parenthesized (remaining pieces) := by
  rw [Layout.parenthesized, List.cons_append, remaining_word (by decide), remaining_append]
  rfl

theorem Spares.parenthesized (inner : Spares marked written words) :
    Spares (parenthesized marked) (parenthesized written)
      (fixed .lParen :: (words ++ [fixed .rParen])) where
  toMatches := inner.toMatches.parenthesized
  start := by
    rw [remaining_parenthesized]
    exact ⟨'(', _, rfl, by decide⟩
  near rest follows := by
    rw [remaining_parenthesized]
    exact nearly_parenthesized (inner.near _ (follows_of_stop (by decide) rest))

/-- Parentheses that are left out leave what is between them. -/
theorem Spares.loosened (inner : Spares marked written words) :
    Spares (omitted .lParen :: marked ++ [omitted .rParen]) (Layout.parenthesized written)
      words := by
  have remains : remaining (omitted .lParen :: marked ++ [omitted .rParen]) = remaining marked := by
    rw [List.cons_append, ← List.singleton_append, remaining_append, remaining_append]
    exact List.append_nil _
  refine ⟨⟨?_, inner.parenthesized.plain, ?_⟩, ?_, ?_⟩
  · simp only [Layout.parenthesized, List.cons_append, textOf_cons, textOf_append, inner.text]
    rfl
  · rw [remains]
    exact inner.spell
  · rw [remains]
    exact inner.start
  · rw [remains]
    exact inner.near

/-- An operand with its parentheses, if it needs any, and without them, if they are left out. -/
theorem Spares.operand {test : Grip → Bool} (closed : test .closed = false) {f : Bool × Fragment}
    {g : Fragment} {t : Bool × SourceTree} {depth : Nat} (marks : f.1 = t.1)
    (grips : f.2.grip = g.grip) (grips' : t.2.grip = g.grip)
    (operand : Spares (f.2.write depth) (g.write depth) t.2.words) :
    Spares (guarded (test (loosen test f).grip) (loosen test f) depth)
      (guarded (test g.grip) g depth) (Tree.keep test t).words := by
  unfold loosen Tree.keep Tree.parenIf
  rw [← grips] at grips' ⊢
  rw [grips', ← marks]
  cases needed : test f.2.grip with
  | false => simpa [guarded, needed] using operand
  | true =>
    cases f.1 with
    | true => simpa [guarded, Fragment.loosened, closed] using operand.loosened
    | false => simpa [guarded, needed, Tree.words_node, Kind.map, Kind.words] using
        operand.parenthesized

/-- Two expressions with a word between spaces between them. -/
theorem spares_spaced {kind : TokenKind} (known : kind ≠ .unknown)
    (isFixed : kind ∈ TokenKind.keywords ∨ kind ∈ TokenKind.symbols)
    (left : Spares marked written words) (right : Spares marked' written' words') :
    Spares (marked ++ spaced kind ++ marked') (written ++ spaced kind ++ written')
      (words ++ fixed kind :: words') := by
  have sign := matches_spaced known
  rw [List.append_assoc, List.append_assoc]
  refine left.append (sign.append right.toMatches) fun rest follows => ?_
  rw [remaining_append, sign.plain]
  refine ⟨follows_of_stop (by decide) _, nearly_append.mpr ⟨?_, right.near rest follows⟩⟩
  exact nearly_of_apart (apart_spaced isFixed _)

theorem spares_binary (op : BinaryOp) (left : Spares marked written words)
    (right : Spares marked' written' words') :
    Spares (marked ++ spaced op.token ++ marked') (written ++ spaced op.token ++ written')
      (words ++ fixed op.token :: words') :=
  spares_spaced (by cases op <;> decide) (by cases op <;> decide) left right

/-- Only the word `not` always has a space behind it. -/
theorem unaryGap_cases (op : UnaryOp) (operand : List Piece) :
    unaryGap op operand = [space] ∨ unaryGap op operand = [] ∧ op ≠ .not := by
  cases op with
  | not => exact .inl rfl
  | neg =>
    by_cases hyphen : (textOf operand).head? = some '-'
    · exact .inl (if_pos hyphen)
    · exact .inr ⟨if_neg hyphen, by decide⟩
  | len => exact .inr ⟨rfl, by decide⟩

theorem spares_unary (op : UnaryOp) (operand : Spares marked written words) :
    Spares (word op.token :: unaryGap op marked ++ marked)
      (word op.token :: unaryGap op written ++ written) (fixed op.token :: words) := by
  have known : op.token ≠ .unknown := by cases op <;> decide
  have isFixed : op.token ∈ TokenKind.keywords ∨ op.token ∈ TokenKind.symbols := by
    cases op <;> decide
  have start (pieces : List Piece) : ∃ c text,
      textOf (remaining (word op.token :: pieces)) = c :: text ∧ c ≠ '=' := by
    rw [remaining_word known]
    cases op <;> exact ⟨_, _, rfl, by decide⟩
  have gap : unaryGap op marked = unaryGap op written := by
    unfold unaryGap
    rw [operand.text]
  rw [gap]
  rcases unaryGap_cases op written with wide | ⟨none, noWord⟩
  · rw [wide]
    refine ⟨operand.toMatches.space.word known, start _, fun rest follows => ?_⟩
    rw [List.cons_append, remaining_word known]
    exact ⟨.inl (fits_word_space isFixed _), .inl (fits_space _), operand.near rest follows⟩
  · rw [none]
    refine ⟨operand.toMatches.word known, start _, fun rest follows => ?_⟩
    obtain ⟨c, text, chars, noSign⟩ := operand.start
    rw [List.cons_append, List.nil_append, remaining_word known]
    refine ⟨?_, operand.near rest follows⟩
    rw [chars]
    cases op with
    | not => exact absurd rfl noWord
    | len => exact .inl (fits_solid (by decide) _)
    | neg =>
      by_cases hyphen : c = '-'
      · exact .inr ⟨rfl, by rw [hyphen]; rfl⟩
      · refine .inl (fits_minus ?_)
        rintro d ⟨⟩
        exact ⟨hyphen, noSign⟩

/-- Fragments between commas. -/
theorem spares_commas {α : Type} {f g : α → Fragment} {spelt : α → List Word} {depth : Nat}
    {ts : List α} (each : ∀ t ∈ ts, Spares ((f t).write depth) ((g t).write depth) (spelt t)) :
    Matches (commas depth (ts.map f)) (commas depth (ts.map g)) (commaWords (ts.map spelt)) ∧
      ∀ rest, Follows rest → Nearly (remaining (commas depth (ts.map f))) rest := by
  induction ts with
  | nil => exact ⟨matches_nil, fun _ _ => trivial⟩
  | cons t ts ih =>
    obtain ⟨here, later⟩ := List.forall_mem_cons.mp each
    cases ts with
    | nil =>
      simp only [List.map_cons, List.map_nil, commas_singleton]
      simpa [commaWords] using And.intro here.toMatches here.near
    | cons u ts =>
      obtain ⟨matched, near⟩ := ih later
      have comma : Matches (word .comma :: space :: commas depth ((u :: ts).map f))
          (word .comma :: space :: commas depth ((u :: ts).map g))
          (fixed .comma :: commaWords ((u :: ts).map spelt)) := matched.space.word (by decide)
      have joined := here.append comma fun rest follows => by
        rw [remaining_word (by decide)]
        exact ⟨follows_of_stop (by decide) _, .inl (fits_solid (by decide) _), .inl (fits_space _),
          near rest follows⟩
      simp only [List.map_cons, commas_cons_cons]
      simpa [commaWords] using And.intro joined.toMatches joined.near

section Lists

variable {α : Type} {f g : α → Fragment} {spelt : α → List Word} {depth : Nat} {ts : List α}
  (each : ∀ t ∈ ts, Spares ((f t).write depth) ((g t).write depth) (spelt t))

include each

theorem matches_arguments :
    Matches (Layout.parenthesized (commas depth (ts.map f)))
      (Layout.parenthesized (commas depth (ts.map g)))
      (fixed .lParen :: (commaWords (ts.map spelt) ++ [fixed .rParen])) ∧
      ∀ rest, Nearly (remaining (Layout.parenthesized (commas depth (ts.map f)))) rest := by
  obtain ⟨matched, near⟩ := spares_commas each
  refine ⟨matched.parenthesized, fun rest => ?_⟩
  rw [remaining_parenthesized]
  exact nearly_parenthesized (near _ (follows_of_stop (by decide) rest))

theorem spares_call (callee : Spares marked written words) :
    Spares (marked ++ Layout.parenthesized (commas depth (ts.map f)))
      (written ++ Layout.parenthesized (commas depth (ts.map g)))
      (words ++ fixed .lParen :: (commaWords (ts.map spelt) ++ [fixed .rParen])) := by
  obtain ⟨matched, near⟩ := matches_arguments each
  refine callee.append matched fun rest _ => ⟨?_, near rest⟩
  rw [remaining_parenthesized]
  exact follows_of_stop (by decide) _

theorem spares_methodCall (receiver : Spares marked written words)
    (method : Spares marked' written' words') :
    Spares (marked ++ word .colon :: marked' ++ Layout.parenthesized (commas depth (ts.map f)))
      (written ++ word .colon :: written' ++ Layout.parenthesized (commas depth (ts.map g)))
      (words ++ fixed .colon :: (words' ++
        fixed .lParen :: (commaWords (ts.map spelt) ++ [fixed .rParen]))) := by
  obtain ⟨matched, near⟩ := matches_arguments each
  rw [List.append_assoc, List.append_assoc]
  refine receiver.append ((method.toMatches.append matched).word (by decide)) fun rest _ => ?_
  rw [List.cons_append, remaining_word (by decide), remaining_append]
  refine ⟨follows_of_stop (by decide) _, .inl (fits_solid (by decide) _),
    nearly_append.mpr ⟨?_, near rest⟩⟩
  rw [remaining_parenthesized]
  exact method.near _ (follows_of_stop (by decide) _)

theorem spares_table :
    Spares (word .lBrace :: commas depth (ts.map f) ++ [word .rBrace])
      (word .lBrace :: commas depth (ts.map g) ++ [word .rBrace])
      (fixed .lBrace :: (commaWords (ts.map spelt) ++ [fixed .rBrace])) := by
  obtain ⟨matched, near⟩ := spares_commas each
  have close : Matches [word .rBrace] [word .rBrace] [fixed .rBrace] :=
    matches_nil.word (by decide)
  refine ⟨(matched.append close).word (by decide), ?_, fun rest _ => ?_⟩
  · rw [List.cons_append, remaining_word (by decide)]
    exact ⟨'\x7b', _, rfl, by decide⟩
  · rw [List.cons_append, remaining_word (by decide), remaining_append, close.plain]
    refine ⟨.inl (fits_solid (by decide) _), nearly_append.mpr ⟨?_, ?_⟩⟩
    · exact near _ (follows_of_stop (by decide) rest)
    · exact ⟨.inl (fits_solid (by decide) rest), trivial⟩

end Lists

theorem spares_index (table : Spares marked written words)
    (key : Spares marked' written' words') :
    Spares (marked ++ word .lBracket :: marked' ++ [word .rBracket])
      (written ++ word .lBracket :: written' ++ [word .rBracket])
      (words ++ fixed .lBracket :: (words' ++ [fixed .rBracket])) := by
  have close : Matches [word .rBracket] [word .rBracket] [fixed .rBracket] :=
    matches_nil.word (by decide)
  rw [List.append_assoc, List.append_assoc]
  refine table.append ((key.toMatches.append close).word (by decide)) fun rest _ => ?_
  rw [List.cons_append, remaining_word (by decide), remaining_append, close.plain]
  refine ⟨follows_of_stop (by decide) _, .inl (fits_solid (by decide) _),
    nearly_append.mpr ⟨?_, .inl (fits_solid (by decide) rest), trivial⟩⟩
  exact key.near _ (follows_of_stop (by decide) rest)

theorem spares_identifier {name : String} (identifier : IsIdentifier name) :
    Spares [.token .identifier name.toList] [.token .identifier name.toList]
      [(.identifier, name)] :=
  spares_singleton (stands_identifier identifier) rfl ⟨by simp, rfl⟩

theorem spares_literal {l : Literal} (token : l.IsToken) :
    Spares [literal l] [literal l] (Piece.words [literal l]) := by
  refine spares_singleton (stands_literal token) ?_ (spell_literal l)
  obtain ⟨value, kind⟩ := l
  cases kind with
  | boolean =>
    simp only [literal]
    split <;> rfl
  | _ => rfl

theorem spares_member (table : Spares marked written words) {name : String}
    (identifier : IsIdentifier name) :
    Spares (marked ++ word .dot :: [.token .identifier name.toList])
      (written ++ word .dot :: [.token .identifier name.toList])
      (words ++ fixed .dot :: [(.identifier, name)]) := by
  have name : IsName fun _ => [.token .identifier name.toList] := ⟨_, identifier, rfl⟩
  have known : TokenKind.dot ≠ .unknown := by decide
  have point := (spares_identifier identifier).toMatches.word known
  refine table.append point fun rest follows => ?_
  obtain ⟨stops, apart⟩ := name.behind_dot 0 follows
  rw [point.plain]
  exact ⟨stops, nearly_of_apart apart⟩

theorem spares_bracketed (key : Spares marked written words)
    (value : Spares marked' written' words') :
    Spares (word .lBracket :: marked ++ word .rBracket :: spaced .assign ++ marked')
      (word .lBracket :: written ++ word .rBracket :: spaced .assign ++ written')
      (fixed .lBracket :: (words ++ fixed .rBracket :: fixed .assign :: words')) := by
  have sign : Matches (spaced .assign) (spaced .assign) [fixed .assign] :=
    matches_spaced (by decide)
  have known : TokenKind.rBracket ≠ .unknown := by decide
  have value' := (sign.append value.toMatches).word known
  simp only [List.cons_append, List.append_assoc]
  refine ⟨(key.toMatches.append value').word (by decide), ?_, fun rest follows => ?_⟩
  · rw [remaining_word (by decide)]
    exact ⟨'[', _, rfl, by decide⟩
  · rw [remaining_word (by decide), remaining_append, remaining_word (by decide), remaining_append,
      sign.plain]
    refine ⟨.inl (fits_solid (by decide) _), nearly_append.mpr
      ⟨key.near _ (follows_of_stop (by decide) _), .inl (fits_solid (by decide) _), ?_⟩⟩
    exact nearly_append.mpr ⟨nearly_of_apart (apart_spaced (by decide) _), value.near rest follows⟩

end Matches

end Layout

/-- The text of a name or literal is that of a token. -/
def Kind.IsLexical {α : Type} : Kind α → Prop
  | .identifier n => IsIdentifier n
  | .literal l => l.IsToken
  | _ => True

theorem WellFormed.everyLexical {P : Origin → Kind SourceTree → Prop} {role : Role}
    {t : SourceTree} (formed : WellFormed P role t) : t.Every Kind.IsLexical := by
  induction formed
  case plain ih => exact ih
  case function ih => exact ih
  case parameter ih => exact ih
  case ofName ih => exact ih
  case name identifier _ => exact .node identifier nofun
  case literal token _ => exact .node token nofun
  all_goals
    refine .node trivial ?_
    simp_all [Kind.children, or_imp]

theorem Kind.grip_mapOperands {α β : Type} (operand : (Grip → Bool) → α → β) (other : α → β)
    (k : Kind α) : (k.mapOperands operand other).grip = k.grip := by
  cases k <;> rfl

namespace Tree

theorem every_mapMark {ι κ : Type} {f : ι → κ} {p : Kind (Tree κ) → Prop} {q : Kind (Tree ι) → Prop}
    (same : ∀ k, p (k.map (mapMark f)) ↔ q k) (t : Tree ι) : (t.mapMark f).Every p ↔ t.Every q := by
  induction t using Tree.induct with
  | step m k ih =>
    rw [mapMark_node, every_node_iff, every_node_iff, same, Kind.children_map, List.forall_mem_map]
    exact and_congr_right fun _ => forall₂_congr ih

variable (m : Origin × Bool) (k : Kind (Tree (Origin × Bool))) (t : Tree (Origin × Bool))

theorem keeping_node :
    keeping (.node m k) = (m.2, .node m.1 ((k.map keeping).mapOperands keep Prod.snd)) :=
  fold_node _ _ _

theorem mark_keeping : t.keeping.1 = t.mark.2 := by
  obtain ⟨m, k⟩ := t
  rw [keeping_node]
  rfl

theorem grip_keeping : t.keeping.2.grip = t.grip := by
  obtain ⟨m, k⟩ := t
  rw [keeping_node]
  exact (Kind.grip_mapOperands _ _ _).trans (Kind.grip_map _ _)

end Tree

namespace Layout

variable {o : Layout}

theorem sparing_node (o : Layout) (m : Origin × Bool) (k : Kind (Tree (Origin × Bool))) :
    o.sparing (.node m k) =
      (m.2, o.node m.1 ((k.map o.sparing).mapOperands loosen Prod.snd)) :=
  Tree.fold_node _ _ _

theorem grip_sparing (o : Layout) (t : Tree (Origin × Bool)) : (o.sparing t).2.grip = t.grip := by
  obtain ⟨m, k⟩ := t
  rw [sparing_node, node_grip, Kind.grip_mapOperands, Kind.grip_map]
  rfl

theorem mark_sparing (o : Layout) (t : Tree (Origin × Bool)) : (o.sparing t).1 = t.keeping.1 := by
  obtain ⟨m, k⟩ := t
  rw [sparing_node, Tree.keeping_node]

theorem exists_identifier_of_stands {ι : Type} {t : Tree ι} (name : t.stands .name = true) :
    ∃ m n, t = .node m (.identifier n) := by
  obtain ⟨m, k⟩ := t
  have admits := Tree.admits_of_stands name
  cases k <;> first | (cases admits; done) | exact ⟨_, _, rfl⟩

/-- How a marked tree is written at a depth, with and without what is left out. -/
def Spared (o : Layout) (depth : Nat) (t : Tree (Origin × Bool)) : Prop :=
  Spares ((o.sparing t).2.write depth) ((o.fragment (t.mapMark Prod.fst)).write depth)
    t.keeping.2.words

theorem Spared.operand {t : Tree (Origin × Bool)} {depth : Nat} (spared : o.Spared depth t)
    (test : Grip → Bool) (closed : test .closed = false) :
    Spares (guarded (test (loosen test (o.sparing t)).grip) (loosen test (o.sparing t)) depth)
      (guarded (test (o.fragment (t.mapMark Prod.fst)).grip) (o.fragment (t.mapMark Prod.fst))
        depth)
      (Tree.keep test t.keeping).words := by
  have grip : (o.fragment (t.mapMark Prod.fst)).grip = t.grip := by
    obtain ⟨m, k⟩ := t
    rw [fragment_grip, Tree.mapMark_node]
    exact Kind.grip_map _ _
  refine Spares.operand closed (o.mark_sparing t) ?_ ?_ spared
  · rw [grip_sparing, grip]
  · rw [Tree.grip_keeping, grip]

theorem spared {t : Tree (Origin × Bool)} {slot : Slot} (operand : slot.isOperand = true)
    (stands : t.stands slot = true) (plain : t.hasFunction = false)
    (lexical : t.Every Kind.IsLexical) (depth : Nat) : o.Spared depth t := by
  refine Tree.operand_induct (motive := fun slot t =>
    t.stands slot = true → t.Every Kind.IsLexical → o.Spared depth t)
    ?_ operand stands plain stands lexical
  intro slot m k operand admits complete plain ih stands lexical
  obtain ⟨-, -, stand⟩ := Tree.stands_node_iff.mp stands
  obtain ⟨here, below⟩ := Tree.every_node_iff.mp lexical
  have child (other : Slot) (c : Tree (Origin × Bool)) (member : (other, c) ∈ slot.parts k) :
      c ∈ k.children := slot.map_snd_parts k ▸ List.mem_map_of_mem member
  have part (other : Slot) (c : Tree (Origin × Bool)) (member : (other, c) ∈ slot.parts k) :
      o.Spared depth c := ih _ member (stand _ member) (below c (child other c member))
  rw [Spared, sparing_node, Tree.mapMark_node, fragment_node, Tree.keeping_node, Tree.words_node]
  cases slot <;> try (cases operand; done)
  case name =>
    cases k <;> try (cases admits; done)
    case identifier n => exact spares_identifier here
  case field =>
    cases k <;> try (cases admits; done)
    case field style key e =>
      have value := part .expression e (by simp [Slot.parts])
      cases style <;> cases key <;> try (cases complete; done)
      case positional.none => exact value
      case named.some key =>
        have name := part .name key (by simp [Slot.parts])
        exact spares_spaced (by decide) (by decide) name value
      case bracketed.some key =>
        exact spares_bracketed (part .expression key (by simp [Slot.parts])) value
  case expression =>
    cases k <;> first | (cases admits; done) | (cases plain; done) | skip
    case identifier n => exact spares_identifier here
    case literal l => exact spares_literal here
    case varArg => exact spares_singleton stands_varArg rfl (.word .ellipsis spell_nil)
    case binary op l r =>
      have left := (part .expression l (by simp [Slot.parts])).operand
        (·.needsParens op false) (by cases op <;> rfl)
      have right := (part .expression r (by simp [Slot.parts])).operand
        (·.needsParens op true) (by cases op <;> rfl)
      exact spares_binary op left right
    case unary op e =>
      exact spares_unary op ((part .expression e (by simp [Slot.parts])).operand
        Grip.isLooseBinary rfl)
    case paren e => exact (part .expression e (by simp [Slot.parts])).parenthesized
    case functionCall f args =>
      have callee := (part .expression f (by simp [Slot.parts])).operand
        Grip.needsPrefixParens rfl
      have arguments : ∀ arg ∈ args, o.Spared depth arg := fun arg member =>
        part .expression arg (by simp [Slot.parts, member])
      have call := spares_call arguments callee
      simpa [Kind.map, Kind.mapOperands, Kind.words, node, head, Function.comp_def] using call
    case methodCall e n args =>
      have receiver := (part .expression e (by simp [Slot.parts])).operand
        Grip.needsPrefixParens rfl
      have method := part .name n (by simp [Slot.parts])
      have arguments : ∀ arg ∈ args, o.Spared depth arg := fun arg member =>
        part .expression arg (by simp [Slot.parts, member])
      have call := spares_methodCall arguments receiver method
      simpa [Kind.map, Kind.mapOperands, Kind.words, node, head, Function.comp_def] using call
    case access style t key =>
      have inside : (.expression, t) ∈ Slot.expression.parts (.access style t key) := by
        cases style <;> simp [Slot.parts, Slot.isDotted]
      have table := (part .expression t inside).operand Grip.needsPrefixParens rfl
      cases style with
      | dot =>
        have lexical := below key (by simp [Kind.children])
        obtain ⟨name, n, rfl⟩ :=
          exists_identifier_of_stands (stand (.name, key) (by simp [Slot.parts]))
        obtain ⟨identifier, -⟩ := Tree.every_node_iff.mp lexical
        simpa only [Kind.map, Kind.mapOperands, Kind.words, node, head, sparing_node,
          Tree.mapMark_node, fragment_node, Tree.keeping_node, Tree.words_node,
          Fragment.ofPieces] using spares_member table identifier
      | bracket => exact spares_index table (part .expression key (by simp [Slot.parts]))
    case table fs =>
      have fields : ∀ f ∈ fs, o.Spared depth f := fun f member =>
        part .field f (by simp [Slot.parts, member])
      have table := spares_table fields
      simpa [Kind.map, Kind.mapOperands, Kind.words, node, Function.comp_def] using table

end Layout

namespace Kind

variable {α β γ : Type} {operand : (Grip → Bool) → α → β} {other : α → β} {k : Kind α}

theorem map_mapOperands {f : β → γ} {g : α → γ} (operands : ∀ test c, f (operand test c) = g c)
    (others : ∀ c, f (other c) = g c) : (k.mapOperands operand other).map f = k.map g := by
  cases k <;> simp [mapOperands, map, operands, others, Function.comp_def]

/-- Each part stands where it stood. -/
theorem forall_parts_mapOperands {slot : Slot} (plain : slot.isDotted = false)
    {motive : Slot × β → Prop} (others : ∀ part ∈ slot.parts k, motive (part.1, other part.2))
    (operands : ∀ test c, (.expression, c) ∈ slot.parts k → motive (.expression, operand test c)) :
    ∀ part ∈ slot.parts (k.mapOperands operand other), motive part := by
  cases k
  case access style t key => cases style <;> simp_all [mapOperands, Slot.parts]
  case binary => simp_all [mapOperands, Slot.parts]
  case unary => simp_all [mapOperands, Slot.parts]
  case functionCall => simp_all [mapOperands, Slot.parts]
  case methodCall => simp_all [mapOperands, Slot.parts]
  all_goals
    rw [mapOperands, Slot.parts_map, List.forall_mem_map] <;> first | exact others | simp

theorem admits_mapOperands (slot : Slot) :
    slot.admits (k.mapOperands operand other) = slot.admits k := by
  cases k
  case access style t key => cases style <;> cases slot <;> rfl
  all_goals cases slot <;> rfl

theorem isComplete_mapOperands : (k.mapOperands operand other).isComplete = k.isComplete := by
  cases k
  case binary | unary | functionCall | methodCall | access => rfl
  all_goals rw [mapOperands, isComplete_map] <;> simp

theorem operands_mapOperands :
    (k.mapOperands operand other).operands = k.operands.map fun o => (o.1, operand o.1 o.2) := by
  cases k <;> rfl

theorem snug_iff_operands {k : Kind SourceTree} :
    k.Snug ↔ ∀ o ∈ k.operands, o.1 o.2.grip = false := by
  cases k <;> simp [Snug, operands]

theorem mem_children_mapOperands {c : α} (member : c ∈ k.children) :
    other c ∈ (k.mapOperands operand other).children ∨
      ∃ test, operand test c ∈ (k.mapOperands operand other).children := by
  cases k
  case binary op l r =>
    rcases List.mem_pair.mp member with rfl | rfl
    · exact .inr ⟨_, List.mem_cons_self ..⟩
    · exact .inr ⟨_, List.mem_cons_of_mem _ (List.mem_cons_self ..)⟩
  case unary op e =>
    obtain rfl := List.mem_singleton.mp member
    exact .inr ⟨_, List.mem_cons_self ..⟩
  case functionCall f args =>
    rcases List.mem_cons.mp member with rfl | member
    · exact .inr ⟨_, List.mem_cons_self ..⟩
    · exact .inl (List.mem_cons_of_mem _ (List.mem_map_of_mem member))
  case methodCall e n args =>
    rcases List.mem_cons.mp member with rfl | member
    · exact .inr ⟨_, List.mem_cons_self ..⟩
    · exact .inl (List.mem_cons_of_mem _ (List.mem_map_of_mem (f := other) (l := n :: args) member))
  case access style t key =>
    rcases List.mem_pair.mp member with rfl | rfl
    · exact .inr ⟨_, List.mem_cons_self ..⟩
    · exact .inl (List.mem_cons_of_mem _ (List.mem_cons_self ..))
  all_goals
    refine .inl ?_
    rw [mapOperands, children_map]
    · exact List.mem_map_of_mem member
    all_goals simp

theorem operands_map (f : α → β) :
    (k.map f).operands = k.operands.map fun o => (o.1, f o.2) := by
  cases k <;> rfl

end Kind

namespace Tree

variable {t : Tree (Origin × Bool)}

theorem stands_parenIf {t : SourceTree} (stands : t.stands .expression = true) (parens : Bool) :
    (t.parenIf parens).stands .expression = true := by
  unfold parenIf
  split
  · exact stands_intro rfl rfl (List.forall_mem_singleton.mpr stands)
  · exact stands

/-- The parentheses that are put in are around expressions. -/
theorem stands_keeping {slot : Slot} (operand : slot.isOperand = true)
    (stands : t.stands slot = true) (plain : t.hasFunction = false) :
    t.keeping.2.stands slot = true := by
  refine operand_induct (motive := fun slot t => t.keeping.2.stands slot = true) ?_ operand stands
    plain
  intro slot m k operand admits complete _ ih
  have notDotted : slot.isDotted = false := by
    cases slot <;> first | rfl | cases operand
  rw [keeping_node]
  refine stands_intro ?_ ?_ (Kind.forall_parts_mapOperands notDotted ?_ ?_)
  · rwa [Kind.admits_mapOperands, Slot.admits_map]
  · rwa [Kind.isComplete_mapOperands, Kind.isComplete_map]
  · rw [Slot.parts_map, List.forall_mem_map]
    exact ih
  · intro test c member
    rw [Slot.parts_map] at member
    obtain ⟨⟨place, e⟩, inside, same⟩ := List.mem_map.mp member
    obtain ⟨rfl, rfl⟩ := Prod.mk.inj same
    exact stands_parenIf (ih _ inside) _

/-- Without parentheses nothing has changed. -/
theorem eraseParens_keeping (t : Tree (Origin × Bool)) :
    t.keeping.2.eraseParens = (t.mapMark Prod.fst).eraseParens := by
  induction t using Tree.induct with
  | step m k ih =>
    have blind (test : Grip → Bool) (c : Bool × SourceTree) :
        (keep test c).eraseParens = c.2.eraseParens := eraseParens_parenIf _ c.2
    rw [keeping_node, mapMark_node, eraseParens_node, eraseParens_node,
      Kind.map_mapOperands blind fun _ => rfl, Kind.map_map, Kind.map_map]
    exact congrArg (unparen m.1) (Kind.map_congr k ih)

theorem KeepsLevels.of_parenIf {t : SourceTree} {parens : Bool}
    (keeps : (t.parenIf parens).KeepsLevels) : t.KeepsLevels := by
  unfold parenIf at keeps
  split at keeps
  · exact (every_node_iff.mp keeps).2 t (List.mem_singleton_self _)
  · exact keeps

/-- An operand that needs its parentheses keeps to no level without them. -/
theorem not_keepsLevels_of_omits {t : Tree (Origin × Bool)} (omits : t.Omits) :
    ¬ t.keeping.2.KeepsLevels := by
  induction omits with
  | @here m k test c operand marked needed =>
    rw [keeping_node]
    intro keeps
    have snug := Kind.snug_iff_operands.mp ((keepsLevels_iff_snug _).mp (every_node_iff.mp keeps).1)
    have bare : keep test c.keeping = c.keeping.2 := by
      rw [keep, mark_keeping, marked, Bool.not_true, Bool.false_and]
      rfl
    have inside : (test, keep test c.keeping) ∈
        ((k.map keeping).mapOperands keep Prod.snd).operands := by
      rw [Kind.operands_mapOperands, Kind.operands_map, List.map_map]
      exact List.mem_map_of_mem (f := fun o => (o.1, keep o.1 o.2.keeping)) operand
    have loose : test (keep test c.keeping).grip = false := snug _ inside
    rw [bare, grip_keeping, needed] at loose
    cases loose
  | @child m k c member _ ih =>
    rw [keeping_node]
    intro keeps
    have member : c.keeping ∈ (k.map keeping).children := by
      rw [Kind.children_map]
      exact List.mem_map_of_mem member
    refine ih ?_
    rcases Kind.mem_children_mapOperands member with inside | ⟨test, inside⟩
    · exact (every_node_iff.mp keeps).2 _ inside
    · exact KeepsLevels.of_parenIf ((every_node_iff.mp keeps).2 _ inside)

end Tree

end LuaTree
