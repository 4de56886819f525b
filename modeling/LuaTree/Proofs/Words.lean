import LuaTree.Proofs.Written
import LuaTree.Proofs.Scanned

/-!
# The words of a tree

A word is a token without its place. `Tree.words` lists the words of a tree as
they stand in a text, with a comma between the fields of a table and nothing
between statements. A layout without semicolons and comments writes just these
words, and no comment (`Layout.spells`).
-/

namespace LuaTree

/-- A token wherever it stands. -/
abbrev Word := TokenKind × String

def Token.word (t : Token) : Word :=
  (t.kind, t.lexeme)

/-- A keyword or symbol. -/
def fixed (kind : TokenKind) : Word :=
  (kind, kind.spelling)

namespace Piece

def word? : Piece → Option Word
  | token kind lexeme => some (kind, String.ofList lexeme)
  | _ => none

/-- The words among pieces. -/
def words (pieces : List Piece) : List Word :=
  pieces.filterMap word?

@[simp] theorem words_nil : words [] = [] :=
  rfl

@[simp] theorem words_token (kind : TokenKind) (lexeme : List Char) (pieces : List Piece) :
    words (.token kind lexeme :: pieces) = (kind, String.ofList lexeme) :: words pieces :=
  rfl

@[simp] theorem words_append (first second : List Piece) :
    words (first ++ second) = words first ++ words second :=
  List.filterMap_append

@[simp] theorem words_word (kind : TokenKind) (pieces : List Piece) :
    words (Layout.word kind :: pieces) = fixed kind :: words pieces := by
  simp [Layout.word, fixed]

end Piece

/-- Lists of words with a comma between each two. -/
def commaWords : List (List Word) → List Word
  | [] => []
  | part :: parts => part ++ parts.flatMap (fixed .comma :: ·)

/-- The words of a node, given those of its children. -/
def Kind.words : Kind (List Word) → List Word
  | .chunk b => b
  | .block ss => ss.flatten
  | .assignment ts vs => commaWords ts ++ fixed .assign :: commaWords vs
  | .compoundAssignment op t v => t ++ (op.assignToken?.toList.map fixed ++ v)
  | .localNames ns vs =>
    fixed .localKw :: (commaWords ns ++ if vs.isEmpty then [] else fixed .assign :: commaWords vs)
  | .localFunction n ps b =>
    fixed .localKw :: fixed .functionKw :: (n ++ fixed .lParen :: (commaWords ps ++
      fixed .rParen :: (b ++ [fixed .endKw])))
  | .function n ps b =>
    fixed .functionKw :: (n ++ fixed .lParen :: (commaWords ps ++
      fixed .rParen :: (b ++ [fixed .endKw])))
  | .returning vs => fixed .returnKw :: commaWords vs
  | .breaking => [fixed .breakKw]
  | .continuing => [fixed .continueKw]
  | .doBlock b => fixed .doKw :: (b ++ [fixed .endKw])
  | .ifChain e b clauses branch =>
    fixed .ifKw :: (e ++ fixed .thenKw :: (b ++ (clauses.flatten ++ (branch.toList.flatten ++
      [fixed .endKw]))))
  | .elseIf e b => fixed .elseIfKw :: (e ++ fixed .thenKw :: b)
  | .elseBlock b => fixed .elseKw :: b
  | .whileLoop e b => fixed .whileKw :: (e ++ fixed .doKw :: (b ++ [fixed .endKw]))
  | .repeatLoop b e => fixed .repeatKw :: (b ++ fixed .untilKw :: e)
  | .numericFor n e₁ e₂ e₃ b =>
    fixed .forKw :: (n ++ fixed .assign :: (commaWords (e₁ :: e₂ :: e₃.toList) ++
      fixed .doKw :: (b ++ [fixed .endKw])))
  | .genericFor ns es b =>
    fixed .forKw :: (commaWords ns ++ fixed .inKw :: (commaWords es ++
      fixed .doKw :: (b ++ [fixed .endKw])))
  | .expressionStatement e => e
  | .identifier n => [(.identifier, n)]
  | .literal l => Piece.words [Layout.literal l]
  | .binary op l r => l ++ fixed op.token :: r
  | .unary op e => fixed op.token :: e
  | .paren e => fixed .lParen :: (e ++ [fixed .rParen])
  | .varArg => [fixed .ellipsis]
  | .functionCall f args => f ++ fixed .lParen :: (commaWords args ++ [fixed .rParen])
  | .methodCall e n args =>
    e ++ fixed .colon :: (n ++ fixed .lParen :: (commaWords args ++ [fixed .rParen]))
  | .methodName e n => e ++ fixed .colon :: n
  | .access .dot t key => t ++ fixed .dot :: key
  | .access .bracket t key => t ++ fixed .lBracket :: (key ++ [fixed .rBracket])
  | .table fs => fixed .lBrace :: (commaWords fs ++ [fixed .rBrace])
  | .field .named (some key) e => key ++ fixed .assign :: e
  | .field .bracketed (some key) e =>
    fixed .lBracket :: (key ++ fixed .rBracket :: fixed .assign :: e)
  | .field _ _ e => e
  | .anonymousFunction ps b =>
    fixed .functionKw :: fixed .lParen :: (commaWords ps ++
      fixed .rParen :: (b ++ [fixed .endKw]))

namespace Tree

variable {ι : Type}

/-- The words of a tree as they stand in a text. -/
def words : Tree ι → List Word :=
  fold fun _ => Kind.words

theorem words_node (m : ι) (kind : Kind (Tree ι)) :
    (Tree.node m kind).words = (kind.map words).words :=
  fold_node _ _ _

end Tree

namespace Piece

/-- Pieces that are some words, with blanks between them and no comments. -/
structure Spell (pieces : List Piece) (written : List Word) : Prop where
  words : words pieces = written
  notes : pieces.filterMap note? = []

variable {first second : List Piece} {left right : List Word}

theorem spell_blanks (blanks : List Char) : Spell (blanks.map .blank) [] := by
  constructor
  · simp [words, List.filterMap_map, Function.comp_def, word?]
  · simp [List.filterMap_map, Function.comp_def, note?]

theorem Spell.append (front : Spell first left) (back : Spell second right) :
    Spell (first ++ second) (left ++ right) := by
  constructor
  · rw [words_append, front.words, back.words]
  · rw [List.filterMap_append, front.notes, back.notes, List.append_nil]

theorem Spell.space (back : Spell second right) : Spell (Layout.space :: second) right :=
  ⟨back.words, back.notes⟩

theorem Spell.newline (back : Spell second right) : Spell (Layout.newline :: second) right :=
  ⟨back.words, back.notes⟩

theorem Spell.word (kind : TokenKind) (back : Spell second right) :
    Spell (Layout.word kind :: second) (fixed kind :: right) := by
  constructor
  · rw [words_word, back.words]
  · exact back.notes

theorem spell_nil : Spell [] [] :=
  ⟨rfl, rfl⟩

theorem spell_wordThen (kind : TokenKind) : Spell (Layout.wordThen kind) [fixed kind] :=
  .word kind (.space spell_nil)

theorem spell_spaced (kind : TokenKind) : Spell (Layout.spaced kind) [fixed kind] :=
  .space (spell_wordThen kind)

theorem Spell.parenthesized (inner : Spell first left) :
    Spell (Layout.parenthesized first) (fixed .lParen :: (left ++ [fixed .rParen])) :=
  .word .lParen (inner.append (.word .rParen spell_nil))

end Piece

namespace Layout

open Piece

variable {o : Layout} {m : Origin}

theorem spell_indentation (o : Layout) (depth : Nat) : Spell (o.indentation depth) [] :=
  spell_blanks _

/-- A statement is written as its own words. -/
theorem spell_statement (plain : o.semicolons = false) (quiet : o.comments = false)
    {write : Nat → List Piece} {depth : Nat} {words : List Word}
    (core : Spell (write depth) words) : Spell ((o.statement m write).write depth) words := by
  have ending : Spell (o.finish m) [] := by
    simpa [finish, plain, quiet] using Spell.newline spell_nil
  simpa [statement, commentLines, quiet] using
    ((spell_indentation o depth).append core).append ending

theorem spell_body {b : Fragment} {words : List Word} {depth : Nat}
    (block : Spell (b.write (depth + 1)) words) (close : TokenKind) :
    Spell (o.body depth b close) (words ++ [fixed close]) := by
  simpa [body] using
    ((block.append (spell_indentation o depth)).append (.word close spell_nil)).newline

/-- At every depth a tree is written as its words. -/
def Spells (o : Layout) (t : SourceTree) : Prop :=
  ∀ depth, Spell ((o.fragment t).write depth) t.words

theorem spell_commas {ts : List SourceTree} (spelt : ∀ t ∈ ts, o.Spells t) (depth : Nat) :
    Spell (commas depth (ts.map o.fragment)) (commaWords (ts.map Tree.words)) := by
  induction ts with
  | nil => exact spell_nil
  | cons t ts ih =>
    obtain ⟨first, spelt⟩ := List.forall_mem_cons.mp spelt
    cases ts with
    | nil =>
      simp only [List.map_cons, List.map_nil, commas_singleton]
      simpa [commaWords] using first depth
    | cons u ts =>
      simp only [List.map_cons, commas_cons_cons]
      simpa [commaWords] using (first depth).append (.word .comma (.space (ih spelt)))

theorem spell_flatMap {ts : List SourceTree} (spelt : ∀ t ∈ ts, o.Spells t) (depth : Nat) :
    Spell ((ts.map o.fragment).flatMap (·.write depth)) (ts.map Tree.words).flatten := by
  induction ts with
  | nil => exact spell_nil
  | cons t ts ih =>
    obtain ⟨first, spelt⟩ := List.forall_mem_cons.mp spelt
    exact (first depth).append (ih spelt)

/-- An operand that holds together is written without parentheses. -/
theorem spell_guarded {t : SourceTree} (spelt : o.Spells t) {parens : Bool} (none : parens = false)
    (depth : Nat) : Spell (guarded parens (o.fragment t) depth) t.words := by
  rw [none]
  exact spelt depth

theorem spell_function {ps : List SourceTree} {b : SourceTree} (params : ∀ p ∈ ps, o.Spells p)
    (block : o.Spells b) (depth : Nat) :
    Spell (o.function depth (ps.map o.fragment) (o.fragment b))
      (fixed .lParen :: (commaWords (ps.map Tree.words) ++
        fixed .rParen :: (b.words ++ [fixed .endKw]))) := by
  simpa [function] using
    (spell_commas params depth).parenthesized.append (spell_body (block (depth + 1)) .endKw)

/-- What is called or accessed without parentheses. -/
theorem spell_head {t : SourceTree} (spelt : o.Spells t)
    (closed : t.grip.needsPrefixParens = false) (depth : Nat) :
    Spell (head (o.fragment t) depth) t.words := by
  rw [← o.fragment_grip] at closed
  exact spell_guarded spelt closed depth

theorem spell_literal (l : Literal) : Spell [literal l] (Piece.words [literal l]) := by
  obtain ⟨value, kind⟩ := l
  refine ⟨rfl, ?_⟩
  cases kind <;> rfl

theorem spell_unaryGap (op : UnaryOp) (operand : List Piece) : Spell (unaryGap op operand) [] := by
  unfold unaryGap
  split
  · exact .space spell_nil
  · split
    · exact .space spell_nil
    · exact spell_nil
  · exact spell_nil

/-- Values behind the sign of an assignment, if there are any. -/
theorem spell_values {ts : List SourceTree} (values : ∀ t ∈ ts, o.Spells t) (depth : Nat) :
    Spell (if (ts.map o.fragment).isEmpty then []
        else spaced .assign ++ commas depth (ts.map o.fragment))
      (if (ts.map Tree.words).isEmpty then []
        else fixed .assign :: commaWords (ts.map Tree.words)) := by
  cases ts with
  | nil => exact spell_nil
  | cons => exact (spell_spaced .assign).append (spell_commas values depth)

/-- The test of a branch, from its first word to the end of the line. -/
theorem spell_test {test : List Piece} {words : List Word} (opening : TokenKind)
    (condition : Spell test words) :
    Spell (wordThen opening ++ test ++ [space, word .thenKw, newline])
      (fixed opening :: (words ++ [fixed .thenKw])) :=
  ((spell_wordThen opening).append condition).append (.space (.word .thenKw (.newline spell_nil)))

/-- The body of a loop behind the word `do`. -/
theorem spell_loop {b : SourceTree} (block : o.Spells b) (depth : Nat) :
    Spell ([space, word .doKw] ++ o.body depth (o.fragment b) .endKw)
      (fixed .doKw :: (b.words ++ [fixed .endKw])) :=
  .space (.word .doKw (spell_body (block (depth + 1)) .endKw))

theorem spells_node {kind : Kind SourceTree}
    (written : ∀ depth, Spell ((o.node m (kind.map o.fragment)).write depth)
      (kind.map Tree.words).words) : o.Spells (.node m kind) := by
  intro depth
  rw [fragment_node, Tree.words_node]
  exact written depth

/-- A layout without semicolons and comments writes a tree as its words. -/
theorem spells (plain : o.semicolons = false) (quiet : o.comments = false) {role : Role}
    {t : SourceTree} (formed : Writable role t) : o.Spells t := by
  induction formed with
  | plain _ name | function _ name | parameter _ name | ofName _ name => exact name
  | name =>
    refine spells_node fun depth => ⟨?_, rfl⟩
    simp [Kind.map, Kind.words, node, Fragment.ofPieces]
  | varArg | varParameter => exact spells_node fun depth => .word .ellipsis spell_nil
  | literal => exact spells_node fun depth => spell_literal _
  | dotted table _ _ owner name =>
    have closed := (Grip.needsPrefixParens_eq_false_iff _).mpr table.closed_of_dottedName
    exact spells_node fun depth => (spell_head owner closed depth).append (.word .dot (name depth))
  | method _ _ _ owner method =>
    exact spells_node fun depth => (owner depth).append (.word .colon (method depth))
  | binary _ _ fit left right =>
    have first := spell_guarded left fit.snug.1
    have second := spell_guarded right fit.snug.2
    refine spells_node fun depth => ?_
    simpa [Kind.map, Kind.words, node] using
      ((first depth).append (spell_spaced _)).append (second depth)
  | unary _ fit operand =>
    have inner := spell_guarded operand fit.snug
    refine spells_node fun depth => ?_
    simpa [Kind.map, Kind.words, node] using
      ((spell_unaryGap _ _).append (inner depth)).word _
  | paren _ _ inner => exact spells_node fun depth => (inner depth).parenthesized
  | call _ _ fit callee arguments =>
    exact spells_node fun depth =>
      (spell_head callee fit.snug depth).append (spell_commas arguments depth).parenthesized
  | methodCall _ _ _ fit receiver method arguments =>
    refine spells_node fun depth => ?_
    have first := (spell_head receiver fit.snug depth).append (.word .colon (method depth))
    simpa [Kind.map, Kind.words, node] using
      first.append (spell_commas arguments depth).parenthesized
  | member _ _ fit table name =>
    exact spells_node fun depth =>
      (spell_head table fit.snug depth).append (.word .dot (name depth))
  | index _ _ fit table key =>
    refine spells_node fun depth => ?_
    have first := (spell_head table fit.snug depth).append (.word .lBracket (key depth))
    simpa [Kind.map, Kind.words, node] using first.append (.word .rBracket spell_nil)
  | table _ _ fields =>
    exact spells_node fun depth =>
      .word .lBrace ((spell_commas fields depth).append (.word .rBrace spell_nil))
  | anonymousFunction _ _ _ _ parameters _ body =>
    exact spells_node fun depth => .word .functionKw (spell_function parameters body depth)
  | positional _ _ value => exact spells_node value
  | named _ _ _ name value =>
    refine spells_node fun depth => ?_
    have first := (name depth).append (spell_spaced .assign)
    simpa [Kind.map, Kind.words, node] using first.append (value depth)
  | bracketed _ _ _ key value =>
    refine spells_node fun depth => ?_
    have first := ((key depth).word .lBracket).append (.word .rBracket (spell_spaced .assign))
    simpa [Kind.map, Kind.words, node] using first.append (value depth)
  | assignment _ _ _ _ _ _ _ targets values =>
    refine spells_node fun depth => spell_statement plain quiet ?_
    have first := (spell_commas targets depth).append (spell_spaced .assign)
    simpa [Kind.map, Kind.words] using first.append (spell_commas values depth)
  | compoundAssignment sign _ _ _ _ _ target value =>
    refine spells_node fun depth => spell_statement plain quiet ?_
    obtain ⟨kind, found⟩ := Option.isSome_iff_exists.mp sign
    simpa [Kind.map, Kind.words, assignSign, found] using
      ((target depth).append (spell_spaced kind)).append (value depth)
  | localNames _ _ _ _ names values =>
    refine spells_node fun depth => spell_statement plain quiet ?_
    have first := (spell_wordThen .localKw).append (spell_commas names depth)
    simpa [Kind.map, Kind.words] using first.append (spell_values values depth)
  | localFunction _ _ _ _ _ name parameters _ body =>
    refine spells_node fun depth => spell_statement plain quiet ?_
    have first := (spell_wordThen .localKw).append (spell_wordThen .functionKw)
    simpa [Kind.map, Kind.words] using
      (first.append (name depth)).append (spell_function parameters body depth)
  | functionDefinition _ _ _ _ _ name parameters _ body =>
    refine spells_node fun depth => spell_statement plain quiet ?_
    have first := (spell_wordThen .functionKw).append (name depth)
    simpa [Kind.map, Kind.words] using first.append (spell_function parameters body depth)
  | @returning _ vs _ _ values =>
    refine spells_node fun depth => spell_statement plain quiet ?_
    cases vs with
    | nil => exact .word .returnKw spell_nil
    | cons => exact .word .returnKw (.space (spell_commas values depth))
  | breaking =>
    exact spells_node fun depth => spell_statement plain quiet (.word .breakKw spell_nil)
  | continuing =>
    exact spells_node fun depth => spell_statement plain quiet (.word .continueKw spell_nil)
  | doBlock _ _ body =>
    exact spells_node fun depth =>
      spell_statement plain quiet (.word .doKw (spell_body (body (depth + 1)) .endKw))
  | @ifChain _ _ _ _ branch _ _ _ _ _ condition body elseIfs elseBranch =>
    refine spells_node fun depth => spell_statement plain quiet ?_
    have last : ∀ clause ∈ branch.toList, o.Spells clause := by
      simpa using elseBranch
    have first := (spell_test .ifKw (condition depth)).append (body (depth + 1))
    have clauses := (spell_flatMap elseIfs depth).append (spell_flatMap last depth)
    have ending := (spell_indentation o depth).append (.word .endKw spell_nil)
    simpa [Kind.map, Kind.words, Option.toList_map] using (first.append clauses).append ending
  | whileLoop _ _ _ condition body =>
    refine spells_node fun depth => spell_statement plain quiet ?_
    have first := (spell_wordThen .whileKw).append (condition depth)
    simpa [Kind.map, Kind.words] using first.append (spell_loop body depth)
  | repeatLoop _ _ _ body condition =>
    refine spells_node fun depth => spell_statement plain quiet ?_
    simpa [Kind.map, Kind.words] using
      ((spell_body (body (depth + 1)) .untilKw).word .repeatKw).append (condition depth).space
  | @numericFor _ _ e₁ e₂ _ e₃ _ _ _ _ _ _ counter start limit step body =>
    refine spells_node fun depth => spell_statement plain quiet ?_
    have range : ∀ e ∈ e₁ :: e₂ :: e₃.toList, o.Spells e := by
      simpa [start, limit] using step
    have first := ((spell_wordThen .forKw).append (counter depth)).append (spell_spaced .assign)
    simpa [Kind.map, Kind.words, Option.toList_map] using
      (first.append (spell_commas range depth)).append (spell_loop body depth)
  | genericFor _ _ _ _ _ _ names iterators body =>
    refine spells_node fun depth => spell_statement plain quiet ?_
    have first := ((spell_wordThen .forKw).append (spell_commas names depth)).append
      (spell_spaced .inKw)
    simpa [Kind.map, Kind.words] using
      (first.append (spell_commas iterators depth)).append (spell_loop body depth)
  | expressionStatement _ _ _ _ expression =>
    exact spells_node fun depth => spell_statement plain quiet (expression depth)
  | elseIf _ _ _ condition body =>
    refine spells_node fun depth => ?_
    have first := (spell_indentation o depth).append (spell_test .elseIfKw (condition depth))
    simpa [Kind.map, Kind.words, node] using first.append (body (depth + 1))
  | elseBlock _ _ body =>
    refine spells_node fun depth => ?_
    have first := (spell_indentation o depth).append (.word .elseKw (.newline spell_nil))
    simpa [Kind.map, Kind.words, node] using first.append (body (depth + 1))
  | block _ _ _ statements =>
    refine spells_node fun depth => ?_
    simpa [Kind.map, Kind.words, node, commentLines, quiet] using spell_flatMap statements depth
  | chunk _ _ body => exact spells_node body

end Layout

end LuaTree
