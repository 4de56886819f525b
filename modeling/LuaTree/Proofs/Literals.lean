import LuaTree.Proofs.Comparison
import LuaTree.Proofs.Unambiguous

/-!
# The literals of a tree

Trees that are the same have the same literals, and those of a well-formed tree
can be written. The other way round, a literal that cannot be written shows in the
tree: were it missing there, the tree would stay the same with any other string in
place of its token (`Chunk.exists_exchanged`), and its words would not.
-/

namespace LuaTree

namespace Tree

variable {ι κ : Type}

/-- All literals of the tree satisfy a condition. -/
def EveryLiteral (p : Literal → Prop) (t : Tree ι) : Prop :=
  t.Every fun k => ∀ l, k = .literal l → p l

theorem everyLiteral_node_iff {p : Literal → Prop} {m : ι} {k : Kind (Tree ι)} :
    (node m k).EveryLiteral p ↔ (∀ l, k = .literal l → p l) ∧ ∀ c ∈ k.children, c.EveryLiteral p :=
  every_node_iff

theorem EveryLiteral.imp {p q : Literal → Prop} {t : Tree ι} (every : t.EveryLiteral p)
    (implies : ∀ l, p l → q l) : t.EveryLiteral q :=
  Every.imp every fun _ here l same => implies l (here l same)

theorem EveryLiteral.of_same {p : Literal → Prop} {t : Tree ι} {u : Tree κ}
    (every : u.EveryLiteral p) (same : t.same u = true) : t.EveryLiteral p := by
  refine Every.of_same every (fun k k' shape here => ?_) same
  rintro l rfl
  cases k' <;> simp [Kind.sameShape, Kind.name] at shape
  exact here l (congrArg Kind.literal shape.symm)

/-- A blur that keeps names and the literals of a tree keeps the tree. -/
theorem EveryLiteral.blurred_eq {b : Blur} {t : Tree ι} (names : b.name = id)
    (every : t.EveryLiteral fun l => b.literal l = l) : t.blurred b = t.unmarked := by
  induction t using Tree.induct with
  | step m k ih =>
    obtain ⟨here, below⟩ := everyLiteral_node_iff.mp every
    have same (c : Tree ι) (member : c ∈ k.children) := ih c member (below c member)
    rw [blurred_node, unmarked_node, ← Kind.map_congr k same]
    cases k with
    | identifier name => rw [Kind.map, Kind.blur, names]; rfl
    | literal l => rw [Kind.map, Kind.blur, here l rfl]
    | _ => rfl

end Tree

/-- The literals of a well-formed tree can be written. -/
theorem WellFormed.everyLiteral {P : Origin → Kind SourceTree → Prop} {role : Role}
    {t : SourceTree} (formed : WellFormed P role t) : t.EveryLiteral Literal.IsToken := by
  induction formed
  case plain ih => exact ih
  case function ih => exact ih
  case parameter ih => exact ih
  case ofName ih => exact ih
  case literal token _ =>
    exact .node (fun l same => Kind.literal.inj same ▸ token) fun c member => by cases member
  all_goals
    refine .node (fun l same => by cases same) ?_
    simp_all [Kind.children, or_imp, Tree.EveryLiteral]

/-- Normal forms keep a string before the end of the file. -/
theorem exists_normalize_append (words : List Word) (around : List Scope) (string stop : String) :
    ∃ front, normalize around (words ++ [(.string, string), (.eof, stop)]) =
      front ++ [(.string, string), (.eof, stop)] := by
  induction words generalizing around with
  | nil => exact ⟨[], rfl⟩
  | cons word words ih =>
    obtain ⟨kind, lexeme⟩ := word
    rw [List.cons_append]
    by_cases comma : kind = .comma
    · obtain ⟨front, same⟩ := ih around
      exact ⟨_ ++ front, by rw [comma, normalize, same, List.append_assoc]⟩
    by_cases semicolon : kind = .semicolon
    · obtain ⟨front, same⟩ := ih around
      exact ⟨_ ++ front, by rw [semicolon, normalize, same, List.append_assoc]⟩
    · obtain ⟨front, same⟩ := ih (kind.scopes around)
      exact ⟨(kind, lexeme) :: front, by rw [normalize_cons comma semicolon, same]; rfl⟩

/-- A blur under which one literal may stand for another. -/
def Blur.exchange (l other : Literal) : Blur :=
  ⟨id, fun x => if x = l then other else x, fun _ => default⟩

/-- Lists of tokens that differ in their last one. -/
theorem aligned_concat {b : Blur} {t u : Token} (alike : t.Alike b u)
    (plain : t.kind.isOpener = false) (tokens : List Token) (last : Span) :
    Aligned b last last (tokens ++ [t]) (tokens ++ [u]) := by
  induction tokens generalizing last with
  | nil => exact .cons alike (by simp [plain]) .nil
  | cons token tokens ih =>
    exact .cons ⟨rfl, fun _ => rfl, rfl, rfl, rfl⟩ (fun _ => Iff.rfl) (ih token.span)

section Exchange

variable {c c' : Cursor} {t : SourceTree} {tokens : List Token} {token other : Token}
  {l m : Literal}

theorem Cursor.exists_ahead_eq (ends : c.EndsFile) (rest : c.rest = tokens ++ [token])
    (kind : token.kind = .string) :
    ∃ front, c.ahead [] = front ++ [token.word] ++ [c.stop.word] := by
  have stop : c.stop.kind = .eof := ends
  obtain ⟨front, normal⟩ := exists_normalize_append (tokens.map Token.word) [] token.lexeme
    c.stop.lexeme
  refine ⟨front, ?_⟩
  simpa [Cursor.ahead, Cursor.words, rest, Token.word, kind, stop] using normal

/-- With another string in place of the last token, a cursor is abreast but for the literal. -/
theorem Cursor.exists_abreast_exchange (ends : c.EndsFile) (rest : c.rest = tokens ++ [token])
    (genuine : ∀ token ∈ tokens ++ [other], Piece.Genuine (.token token.kind token.lexeme.toList))
    (kind : token.kind = .string) (literal : Grammar.literal? token = some l)
    (kind' : other.kind = .string) (literal' : Grammar.literal? other = some m) :
    ∃ d pairs, d.rest = tokens ++ [other] ∧ d.Lexed ∧ c.Abreast (.exchange l m) pairs d := by
  refine ⟨⟨tokens ++ [other], c.stop, c.last, []⟩, _, rfl, ⟨ends, genuine, nofun, .nil⟩, ends, ends,
    ?_, List.suffix_refl _, ⟨rfl, rfl⟩, ⟨rfl, rfl⟩⟩
  rw [rest]
  refine aligned_concat ⟨kind.trans kind'.symm, by simp [kind], ?_, rfl, rfl⟩ (by rw [kind]; rfl)
    tokens _
  simp [literal, literal', Blur.exchange]

namespace Grammar

/-- A program whose last token is a string has the same tree with another string in its place, but
for the literal. -/
theorem Chunk.exists_exchanged (read : Chunk Derives c t c') (ends : c.EndsFile)
    (rest : c.rest = tokens ++ [token])
    (genuine : ∀ token ∈ tokens ++ [other], Piece.Genuine (.token token.kind token.lexeme.toList))
    (kind : token.kind = .string) (literal : literal? token = some l)
    (kind' : other.kind = .string) (literal' : literal? other = some m) :
    ∃ u front, Writable .chunk u ∧ (Blur.exchange l m).Same t u ∧
      u.words = front ++ [other.word] := by
  obtain ⟨d, pairs, rest', lexed, abreast⟩ :=
    Cursor.exists_abreast_exchange ends rest genuine kind literal kind' literal'
  obtain ⟨readBody, stop⟩ := read
  obtain ⟨body, d', readBody', same, abreast'⟩ :=
    exists_derives_abreast abreast RulesAgree.block readBody
  have read' := Chunk.intro readBody' (abreast'.current.kind ▸ stop)
  obtain ⟨formed, -⟩ := derives_shaped lexed.ends readBody' lexed.legible
  obtain ⟨front, ahead⟩ := Cursor.exists_ahead_eq lexed.ends rest' kind'
  have words := ahead.symm.trans (read'.spelt lexed)
  refine ⟨_, front, .chunk formed (.of_span trivial), ?_, (List.append_inj_left' words rfl).symm⟩
  simp only [Blur.Same, Tree.blurred_node, Kind.map, same]

/-- A literal that cannot be written, read at the end of a program, is in its tree. -/
theorem Chunk.not_everyLiteral (read : Chunk Derives c t c') (ends : c.EndsFile)
    (rest : c.rest = tokens ++ [token])
    (genuine : ∀ token ∈ tokens, Piece.Genuine (.token token.kind token.lexeme.toList))
    (kind : token.kind = .string) (literal : literal? token = some l) (noToken : ¬ l.IsToken) :
    ¬ t.EveryLiteral Literal.IsToken := by
  intro every
  have keeps (m x : Literal) (isToken : x.IsToken) : (Blur.exchange l m).literal x = x :=
    if_neg fun (same : x = l) => noToken (same ▸ isToken)
  -- were it missing, the tree would have the words of every exchange
  have words (other : Token) (m : Literal) (kind' : other.kind = .string)
      (genuine' : Piece.Genuine (.token other.kind other.lexeme.toList))
      (literal' : literal? other = some m) : ∃ front, t.words = front ++ [other.word] := by
    obtain ⟨u, front, formed, same, words⟩ := read.exists_exchanged ends rest
      (List.forall_mem_append.mpr ⟨genuine, List.forall_mem_singleton.mpr genuine'⟩) kind literal
      kind' literal'
    have left := (every.imp (keeps m)).blurred_eq rfl
    have right := (formed.everyLiteral.imp (keeps m)).blurred_eq rfl
    refine ⟨front, ?_⟩
    rw [← words, ← Tree.words_unmarked, ← left, same, right, Tree.words_unmarked]
  have empty : Piece.Genuine (.token .string ('"' :: [] ++ ['"'])) := .string rfl rfl
  have single : Piece.Genuine (.token .string ('"' :: ['a'] ++ ['"'])) := .string rfl rfl
  obtain ⟨front, first⟩ := words ⟨.string, "\"\"", default⟩ ⟨"", .string '"'⟩ rfl empty rfl
  obtain ⟨front', second⟩ := words ⟨.string, "\"a\"", default⟩ ⟨"a", .string '"'⟩ rfl single rfl
  have same := List.append_inj_right' (first.symm.trans second) rfl
  exact absurd same (by decide)

end Grammar

end Exchange

end LuaTree
