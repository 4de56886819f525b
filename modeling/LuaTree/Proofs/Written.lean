import LuaTree.Proofs.WellFormed

/-!
# Written programs are read as they were written

The pieces of a well formed tree stand apart: none runs into the next, wherever
the tree is nested. Reading the written text therefore gives the pieces back,
tokens, blanks and comments alike (`cut_pieces`).
-/

namespace LuaTree

open Piece

namespace Piece

/-- Characters that end words and numbers before them. -/
def stops : List Char :=
  [' ', '\n', '(', ')', '[', ']', '\x7d', ',', ':', ';', '=']

theorem follows_of_stop {c : Char} (stop : c ∈ stops) (rest : List Char) : Follows (c :: rest) := by
  have classes : stops.all (fun c => !isWordPart c && c != '.') = true := by decide
  obtain ⟨noPart, noPoint⟩ : isWordPart c = false ∧ c ≠ '.' := by
    simpa using List.all_eq_true.mp classes c stop
  constructor
  · intro d member
    obtain rfl : c = d := by simpa using member
    exact noPart
  · rw [Cut.fraction]
    intro d text same
    exact absurd (List.cons.inj same).1 noPoint

/-- A point ends a word or number if no digit stands behind it. -/
theorem follows_point {c : Char} (noDigit : c.isDigit = false) (rest : List Char) :
    Follows ('.' :: c :: rest) := by
  constructor
  · intro d member
    obtain rfl : '.' = d := by simpa using member
    decide
  · simp [Cut.fraction, noDigit]

theorem fits_word_space {kind : TokenKind}
    (fixed : kind ∈ TokenKind.keywords ∨ kind ∈ TokenKind.symbols) (rest : List Char) :
    (Layout.word kind).Fits (' ' :: rest) := by
  rcases fixed with keyword | symbol
  · exact fits_keyword keyword (follows_of_stop (by decide) rest).1
  · exact fits_symbol_space symbol rest

theorem fits_space (rest : List Char) : Layout.space.Fits rest :=
  fits_blank (by decide) rest

theorem fits_newline (rest : List Char) : Layout.newline.Fits rest :=
  fits_blank (by decide) rest

theorem apart_wordThen {kind : TokenKind}
    (fixed : kind ∈ TokenKind.keywords ∨ kind ∈ TokenKind.symbols) (rest : List Char) :
    Apart (Layout.wordThen kind) rest :=
  ⟨fits_word_space fixed rest, fits_space rest, trivial⟩

theorem apart_spaced {kind : TokenKind}
    (fixed : kind ∈ TokenKind.keywords ∨ kind ∈ TokenKind.symbols) (rest : List Char) :
    Apart (Layout.spaced kind) rest :=
  ⟨fits_space _, apart_wordThen fixed rest⟩

theorem apart_parenthesized {pieces : List Piece} {rest : List Char}
    (inner : Apart pieces (')' :: rest)) : Apart (Layout.parenthesized pieces) rest :=
  ⟨fits_solid (by decide) _, apart_append.mpr ⟨inner, fits_solid (by decide) rest, trivial⟩⟩

theorem apart_blanks {blanks : List Char} (blank : ∀ c ∈ blanks, Text.isBlank c = true)
    (rest : List Char) : Apart (blanks.map .blank) rest := by
  induction blanks with
  | nil => trivial
  | cons c blanks ih =>
    obtain ⟨first, blank⟩ := List.forall_mem_cons.mp blank
    exact ⟨fits_blank first _, ih blank⟩

end Piece

namespace Layout

/-- Indentation that only separates tokens. -/
def IsBlank (o : Layout) : Prop :=
  ∀ c ∈ o.indent.toList, Text.isBlank c = true

instance (o : Layout) : Decidable o.IsBlank :=
  decidable_of_iff (o.indent.toList.all Text.isBlank = true) List.all_eq_true

/-- Pieces that can stand before text which ends words and numbers, at every depth. Their own text
does not begin with an equals sign. -/
def Stands (write : Nat → List Piece) : Prop :=
  ∀ depth, (∃ c text, textOf (write depth) = c :: text ∧ c ≠ '=') ∧
    ∀ rest, Follows rest → Apart (write depth) rest

/-- Pieces that can stand before any text, at every depth. -/
def StandsAlone (write : Nat → List Piece) : Prop :=
  ∀ depth rest, Apart (write depth) rest

theorem commas_cons_cons (depth : Nat) (f g : Fragment) (fs : List Fragment) :
    commas depth (f :: g :: fs) =
      f.write depth ++ word .comma :: space :: commas depth (g :: fs) := by
  simp [commas, List.intercalate]

theorem commas_singleton (depth : Nat) (f : Fragment) : commas depth [f] = f.write depth := by
  simp [commas, List.intercalate]

theorem apart_commas {fs : List Fragment} (stand : ∀ f ∈ fs, Stands f.write) (depth : Nat)
    {rest : List Char} (follows : Follows rest) : Apart (commas depth fs) rest := by
  induction fs with
  | nil => trivial
  | cons f fs ih =>
    obtain ⟨first, stand⟩ := List.forall_mem_cons.mp stand
    cases fs with
    | nil =>
      rw [commas_singleton]
      exact (first depth).2 rest follows
    | cons g fs =>
      rw [commas_cons_cons]
      refine apart_append.mpr ⟨(first depth).2 _ (follows_of_stop (by decide) _), ?_⟩
      exact ⟨fits_solid (by decide) _, fits_space _, ih stand⟩

theorem stands_ofPieces {piece : Piece} {c : Char} {text : List Char}
    (chars : piece.chars = c :: text) (noSign : c ≠ '=')
    (fits : ∀ rest, Follows rest → piece.Fits rest) : Stands fun _ => [piece] := by
  intro depth
  refine ⟨⟨c, text, ?_, noSign⟩, fun rest follows => ⟨fits rest follows, trivial⟩⟩
  simp [chars]

theorem stands_identifier {text : String} (identifier : IsIdentifier text) :
    Stands fun _ => [.token .identifier text.toList] := by
  obtain ⟨c, rest, chars, word, same⟩ := word_of_identifier (isIdentifier_iff.mp identifier)
  refine stands_ofPieces chars ?_ ?_
  · rintro rfl
    exact absurd word.start (by decide)
  · intro behind follows
    rw [← same, chars]
    exact fits_ofWord word follows.1

theorem stands_keyword (kind : TokenKind) (keyword : kind ∈ TokenKind.keywords) :
    Stands fun _ => [word kind] := by
  obtain ⟨c, text, chars, isWord, -⟩ := keyword_isWord keyword
  refine stands_ofPieces chars ?_ fun rest follows => fits_keyword keyword follows.1
  rintro rfl
  exact absurd isWord.start (by decide)

theorem stands_varArg : Stands fun _ => [word .ellipsis] :=
  stands_ofPieces rfl (by decide) fun rest _ => fits_solid (by decide) rest

theorem stands_literal {l : Literal} (token : l.IsToken) : Stands fun _ => [literal l] := by
  obtain ⟨value, kind⟩ := l
  cases kind with
  | number =>
    have genuine : Genuine (.token .number value.toList) :=
      genuine_of_mem_cut (token ▸ List.mem_singleton_self _) rfl
    obtain ⟨c, digits, fraction, chars, number⟩ := number_of_token genuine
    refine stands_ofPieces chars ?_ ?_
    · rintro rfl
      exact absurd number.start (by decide)
    · intro rest follows
      simp only [literal, chars]
      exact fits_number number follows
  | string quote =>
    obtain ⟨isQuote, quotable⟩ := token
    refine stands_ofPieces rfl ?_ fun rest _ => fits_string isQuote quotable rest
    rintro rfl
    exact absurd isQuote (by decide)
  | boolean =>
    rcases token with same | same
    · obtain rfl : value = "true" := same
      exact stands_keyword .trueKw (by decide)
    · obtain rfl : value = "false" := same
      exact stands_keyword .falseKw (by decide)
  | nil =>
    obtain rfl : value = "nil" := token
    exact stands_keyword .nilKw (by decide)

theorem Stands.guarded {f : Fragment} (stands : Stands f.write) (parens : Bool) :
    Stands (guarded parens f) := by
  intro depth
  obtain ⟨head, apart⟩ := stands depth
  cases parens with
  | false => exact ⟨head, apart⟩
  | true =>
    refine ⟨⟨'(', _, rfl, by decide⟩, fun rest _ => apart_parenthesized (apart _ ?_)⟩
    exact follows_of_stop (by decide) rest

/-- What begins with one thing and goes on with another. -/
theorem Stands.append {write more : Nat → List Piece} (first : Stands write)
    (second : ∀ depth rest, Follows rest → Follows (textOf (more depth) ++ rest) ∧
      Apart (more depth) rest) : Stands fun depth => write depth ++ more depth := by
  intro depth
  obtain ⟨⟨c, text, chars, noSign⟩, apart⟩ := first depth
  constructor
  · refine ⟨c, text ++ textOf (more depth), ?_, noSign⟩
    rw [textOf_append, chars, List.cons_append]
  · intro rest follows
    obtain ⟨behind, standing⟩ := second depth rest follows
    exact apart_append.mpr ⟨apart _ behind, standing⟩

section Nodes

variable {o : Layout} {origin : Origin}

theorem stands_binary {l r : Fragment} (op : BinaryOp) (left : Stands l.write)
    (right : Stands r.write) : Stands (o.node origin (.binary op l r)).write := by
  have fixed : op.token ∈ TokenKind.keywords ∨ op.token ∈ TokenKind.symbols := by
    cases op <;> decide
  have operand := right.guarded (r.grip.needsParens op true)
  simp only [node, List.append_assoc]
  refine (left.guarded _).append fun depth rest follows => ⟨follows_of_stop (by decide) _, ?_⟩
  exact apart_append.mpr ⟨apart_spaced fixed _, (operand depth).2 rest follows⟩

theorem stands_unary {e : Fragment} (op : UnaryOp) (operand : Stands e.write) :
    Stands (o.node origin (.unary op e)).write := by
  intro depth
  obtain ⟨⟨c, text, chars, noSign⟩, apart⟩ := operand.guarded e.grip.isLooseBinary depth
  cases op with
  | not =>
    refine ⟨⟨'n', _, rfl, by decide⟩, fun rest follows => ?_⟩
    exact ⟨fits_word_space (by decide) _, fits_space _, apart rest follows⟩
  | len =>
    refine ⟨⟨'#', _, rfl, by decide⟩, fun rest follows => ?_⟩
    exact ⟨fits_solid (by decide) _, apart rest follows⟩
  | neg =>
    refine ⟨⟨'-', _, rfl, by decide⟩, fun rest follows => ?_⟩
    simp only [node, unaryGap, chars, List.head?_cons, Option.some.injEq]
    by_cases hyphen : c = '-'
    · rw [if_pos hyphen]
      exact ⟨fits_word_space (by decide) _, fits_space _, apart rest follows⟩
    · rw [if_neg hyphen]
      change Apart (word .minus :: guarded _ e depth) rest
      refine ⟨fits_minus ?_, apart rest follows⟩
      rw [chars, List.cons_append, List.head?_cons]
      rintro d ⟨⟩
      exact ⟨hyphen, noSign⟩

theorem apart_arguments {args : List Fragment} (stand : ∀ arg ∈ args, Stands arg.write)
    (depth : Nat) (rest : List Char) : Apart (parenthesized (commas depth args)) rest :=
  apart_parenthesized (apart_commas stand depth (follows_of_stop (by decide) rest))

theorem stands_call {f : Fragment} {args : List Fragment} (callee : Stands f.write)
    (arguments : ∀ arg ∈ args, Stands arg.write) :
    Stands (o.node origin (.functionCall f args)).write := by
  refine (callee.guarded f.grip.needsPrefixParens).append fun depth rest _ => ?_
  exact ⟨follows_of_stop (by decide) _, apart_arguments arguments depth rest⟩

theorem stands_methodCall {e n : Fragment} {args : List Fragment} (receiver : Stands e.write)
    (method : Stands n.write) (arguments : ∀ arg ∈ args, Stands arg.write) :
    Stands (o.node origin (.methodCall e n args)).write := by
  simp only [node, List.append_assoc]
  refine (receiver.guarded e.grip.needsPrefixParens).append fun depth rest _ => ?_
  refine ⟨follows_of_stop (by decide) _, fits_solid (by decide) _, ?_⟩
  exact apart_append.mpr ⟨(method depth).2 _ (follows_of_stop (by decide) _),
    apart_arguments arguments depth rest⟩

theorem stands_index {t e : Fragment} (table : Stands t.write) (key : Stands e.write) :
    Stands (o.node origin (.access .bracket t e)).write := by
  simp only [node, List.append_assoc]
  refine (table.guarded t.grip.needsPrefixParens).append fun depth rest _ => ?_
  refine ⟨follows_of_stop (by decide) _, fits_solid (by decide) _, apart_append.mpr ⟨?_, ?_⟩⟩
  · exact (key depth).2 _ (follows_of_stop (by decide) _)
  · exact ⟨fits_solid (by decide) rest, trivial⟩

/-- Pieces that are one name. -/
def IsName (write : Nat → List Piece) : Prop :=
  ∃ text, IsIdentifier text ∧ write = fun _ => [.token .identifier text.toList]

theorem IsName.stands {write : Nat → List Piece} (name : IsName write) : Stands write := by
  obtain ⟨text, identifier, rfl⟩ := name
  exact stands_identifier identifier

/-- The point before a name ends what stands before it. -/
theorem IsName.behind_dot {write : Nat → List Piece} (name : IsName write) (depth : Nat)
    {rest : List Char} (follows : Follows rest) :
    Follows (textOf (word .dot :: write depth) ++ rest) ∧
      Apart (word .dot :: write depth) rest := by
  have standing := (name.stands depth).2 rest follows
  obtain ⟨text, identifier, rfl⟩ := name
  obtain ⟨c, tail, chars, isWord, -⟩ := word_of_identifier (isIdentifier_iff.mp identifier)
  have head : textOf [.token .identifier text.toList] = c :: tail := by
    simp [Piece.chars, chars]
  constructor
  · rw [textOf_cons, head]
    exact follows_point isWord.notDigit _
  · refine ⟨fits_dot ?_, standing⟩
    rw [head, List.cons_append, List.head?_cons]
    rintro d ⟨⟩ rfl
    exact absurd isWord.start (by decide)

theorem stands_member {t n : Fragment} (table : Stands t.write) (name : IsName n.write) :
    Stands (o.node origin (.access .dot t n)).write :=
  (table.guarded t.grip.needsPrefixParens).append fun depth _ follows =>
    name.behind_dot depth follows

theorem stands_methodName {t n : Fragment} (table : Stands t.write) (name : Stands n.write) :
    Stands (o.node origin (.methodName t n)).write := by
  refine table.append fun depth rest follows => ⟨follows_of_stop (by decide) _, ?_⟩
  exact ⟨fits_solid (by decide) _, (name depth).2 rest follows⟩

theorem stands_paren {e : Fragment} (inner : Stands e.write) :
    Stands (o.node origin (.paren e)).write :=
  inner.guarded true

theorem stands_table {fs : List Fragment} (fields : ∀ f ∈ fs, Stands f.write) :
    Stands (o.node origin (.table fs)).write := by
  intro depth
  refine ⟨⟨'\x7b', _, rfl, by decide⟩, fun rest _ => ?_⟩
  refine ⟨fits_solid (by decide) _, apart_append.mpr ⟨?_, fits_solid (by decide) rest, trivial⟩⟩
  exact apart_commas fields depth (follows_of_stop (by decide) rest)

/-- The sign of an assignment and the value behind it. -/
theorem apart_assign {write : Nat → List Piece} (value : Stands write) (depth : Nat)
    {rest : List Char} (follows : Follows rest) : Apart (spaced .assign ++ write depth) rest :=
  apart_append.mpr ⟨apart_spaced (by decide) _, (value depth).2 rest follows⟩

theorem stands_named {n e : Fragment} (name : Stands n.write) (value : Stands e.write) :
    Stands (o.node origin (.field .named (some n) e)).write := by
  simp only [node, List.append_assoc]
  exact name.append fun depth rest follows =>
    ⟨follows_of_stop (by decide) _, apart_assign value depth follows⟩

theorem stands_bracketed {k e : Fragment} (key : Stands k.write) (value : Stands e.write) :
    Stands (o.node origin (.field .bracketed (some k) e)).write := by
  intro depth
  refine ⟨⟨'[', _, rfl, by decide⟩, fun rest follows => ?_⟩
  simp only [node, List.append_assoc, List.cons_append]
  refine ⟨fits_solid (by decide) _, apart_append.mpr ⟨?_, ?_⟩⟩
  · exact (key depth).2 _ (follows_of_stop (by decide) _)
  · exact ⟨fits_solid (by decide) _, apart_assign value depth follows⟩

theorem apart_indentation (blank : o.IsBlank) (depth : Nat) (rest : List Char) :
    Apart (o.indentation depth) rest := by
  refine apart_blanks ?_ rest
  intro c member
  obtain ⟨line, among, inside⟩ := List.mem_flatten.mp member
  rw [(List.mem_replicate.mp among).2] at inside
  exact blank c inside

theorem fits_comment {c : Comment} (writable : c.IsWritable) {rest : List Char}
    (newline : c.kind = .line → ∀ d ∈ rest.head?, d = '\n') : (comment c).Fits rest := by
  obtain ⟨kind, text, span⟩ := c
  cases kind with
  | line =>
    obtain oneLine : isOneLine text.toList := by
      cases writable with
      | lineComment oneLine => exact oneLine
    exact fits_lineComment oneLine (newline rfl)
  | block =>
    obtain enclosable : isEnclosable text.toList := by
      cases writable with
      | blockComment enclosable => exact enclosable
    exact fits_blockComment enclosable rest

theorem apart_commentLines (blank : o.IsBlank) {comments : List Comment}
    (writable : ∀ c ∈ comments, c.IsWritable) (depth : Nat) (rest : List Char) :
    Apart (o.commentLines depth comments) rest := by
  unfold commentLines
  split
  · induction comments with
    | nil => trivial
    | cons c comments ih =>
      obtain ⟨first, writable⟩ := List.forall_mem_cons.mp writable
      rw [List.flatMap_cons, List.append_assoc]
      refine apart_append.mpr ⟨apart_indentation blank depth _, ?_, fits_newline _, ih writable⟩
      exact fits_comment first fun _ d member => (Option.some.inj member).symm
  · trivial

theorem apart_trailing {comments : List Comment} (writable : ∀ c ∈ comments, c.IsWritable)
    (oneLine : ∀ c ∈ comments.dropLast, c.leavesLineOpen = true) (rest : List Char) :
    Apart (comments.flatMap fun c => [space, comment c]) ('\n' :: rest) := by
  induction comments with
  | nil => trivial
  | cons c comments ih =>
    obtain ⟨first, writable⟩ := List.forall_mem_cons.mp writable
    cases comments with
    | nil =>
      exact ⟨fits_space _, fits_comment first fun _ d member => (Option.some.inj member).symm,
        trivial⟩
    | cons next comments =>
      obtain ⟨leaves, oneLine⟩ := List.forall_mem_cons.mp oneLine
      refine ⟨fits_space _, fits_comment first fun line => ?_, ih writable oneLine⟩
      simp [Comment.leavesLineOpen, line] at leaves

theorem follows_finish (rest : List Char) : Follows (textOf (o.finish origin) ++ rest) := by
  unfold finish
  split
  · exact follows_of_stop (by decide) _
  · split
    · cases origin.trailing with
      | nil => exact follows_of_stop (by decide) _
      | cons c comments => exact follows_of_stop (by decide) _
    · exact follows_of_stop (by decide) _

theorem apart_finish (writable : ∀ c ∈ origin.trailing, c.IsWritable)
    (oneLine : ∀ c ∈ origin.trailing.dropLast, c.leavesLineOpen = true) (rest : List Char) :
    Apart (o.finish origin) rest := by
  unfold finish
  refine apart_append.mpr ⟨apart_append.mpr ⟨?_, ?_⟩, fits_newline rest, trivial⟩
  · split
    · exact ⟨fits_solid (by decide) _, trivial⟩
    · trivial
  · split
    · exact apart_trailing writable oneLine rest
    · trivial

/-- A statement with its comments stands before any text if its own words do before the end of a
line. -/
theorem standsAlone_statement (blank : o.IsBlank) {kind : Kind SourceTree} (fit : Fit origin kind)
    (isStatement : kind.isStatement = true) {write : Nat → List Piece}
    (core : ∀ depth rest, Follows rest → Apart (write depth) rest) :
    StandsAlone (o.statement origin write).write := by
  intro depth rest
  have oneLine := (isPlaced_iff_of_isStatement isStatement).mp fit.placed
  refine apart_append.mpr ⟨apart_append.mpr ⟨apart_append.mpr ⟨?_, ?_⟩, ?_⟩, ?_⟩
  · exact apart_commentLines blank fit.leading depth _
  · exact apart_indentation blank depth _
  · exact core depth _ (follows_finish rest)
  · exact apart_finish fit.trailing oneLine rest

theorem apart_body (blank : o.IsBlank) {b : Fragment} (block : StandsAlone b.write)
    {close : TokenKind} (keyword : close ∈ TokenKind.keywords) (depth : Nat) {rest : List Char}
    (follows : Follows rest) : Apart (o.body depth b close) rest := by
  refine ⟨fits_newline _, apart_append.mpr ⟨apart_append.mpr ⟨block _ _, ?_⟩, ?_⟩⟩
  · exact apart_indentation blank depth _
  · exact ⟨fits_keyword keyword follows.1, trivial⟩

theorem apart_function (blank : o.IsBlank) {params : List Fragment} {b : Fragment}
    (stand : ∀ p ∈ params, Stands p.write) (block : StandsAlone b.write) (depth : Nat)
    {rest : List Char} (follows : Follows rest) : Apart (o.function depth params b) rest :=
  apart_append.mpr ⟨apart_arguments stand depth _, apart_body blank block (by decide) depth follows⟩

theorem stands_anonymousFunction (blank : o.IsBlank) {params : List Fragment} {b : Fragment}
    (stand : ∀ p ∈ params, Stands p.write) (block : StandsAlone b.write) :
    Stands (o.node origin (.anonymousFunction params b)).write := by
  intro depth
  refine ⟨⟨'f', _, rfl, by decide⟩, fun rest follows => ⟨fits_keyword (by decide) ?_, ?_⟩⟩
  · exact (follows_of_stop (by decide) _).1
  · exact apart_function blank stand block depth follows

end Nodes

/-- How a tree that stands in a place is written. -/
def Places (o : Layout) (role : Role) (t : SourceTree) : Prop :=
  match role with
  | .name => IsName (o.fragment t).write
  | .dottedName | .functionName | .parameter | .expression | .field => Stands (o.fragment t).write
  | .elseIf | .elseBlock | .statement | .block | .chunk => StandsAlone (o.fragment t).write

theorem forall_map_fragment {o : Layout} {p : (Nat → List Piece) → Prop} {ts : List SourceTree}
    (all : ∀ t ∈ ts, p (o.fragment t).write) : ∀ f ∈ ts.map o.fragment, p f.write := by
  simpa using all

theorem apart_flatMap {fs : List Fragment} (stand : ∀ f ∈ fs, StandsAlone f.write) (depth : Nat)
    (rest : List Char) : Apart (fs.flatMap (·.write depth)) rest := by
  induction fs with
  | nil => trivial
  | cons f fs ih =>
    obtain ⟨first, stand⟩ := List.forall_mem_cons.mp stand
    exact apart_append.mpr ⟨first depth _, ih stand⟩

/-- The word `then` at the end of its line. -/
theorem apart_thenLine (rest : List Char) : Apart [space, word .thenKw, newline] rest :=
  ⟨fits_space _, fits_keyword (by decide) (follows_of_stop (by decide) _).1, fits_newline rest,
    trivial⟩

/-- The word `do` before the body of a loop. -/
theorem apart_doWord (rest : List Char) : Apart [space, word .doKw] ('\n' :: rest) :=
  ⟨fits_space _, fits_keyword (by decide) (follows_of_stop (by decide) _).1, trivial⟩

/-- Values behind the sign of an assignment, if there are any. -/
theorem apart_values {fs : List Fragment} (values : ∀ f ∈ fs, Stands f.write) (depth : Nat)
    {rest : List Char} (follows : Follows rest) :
    Follows (textOf (if fs.isEmpty then [] else spaced .assign ++ commas depth fs) ++ rest) ∧
      Apart (if fs.isEmpty then [] else spaced .assign ++ commas depth fs) rest := by
  split
  · exact ⟨follows, trivial⟩
  · refine ⟨follows_of_stop (by decide) _, apart_append.mpr ⟨apart_spaced (by decide) _, ?_⟩⟩
    exact apart_commas values depth follows

theorem assignToken_symbol {op : BinaryOp} {kind : TokenKind} (sign : op.assignToken? = some kind) :
    kind ∈ TokenKind.symbols := by
  cases op <;> cases sign <;> decide

/-- Every well formed tree is written in pieces that stand apart. -/
theorem places {o : Layout} (blank : o.IsBlank) {role : Role} {t : SourceTree}
    (formed : Writable role t) : o.Places role t := by
  induction formed with
    simp only [Places, fragment_node, Kind.map] at *
  | name identifier _ => exact ⟨_, identifier, rfl⟩
  | plain _ name => exact name.stands
  | dotted _ _ _ table name => exact stands_member table name
  | function _ name => exact name
  | method _ _ _ table method => exact stands_methodName table method.stands
  | parameter _ name => exact name.stands
  | varParameter _ => exact stands_varArg
  | ofName _ name => exact name.stands
  | literal token _ => exact stands_literal token
  | varArg _ => exact stands_varArg
  | binary _ _ _ left right => exact stands_binary _ left right
  | unary _ _ operand => exact stands_unary _ operand
  | paren _ _ inner => exact stands_paren inner
  | call _ _ _ callee arguments => exact stands_call callee (forall_map_fragment arguments)
  | methodCall _ _ _ _ receiver method arguments =>
    exact stands_methodCall receiver method.stands (forall_map_fragment arguments)
  | member _ _ _ table name => exact stands_member table name
  | index _ _ _ table key => exact stands_index table key
  | table _ _ fields => exact stands_table (forall_map_fragment fields)
  | anonymousFunction _ _ _ _ parameters _ body =>
    exact stands_anonymousFunction blank (forall_map_fragment parameters) body
  | positional _ _ value => exact value
  | named _ _ _ name value => exact stands_named name.stands value
  | bracketed _ _ _ key value => exact stands_bracketed key value
  | assignment _ _ _ _ _ _ fit targets values =>
    refine standsAlone_statement blank fit rfl fun depth rest follows => ?_
    refine apart_append.mpr ⟨apart_append.mpr ⟨?_, apart_spaced (by decide) _⟩, ?_⟩
    · exact apart_commas (forall_map_fragment targets) depth (follows_of_stop (by decide) _)
    · exact apart_commas (forall_map_fragment values) depth follows
  | compoundAssignment sign _ _ _ _ fit target value =>
    refine standsAlone_statement blank fit rfl fun depth rest follows => ?_
    obtain ⟨kind, found⟩ := Option.isSome_iff_exists.mp sign
    simp only [assignSign, found]
    refine apart_append.mpr ⟨apart_append.mpr ⟨?_, ?_⟩, (value depth).2 rest follows⟩
    · exact (target depth).2 _ (follows_of_stop (by decide) _)
    · exact apart_spaced (.inr (assignToken_symbol found)) _
  | localNames _ _ _ fit names values =>
    refine standsAlone_statement blank fit rfl fun depth rest follows => ?_
    obtain ⟨behind, standing⟩ := apart_values (forall_map_fragment values) depth follows
    have list := fun n member => (names n member).stands
    refine apart_append.mpr ⟨apart_append.mpr ⟨apart_wordThen (by decide) _, ?_⟩, standing⟩
    exact apart_commas (forall_map_fragment list) depth behind
  | localFunction _ _ _ _ fit name parameters _ body =>
    refine standsAlone_statement blank fit rfl fun depth rest follows => ?_
    refine apart_append.mpr ⟨apart_append.mpr ⟨apart_append.mpr ⟨?_, ?_⟩, ?_⟩, ?_⟩
    · exact apart_wordThen (by decide) _
    · exact apart_wordThen (by decide) _
    · exact (name.stands depth).2 _ (follows_of_stop (by decide) _)
    · exact apart_function blank (forall_map_fragment parameters) body depth follows
  | functionDefinition _ _ _ _ fit name parameters _ body =>
    refine standsAlone_statement blank fit rfl fun depth rest follows => ?_
    refine apart_append.mpr ⟨apart_append.mpr ⟨apart_wordThen (by decide) _, ?_⟩, ?_⟩
    · exact (name depth).2 _ (follows_of_stop (by decide) _)
    · exact apart_function blank (forall_map_fragment parameters) body depth follows
  | returning _ fit values =>
    refine standsAlone_statement blank fit rfl fun depth rest follows => ?_
    split
    · exact ⟨fits_keyword (by decide) follows.1, trivial⟩
    · exact ⟨fits_word_space (by decide) _, fits_space _,
        apart_commas (forall_map_fragment values) depth follows⟩
  | breaking fit =>
    exact standsAlone_statement blank fit rfl fun depth rest follows =>
      ⟨fits_keyword (by decide) follows.1, trivial⟩
  | continuing fit =>
    exact standsAlone_statement blank fit rfl fun depth rest follows =>
      ⟨fits_keyword (by decide) follows.1, trivial⟩
  | doBlock _ fit body =>
    refine standsAlone_statement blank fit rfl fun depth rest follows => ⟨?_, ?_⟩
    · exact fits_keyword (by decide) (follows_of_stop (by decide) _).1
    · exact apart_body blank body (by decide) depth follows
  | ifChain _ _ _ _ fit condition body elseIfs elseBranch =>
    refine standsAlone_statement blank fit rfl fun depth rest follows => ?_
    simp only [apart_append, and_assoc]
    refine ⟨apart_wordThen (by decide) _, ?_, apart_thenLine _, body _ _, ?_, ?_, ?_, ?_⟩
    · exact (condition depth).2 _ (follows_of_stop (by decide) _)
    · exact apart_flatMap (forall_map_fragment elseIfs) depth _
    · refine apart_flatMap ?_ depth _
      simpa using elseBranch
    · exact apart_indentation blank depth _
    · exact ⟨fits_keyword (by decide) follows.1, trivial⟩
  | whileLoop _ _ fit condition body =>
    refine standsAlone_statement blank fit rfl fun depth rest follows => ?_
    simp only [apart_append, and_assoc]
    refine ⟨apart_wordThen (by decide) _, ?_, apart_doWord _, ?_⟩
    · exact (condition depth).2 _ (follows_of_stop (by decide) _)
    · exact apart_body blank body (by decide) depth follows
  | repeatLoop _ _ fit body condition =>
    refine standsAlone_statement blank fit rfl fun depth rest follows => ⟨?_, ?_⟩
    · exact fits_keyword (by decide) (follows_of_stop (by decide) _).1
    · refine apart_append.mpr ⟨?_, fits_space _, (condition depth).2 rest follows⟩
      exact apart_body blank body (by decide) depth (follows_of_stop (by decide) _)
  | numericFor _ _ _ _ _ fit counter start limit step body =>
    refine standsAlone_statement blank fit rfl fun depth rest follows => ?_
    simp only [apart_append, and_assoc]
    refine ⟨apart_wordThen (by decide) _, ?_, apart_spaced (by decide) _, ?_, apart_doWord _, ?_⟩
    · exact (counter.stands depth).2 _ (follows_of_stop (by decide) _)
    · refine apart_commas ?_ depth (follows_of_stop (by decide) _)
      simpa [start, limit] using step
    · exact apart_body blank body (by decide) depth follows
  | genericFor _ _ _ _ _ fit names iterators body =>
    refine standsAlone_statement blank fit rfl fun depth rest follows => ?_
    have list := fun n member => (names n member).stands
    simp only [apart_append, and_assoc]
    refine ⟨apart_wordThen (by decide) _, ?_, apart_spaced (by decide) _, ?_, apart_doWord _, ?_⟩
    · exact apart_commas (forall_map_fragment list) depth (follows_of_stop (by decide) _)
    · exact apart_commas (forall_map_fragment iterators) depth (follows_of_stop (by decide) _)
    · exact apart_body blank body (by decide) depth follows
  | expressionStatement _ _ _ fit expression =>
    exact standsAlone_statement blank fit rfl fun depth => (expression depth).2
  | elseIf _ _ _ condition body =>
    intro depth rest
    simp only [node, apart_append, and_assoc]
    refine ⟨apart_indentation blank depth _, apart_wordThen (by decide) _, ?_, apart_thenLine _,
      body _ rest⟩
    exact (condition depth).2 _ (follows_of_stop (by decide) _)
  | elseBlock _ _ body =>
    intro depth rest
    refine apart_append.mpr ⟨apart_append.mpr ⟨apart_indentation blank depth _, ?_⟩, body _ rest⟩
    exact ⟨fits_keyword (by decide) (follows_of_stop (by decide) _).1, fits_newline _, trivial⟩
  | block _ _ fit statements =>
    intro depth rest
    refine apart_append.mpr ⟨apart_flatMap (forall_map_fragment statements) depth _, ?_⟩
    exact apart_commentLines blank fit.trailing depth rest
  | chunk _ _ body => exact body

/-- Reading the text of a program gives its pieces. -/
theorem cut_pieces {o : Layout} (blank : o.IsBlank) {t : SourceTree} (formed : Writable .chunk t) :
    cut (textOf (o.pieces t)) = o.pieces t := by
  have apart := places blank formed 0 []
  have read := cut_of_apart apart
  rwa [List.append_nil, cut, List.append_nil] at read

end Layout

end LuaTree
