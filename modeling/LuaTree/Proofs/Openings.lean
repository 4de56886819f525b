import LuaTree.Proofs.FirstToken
import LuaTree.Proofs.Parentheses

/-!
# Statements that begin with an expression

A statement is told by its first token, so a statement that begins with an
expression is read as something else if the text of that expression begins with
the word of a statement. The word `function` is the only one: it begins a
definition, which wants a name where a function without a name has its
parameters.

Operands get parentheses for what they are and not for where they stand, so a
call of a function without a name gets none. `reparses_iff` says that this is
the only way in which the text of a statement that begins with an expression
does not come back as the statement.
-/

namespace LuaTree

open Arena

/-- The expression with which a statement begins, if it begins with one. -/
def Kind.opening? {α : Type} : Kind α → Option α
  | .expressionStatement e => some e
  | .assignment targets _ => targets.head?
  | .compoundAssignment _ target _ => some target
  | _ => none

/-- Whether the text of a statement begins with that of a function without a name. -/
def Tree.beginsWithFunction {ι : Type} (t : Tree ι) : Bool :=
  t.kind.opening?.any Tree.opensWithFunction

/-- An expression without comments. -/
abbrev IsBareExpression (e : SourceTree) : Prop :=
  WellFormed (fun m _ => m.IsBare) .expression e

/-- A call, an assignment or a compound assignment without comments, whatever its calls and targets
are rooted at. -/
inductive BeginsWithExpression : SourceTree → Prop
  | call {m : Origin} {e : SourceTree} (bare : m.IsBare) (expression : IsBareExpression e)
      (call : e.kind.isCallLike = true) : BeginsWithExpression (.node m (.expressionStatement e))
  | assignment {m : Origin} {ts vs : List SourceTree} (bare : m.IsBare) (someTarget : ts ≠ [])
      (targets : ∀ t ∈ ts, IsBareExpression t)
      (assignable : ∀ t ∈ ts, t.kind.isAssignable = true) (someValue : vs ≠ [])
      (values : ∀ v ∈ vs, IsBareExpression v) :
      BeginsWithExpression (.node m (.assignment ts vs))
  | compoundAssignment {m : Origin} {op : BinaryOp} {t v : SourceTree} (bare : m.IsBare)
      (sign : op.assignToken?.isSome = true) (target : IsBareExpression t)
      (assignable : t.kind.isAssignable = true) (value : IsBareExpression v) :
      BeginsWithExpression (.node m (.compoundAssignment op t v))

/-- A program of one statement. -/
def Tree.program (m n : Origin) (s : SourceTree) : SourceTree :=
  .node m (.chunk (.node n (.block [s])))

/-- The text parses to a program of one statement, which is the given one but for parentheses. -/
def Reparses (text : String) (s : SourceTree) : Prop :=
  ∃ m n s', parse text = .ok (.program m n s') ∧ s'.eraseParens.same s.eraseParens = true

variable {s : SourceTree} {m n : Origin} {o : Layout}

theorem BeginsWithExpression.wellFormed (formed : BeginsWithExpression s)
    (noFunction : s.beginsWithFunction = false) :
    WellFormed (fun m _ => m.IsBare) .statement s := by
  cases formed with
  | call bare expression call => exact .expressionStatement expression call noFunction bare
  | @assignment m ts vs bare someTarget targets assignable someValue values =>
    refine .assignment someTarget targets assignable (fun t first => ?_) someValue values bare
    change ts.head?.any Tree.opensWithFunction = false at noFunction
    rwa [show ts.head? = some t from first] at noFunction
  | compoundAssignment bare sign target assignable value =>
    exact .compoundAssignment sign target assignable noFunction value bare

/-- A program of one statement is known from its notes to be one. -/
theorem exists_program_of_notes {u : SourceTree}
    (notes : u.notes = o.outline (Tree.program m n s)) :
    ∃ m' n' s', u = Tree.program m' n' s' ∧ s'.notes = o.outline s := by
  obtain ⟨m', kind⟩ := u
  rw [Tree.program, Tree.notes_node, Layout.outline_node] at notes
  obtain ⟨-, same⟩ := Tree.node.inj notes
  cases kind <;> first | cases same | skip
  next body =>
  obtain ⟨n', kind⟩ := body
  have same := Kind.chunk.inj same
  rw [Tree.notes_node, Layout.outline_node] at same
  obtain ⟨-, same⟩ := Tree.node.inj same
  cases kind <;> first | cases same | skip
  next statements =>
  obtain ⟨s', rfl, alone⟩ := List.map_eq_singleton_iff.mp (Kind.block.inj same)
  exact ⟨m', n', s', rfl, alone⟩

theorem wrap_program : (Tree.program m n s).wrap = Tree.program m n s.wrap := by
  simp only [Tree.program, Tree.wrap_node, Kind.map, Kind.wrapOperands, List.map]

theorem reparses_of_not_beginsWithFunction (formed : BeginsWithExpression s) (chunk : m.IsBare)
    (block : n.IsBare) (blank : o.IsBlank) (noFunction : s.beginsWithFunction = false) :
    Reparses ((Tree.program m n s).render o) s := by
  have program : WellFormed (fun m _ => m.IsBare) .chunk (Tree.program m n s) := by
    refine .chunk (.block ?_ (by simp) block) chunk
    exact List.forall_mem_singleton.mpr (formed.wellFormed noFunction)
  obtain ⟨u, parsed, notes⟩ := parse_render blank (writable_wrap program)
  rw [Tree.render, Layout.pieces, o.fragment_wrap] at parsed
  rw [wrap_program] at notes
  obtain ⟨m', n', s', rfl, alone⟩ := exists_program_of_notes notes
  refine ⟨m', n', s', parsed, ?_⟩
  have erased := congrArg Tree.eraseParens alone
  rw [Tree.notes, Layout.outline, Tree.eraseParens_mapMark, Tree.eraseParens_mapMark,
    Tree.eraseParens_wrap] at erased
  exact Tree.same_of_mapMark_eq erased

/-- Fragments between commas begin with the first of them. -/
theorem Layout.exists_commas_cons (depth : Nat) (f : Fragment) (fs : List Fragment) :
    ∃ more, commas depth (f :: fs) = f.write depth ++ more := by
  cases fs with
  | nil => exact ⟨[], by rw [commas_singleton, List.append_nil]⟩
  | cons g fs => exact ⟨_, commas_cons_cons depth f g fs⟩

/-- What begins with a function is written as the word `function` and a parenthesis. -/
theorem exists_write_of_opensWithFunction {t : SourceTree} (opens : t.opensWithFunction = true)
    (depth : Nat) :
    ∃ more, (o.fragment t).write depth =
      Layout.word .functionKw :: Layout.word .lParen :: more := by
  induction t using Tree.induct with
  | step m kind ih =>
    -- What is called or accessed gets no parentheses here: only operations do.
    have head {f : SourceTree} (child : f ∈ kind.children) (opens : f.opensWithFunction = true) :
        ∃ more, Layout.head (o.fragment f) depth =
          Layout.word .functionKw :: Layout.word .lParen :: more := by
      have closed : f.grip.needsPrefixParens = false := by
        refine Bool.eq_false_iff.mpr fun operation => ?_
        rw [Tree.opensWithFunction_of_grip operation] at opens
        exact absurd opens Bool.false_ne_true
      rw [Layout.head, Layout.fragment_grip, closed]
      exact ih f child opens
    rw [Tree.opensWithFunction_node] at opens
    rw [Layout.fragment_node]
    cases kind with
    | anonymousFunction params block => exact ⟨_, rfl⟩
    | functionCall callee args =>
      obtain ⟨more, written⟩ := head (by simp [Kind.children]) opens
      simp only [Kind.map, Layout.node, written]
      exact ⟨_, rfl⟩
    | methodCall receiver method args =>
      obtain ⟨more, written⟩ := head (by simp [Kind.children]) opens
      simp only [Kind.map, Layout.node, written]
      exact ⟨_, rfl⟩
    | access style table key =>
      obtain ⟨more, written⟩ := head (by simp [Kind.children]) opens
      cases style <;> simp only [Kind.map, Layout.node, written] <;> exact ⟨_, rfl⟩
    | _ => exact absurd opens Bool.false_ne_true

/-- So is a statement that begins with it. -/
theorem exists_pieces_of_beginsWithFunction (formed : BeginsWithExpression s)
    (function : s.beginsWithFunction = true) :
    ∃ more, o.pieces (Tree.program m n s) =
      Layout.word .functionKw :: Layout.word .lParen :: more := by
  have start (write : Nat → List Piece) {m : Origin} (bare : m.IsBare)
      (written : ∃ more, write 0 = Layout.word .functionKw :: Layout.word .lParen :: more) :
      ∃ more, (o.statement m write).write 0 =
        Layout.word .functionKw :: Layout.word .lParen :: more := by
    obtain ⟨more, written⟩ := written
    refine ⟨more ++ o.finish m, ?_⟩
    simp [Layout.statement, Layout.commentLines, Layout.indentation, bare.1, written]
  suffices written : ∃ more, (o.fragment s).write 0 =
      Layout.word .functionKw :: Layout.word .lParen :: more by
    obtain ⟨more, written⟩ := written
    simp only [Layout.pieces, Tree.program, Layout.fragment_node, Kind.map, Layout.node,
      List.map_cons, List.map_nil, List.flatMap_cons, written]
    exact ⟨_, rfl⟩
  cases formed with
  | call bare expression call =>
    rw [Layout.fragment_node]
    exact start _ bare (exists_write_of_opensWithFunction function 0)
  | @assignment m ts vs bare someTarget =>
    rw [Layout.fragment_node]
    refine start _ bare ?_
    obtain ⟨t, ts, rfl⟩ := List.exists_cons_of_ne_nil someTarget
    obtain ⟨more, written⟩ := exists_write_of_opensWithFunction (o := o) function 0
    obtain ⟨others, commas⟩ := Layout.exists_commas_cons 0 (o.fragment t) (ts.map o.fragment)
    rw [List.map_cons, commas, written]
    exact ⟨_, rfl⟩
  | compoundAssignment bare sign target assignable value =>
    rw [Layout.fragment_node]
    refine start _ bare ?_
    obtain ⟨more, written⟩ := exists_write_of_opensWithFunction (o := o) function 0
    rw [written]
    exact ⟨_, rfl⟩

/-- A definition has a name behind its first word. -/
theorem not_parse_function_lParen {text : String} (more : List Char)
    (chars : text.toList = "function(".toList ++ more) (u : SourceTree) : parse text ≠ .ok u := by
  intro parsed
  have fits : Piece.cut text.toList =
      Layout.word .functionKw :: Layout.word .lParen :: Piece.cut more := by
    have apart : Piece.Apart [Layout.word .functionKw, Layout.word .lParen] more :=
      ⟨Piece.fits_keyword (by decide) (Piece.follows_of_stop (by decide) _).1,
        Piece.fits_solid (by decide) _, trivial⟩
    rw [chars]
    exact Piece.cut_of_apart apart
  obtain ⟨last, start⟩ := Cursor.exists_facing_cut text
  obtain ⟨c', @⟨body, _, readBody, -⟩⟩ := parseTokens_ok_iff.mp parsed
  rw [start, fits] at readBody
  have before : Cursor.Before (Layout.word .functionKw :: Layout.word .lParen :: Piece.cut more)
      (Cursor.facing last .start _) := ⟨last, .start, rfl⟩
  obtain ⟨function, -, behind⟩ := before.token
  have parenthesis := behind.before.kind
  generalize Cursor.facing last .start _ = c at readBody before function parenthesis
  have ends := before.endsFile
  obtain ⟨readAll⟩ := (Grammar.derives_iff ends).mp readBody
  rcases (Grammar.derives_iff ends).mp readAll with stop | ⟨-, readStatement, -, -⟩
  · rw [function] at stop
    exact absurd stop (by decide)
  · have word : c.afterLeading.current.kind = .functionKw := function
    cases (Grammar.derives_iff (c := c.afterLeading) ends).mp readStatement with
    | function start read =>
      obtain @⟨first, _, _, _, _, _, _, readName, -, -⟩ := read
      obtain ⟨identifier⟩ := readName
      rw [Cursor.current_advance] at identifier parenthesis
      exact absurd (parenthesis.symm.trans identifier) nofun
    | expression start read => exact start (by rw [word]; decide)
    | localStatement start read | returning start read | breaking start | continuing start
    | doBlock start read | ifChain start read | whileLoop start read | repeatLoop start read
    | forLoop start read => simp [word] at start

theorem not_reparses_of_beginsWithFunction (formed : BeginsWithExpression s)
    (function : s.beginsWithFunction = true) : ¬ Reparses ((Tree.program m n s).render o) s := by
  rintro ⟨m', n', s', parsed, -⟩
  obtain ⟨more, written⟩ := exists_pieces_of_beginsWithFunction (m := m) (n := n) (o := o) formed
    function
  refine not_parse_function_lParen (Piece.textOf more) ?_ _ parsed
  rw [Tree.render, String.toList_ofList, written]
  rfl

/-- A statement made by hand that begins with an expression comes back from the text of its program
if and only if that expression does not begin with a function. -/
theorem reparses_iff (a : Arena) (id : NodeId) (program : a.tree id = .program m n s)
    (chunk : m.IsBare) (block : n.IsBare) (formed : BeginsWithExpression s) (blank : o.IsBlank) :
    Reparses (a.render id o) s ↔ s.beginsWithFunction = false := by
  rw [render, program]
  constructor
  · intro back
    refine Bool.eq_false_iff.mpr fun function => ?_
    exact not_reparses_of_beginsWithFunction formed function back
  · exact reparses_of_not_beginsWithFunction formed chunk block blank

/-- An assignment to a field of a table and to an element of a negated string, and a method of the
value of a call. -/
theorem reparses_iff_rooted :
    let leaf (name : String) : SourceTree := .node default (.identifier name)
    let text : SourceTree := .node default (.literal ⟨"a", .string '"'⟩)
    let values : SourceTree := .node default .varArg
    let field : SourceTree := .node default (.access .dot (.node default (.table [])) (leaf "x"))
    let element : SourceTree :=
      .node default (.access .bracket (.node default (.unary .neg text)) values)
    let method : SourceTree :=
      .node default (.methodCall (.node default (.functionCall values [field])) (leaf "x") [])
    let assignment : SourceTree := .node default (.assignment [field, element] [values])
    let call : SourceTree := .node default (.expressionStatement method)
    let first := Tree.program default default assignment
    let second := Tree.program default default call
    Reparses ((ofTree first).render (top first) {}) assignment ∧
      Reparses ((ofTree second).render (top second) { semicolons := true }) call := by
  have bare : (default : Origin).IsBare := ⟨rfl, rfl⟩
  have x : WellFormed (fun m _ => m.IsBare) .name (.node default (.identifier "x")) :=
    .name (by decide +kernel) bare
  have text : IsBareExpression (.node default (.literal ⟨"a", .string '"'⟩)) :=
    .literal ⟨by decide, by decide⟩ bare
  have values : IsBareExpression (.node default .varArg) := .varArg bare
  have field : IsBareExpression _ := .member (.table (List.forall_mem_nil _) bare) x bare
  have negated : IsBareExpression (.node default (.unary .neg _)) := .unary text bare
  have element : IsBareExpression _ := .index negated values bare
  have method : IsBareExpression _ :=
    .methodCall (.call values (List.forall_mem_singleton.mpr field) bare) x
      (List.forall_mem_nil _) bare
  refine ⟨(reparses_iff _ _ (tree_ofTree _) bare bare ?_ (by decide)).mpr rfl,
    (reparses_iff _ _ (tree_ofTree _) bare bare ?_ (by decide)).mpr rfl⟩
  · refine .assignment bare (by simp) ?_ ?_ (by simp) (List.forall_mem_singleton.mpr values)
    · exact List.forall_mem_cons.mpr ⟨field, List.forall_mem_singleton.mpr element⟩
    · exact List.forall_mem_cons.mpr ⟨rfl, List.forall_mem_singleton.mpr rfl⟩
  · exact .call bare method rfl

/-- A call of a function without a name is written without the parentheses that it needs. -/
theorem not_reparses_calledFunction :
    let function : SourceTree :=
      .node default (.anonymousFunction [] (.node default (.block [])))
    let call : SourceTree :=
      .node default (.expressionStatement (.node default (.functionCall function [])))
    let program := Tree.program default default call
    BeginsWithExpression call ∧ (ofTree program).render (top program) {} = "function()\nend()\n" ∧
      ¬ Reparses ((ofTree program).render (top program) {}) call := by
  have bare : (default : Origin).IsBare := ⟨rfl, rfl⟩
  have function : IsBareExpression
      (.node default (.anonymousFunction [] (.node default (.block [])))) :=
    .anonymousFunction (by simp) (by simp) (.block (by simp) (by simp) bare) bare
  have formed : BeginsWithExpression (.node default (.expressionStatement _)) :=
    .call bare (.call function (List.forall_mem_nil _) bare) rfl
  refine ⟨formed, by decide +kernel, ?_⟩
  rw [render, tree_ofTree]
  exact not_reparses_of_beginsWithFunction formed rfl

end LuaTree
