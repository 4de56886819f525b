import LuaTree.Proofs.Grafting
import LuaTree.Proofs.Rereading

/-!
# Parentheses of trees made by hand

The operands of a tree made by hand can be nested in any way. `Tree.wrap` puts
parentheses around just those operands that the layout asks for. The wrapped tree
is written as the tree itself, holds together without further parentheses, and is
therefore what parses from the text.
-/

namespace LuaTree

open Arena

namespace Tree

/-- The tree in parentheses, if they are asked for. -/
def parenIf (parens : Bool) (t : SourceTree) : SourceTree :=
  if parens then .node (.ofSpan default) (.paren t) else t

end Tree

/-- The node with parentheses around the operands that need them. -/
def Kind.wrapOperands : Kind SourceTree → Kind SourceTree
  | .binary op l r =>
    .binary op (l.parenIf (l.grip.needsParens op false)) (r.parenIf (r.grip.needsParens op true))
  | .unary op e => .unary op (e.parenIf e.grip.isLooseBinary)
  | .functionCall f args => .functionCall (f.parenIf f.grip.needsPrefixParens) args
  | .methodCall e n args => .methodCall (e.parenIf e.grip.needsPrefixParens) n args
  | .access style t key => .access style (t.parenIf t.grip.needsPrefixParens) key
  | kind => kind

namespace Tree

/-- The tree with parentheses around the operands that need them, at every node. -/
def wrap : SourceTree → SourceTree :=
  fold fun m kind => .node m kind.wrapOperands

/-- A node, or what is inside if it is a pair of parentheses. -/
def unparen {ι : Type} (m : ι) : Kind (Tree ι) → Tree ι
  | .paren inner => inner
  | kind => .node m kind

/-- The tree without its parentheses. -/
def eraseParens {ι : Type} : Tree ι → Tree ι :=
  fold unparen

theorem wrap_node (m : Origin) (kind : Kind SourceTree) :
    wrap (.node m kind) = .node m (kind.map wrap).wrapOperands :=
  fold_node _ _ _

end Tree

namespace Kind

variable (kind : Kind SourceTree)

theorem isTerminal_wrapOperands : kind.wrapOperands.isTerminal = kind.isTerminal := by
  cases kind <;> rfl

theorem isAssignable_wrapOperands : kind.wrapOperands.isAssignable = kind.isAssignable := by
  cases kind <;> rfl

theorem isCallLike_wrapOperands : kind.wrapOperands.isCallLike = kind.isCallLike := by
  cases kind <;> rfl

theorem grip_wrapOperands : kind.wrapOperands.grip = kind.grip := by
  cases kind <;> rfl

theorem map_wrapOperands {α : Type} {f : SourceTree → α}
    (blind : ∀ parens t, f (t.parenIf parens) = f t) :
    kind.wrapOperands.map f = kind.map f := by
  cases kind <;> simp [wrapOperands, map, blind]

end Kind

namespace Tree

theorem kind_wrap (t : SourceTree) : t.wrap.kind = (t.kind.map wrap).wrapOperands := by
  obtain ⟨m, kind⟩ := t
  rw [wrap_node]
  rfl

theorem isTerminal_wrap (t : SourceTree) : t.wrap.kind.isTerminal = t.kind.isTerminal := by
  rw [kind_wrap, Kind.isTerminal_wrapOperands, Kind.isTerminal_map]

theorem isAssignable_wrap (t : SourceTree) : t.wrap.kind.isAssignable = t.kind.isAssignable := by
  rw [kind_wrap, Kind.isAssignable_wrapOperands, Kind.isAssignable_map]

theorem isCallLike_wrap (t : SourceTree) : t.wrap.kind.isCallLike = t.kind.isCallLike := by
  rw [kind_wrap, Kind.isCallLike_wrapOperands, Kind.isCallLike_map]

@[simp] theorem grip_wrap (t : SourceTree) : t.wrap.grip = t.grip := by
  rw [grip, kind_wrap, Kind.grip_wrapOperands, Kind.grip_map]
  rfl

/-- Only what holds together by itself can begin with a function. -/
theorem opensWithFunction_of_grip {t : SourceTree} (operation : t.grip.needsPrefixParens = true) :
    t.opensWithFunction = false := by
  obtain ⟨m, kind⟩ := t
  rw [opensWithFunction_node]
  cases kind <;> first | rfl | exact absurd operation Bool.false_ne_true

theorem opensWithFunction_parenIf {t u : SourceTree} (same : t.grip = u.grip)
    (opens : t.opensWithFunction = u.opensWithFunction) :
    (t.parenIf t.grip.needsPrefixParens).opensWithFunction = u.opensWithFunction := by
  unfold parenIf
  split
  · next needed =>
    rw [same] at needed
    rw [opensWithFunction_of_grip needed, opensWithFunction_node]
  · exact opens

theorem opensWithFunction_wrap (t : SourceTree) :
    t.wrap.opensWithFunction = t.opensWithFunction := by
  induction t using Tree.induct with
  | step m kind ih =>
    rw [wrap_node, opensWithFunction_node, opensWithFunction_node]
    cases kind with
    | functionCall f args | methodCall f n args | access style f key =>
      exact opensWithFunction_parenIf (grip_wrap f) (ih f (by simp [Kind.children]))
    | _ => rfl

theorem eraseParens_node {ι : Type} (m : ι) (kind : Kind (Tree ι)) :
    eraseParens (.node m kind) = unparen m (kind.map eraseParens) :=
  fold_node _ _ _

theorem eraseParens_parenIf (parens : Bool) (t : SourceTree) :
    (t.parenIf parens).eraseParens = t.eraseParens := by
  unfold parenIf
  split
  · exact eraseParens_node _ _
  · rfl

theorem eraseParens_wrap (t : SourceTree) : t.wrap.eraseParens = t.eraseParens := by
  induction t using Tree.induct with
  | step m kind ih =>
    rw [wrap_node, eraseParens_node, eraseParens_node, Kind.map_wrapOperands _ eraseParens_parenIf,
      Kind.map_map]
    exact congrArg (unparen m) (Kind.map_congr kind ih)

theorem mapMark_unparen {ι κ : Type} (f : ι → κ) (m : ι) (kind : Kind (Tree ι)) :
    (unparen m kind).mapMark f = unparen (f m) (kind.map (mapMark f)) := by
  cases kind <;> first | rfl | exact mapMark_node _ _ _

theorem eraseParens_mapMark {ι κ : Type} (f : ι → κ) (t : Tree ι) :
    (t.mapMark f).eraseParens = t.eraseParens.mapMark f := by
  induction t using Tree.induct with
  | step m kind ih =>
    rw [mapMark_node, eraseParens_node, eraseParens_node, mapMark_unparen, Kind.map_map,
      Kind.map_map]
    exact congrArg (unparen (f m)) (Kind.map_congr kind ih)

end Tree

namespace Layout

/-- A test that asks for no parentheses around what holds together is content with the wrapped
operand. -/
theorem guarded_parenIf (o : Layout) (test : Grip → Bool) (closed : test .closed = false)
    {t u : SourceTree} (same : t.grip = u.grip) (written : o.fragment t = o.fragment u)
    (depth : Nat) :
    guarded (test (t.parenIf (test t.grip)).grip) (o.fragment (t.parenIf (test t.grip))) depth =
      guarded (test u.grip) (o.fragment u) depth := by
  unfold Tree.parenIf
  rw [← same, ← written]
  split
  · next needed =>
    have inner : test (Tree.node (.ofSpan default) (.paren t)).grip = false := closed
    rw [inner, needed, fragment_node]
    rfl
  · rfl

theorem head_parenIf (o : Layout) {t u : SourceTree} (same : t.grip = u.grip)
    (written : o.fragment t = o.fragment u) :
    head (o.fragment (t.parenIf t.grip.needsPrefixParens)) = head (o.fragment u) := by
  funext depth
  simp only [head, fragment_grip]
  exact o.guarded_parenIf Grip.needsPrefixParens rfl same written depth

/-- The wrapped tree is written as the tree itself. -/
theorem fragment_wrap (o : Layout) (t : SourceTree) : o.fragment t.wrap = o.fragment t := by
  induction t using Tree.induct with
  | step m kind ih =>
    rw [Tree.wrap_node, fragment_node, fragment_node]
    have mapped : (kind.map Tree.wrap).map o.fragment = kind.map o.fragment := by
      rw [Kind.map_map]
      exact Kind.map_congr kind ih
    cases kind with
    | binary op l r =>
      have left := o.guarded_parenIf (·.needsParens op false) (by cases op <;> rfl)
        (Tree.grip_wrap l) (ih l (by simp [Kind.children]))
      have right := o.guarded_parenIf (·.needsParens op true) (by cases op <;> rfl)
        (Tree.grip_wrap r) (ih r (by simp [Kind.children]))
      simp only [Kind.map, Kind.wrapOperands, node, fragment_grip, left, right]
    | unary op e =>
      have operand := o.guarded_parenIf Grip.isLooseBinary rfl (Tree.grip_wrap e)
        (ih e (by simp [Kind.children]))
      simp only [Kind.map, Kind.wrapOperands, node, fragment_grip, operand]
    | functionCall f args =>
      have callee := o.head_parenIf (Tree.grip_wrap f) (ih f (by simp [Kind.children]))
      obtain ⟨-, arguments⟩ := Kind.functionCall.inj mapped
      simp only [Kind.map, Kind.wrapOperands, node, callee, arguments]
    | methodCall e n args =>
      have receiver := o.head_parenIf (Tree.grip_wrap e) (ih e (by simp [Kind.children]))
      obtain ⟨-, method, arguments⟩ := Kind.methodCall.inj mapped
      simp only [Kind.map, Kind.wrapOperands, node, receiver, method, arguments]
    | access style t key =>
      have table := o.head_parenIf (Tree.grip_wrap t) (ih t (by simp [Kind.children]))
      obtain ⟨-, -, key⟩ := Kind.access.inj mapped
      cases style <;> simp only [Kind.map, Kind.wrapOperands, node, table, key]
    | _ => exact congrArg (o.node m) mapped

end Layout

theorem writable_parenIf {t : SourceTree} (formed : Writable .expression t) (parens : Bool) :
    Writable .expression (t.parenIf parens) := by
  unfold Tree.parenIf
  split
  · exact .paren formed (.of_span trivial)
  · exact formed

theorem test_parenIf (test : Grip → Bool) (closed : test .closed = false) (t : SourceTree) :
    test (t.parenIf (test t.grip)).grip = false := by
  unfold Tree.parenIf
  split
  · exact closed
  · next notNeeded => simpa using notNeeded

theorem forall_map_wrap {P : SourceTree → Prop} {ts : List SourceTree}
    (all : ∀ t ∈ ts, P t.wrap) : ∀ t ∈ ts.map Tree.wrap, P t := by
  simpa using all

theorem forall_dropLast_map_wrap {P : SourceTree → Prop} {ts : List SourceTree}
    (all : ∀ t ∈ ts.dropLast, P t.wrap) : ∀ t ∈ (ts.map Tree.wrap).dropLast, P t := by
  rw [← List.map_dropLast]
  exact forall_map_wrap all

/-- With parentheses where they are needed, a program without comments can be written. -/
theorem writable_wrap {role : Role} {t : SourceTree}
    (formed : WellFormed (fun m _ => m.IsBare) role t) : Writable role t.wrap := by
  induction formed with
    try rw [Tree.wrap_node]
  | name identifier bare => exact .name identifier (.of_bare bare trivial)
  | plain _ name => exact .plain name
  | @dotted m t key _ _ bare table name =>
    have closed : t.wrap.grip.needsPrefixParens = false := by
      rw [table.closed_of_dottedName]
      rfl
    simp only [Kind.map, Kind.wrapOperands, Tree.parenIf, closed, Bool.false_eq_true, ↓reduceIte]
    exact .dotted table name (.of_bare bare closed)
  | function _ name => exact .function name
  | method _ _ bare table method => exact .method table method (.of_bare bare trivial)
  | parameter _ name => exact .parameter name
  | varParameter bare => exact .varParameter (.of_bare bare trivial)
  | ofName _ name => exact .ofName name
  | literal token bare => exact .literal token (.of_bare bare trivial)
  | varArg bare => exact .varArg (.of_bare bare trivial)
  | @binary m op l r _ _ bare left right =>
    refine .binary (writable_parenIf left _) (writable_parenIf right _) (.of_bare bare ⟨?_, ?_⟩)
    · exact test_parenIf (·.needsParens op false) (by cases op <;> rfl) l.wrap
    · exact test_parenIf (·.needsParens op true) (by cases op <;> rfl) r.wrap
  | unary _ bare operand =>
    refine .unary (writable_parenIf operand _) (.of_bare bare ?_)
    exact test_parenIf Grip.isLooseBinary rfl _
  | paren _ bare inner => exact .paren inner (.of_bare bare trivial)
  | call _ _ bare callee arguments =>
    refine .call (writable_parenIf callee _) (forall_map_wrap arguments) (.of_bare bare ?_)
    exact test_parenIf Grip.needsPrefixParens rfl _
  | methodCall _ _ _ bare receiver method arguments =>
    refine .methodCall (writable_parenIf receiver _) method (forall_map_wrap arguments)
      (.of_bare bare ?_)
    exact test_parenIf Grip.needsPrefixParens rfl _
  | member _ _ bare table name =>
    refine .member (writable_parenIf table _) name (.of_bare bare ?_)
    exact test_parenIf Grip.needsPrefixParens rfl _
  | index _ _ bare table key =>
    refine .index (writable_parenIf table _) key (.of_bare bare ?_)
    exact test_parenIf Grip.needsPrefixParens rfl _
  | table _ bare fields => exact .table (forall_map_wrap fields) (.of_bare bare trivial)
  | anonymousFunction _ _ _ bare parameters names body =>
    exact .anonymousFunction (forall_map_wrap parameters) (forall_dropLast_map_wrap names) body
      (.of_bare bare trivial)
  | positional _ bare value => exact .positional value (.of_bare bare trivial)
  | named _ _ bare name value => exact .named name value (.of_bare bare trivial)
  | bracketed _ _ bare key value => exact .bracketed key value (.of_bare bare trivial)
  | @assignment m ts vs someTarget _ assignable noFunction someValue _ bare targets values =>
    have opens : ∀ t ∈ (ts.map Tree.wrap).head?, t.opensWithFunction = false := by
      simpa [Tree.opensWithFunction_wrap] using noFunction
    exact .assignment (by simpa using someTarget) (forall_map_wrap targets)
      (forall_map_wrap fun t member => t.isAssignable_wrap.trans (assignable t member)) opens
      (by simpa using someValue) (forall_map_wrap values) (.of_bare bare trivial)
  | @compoundAssignment m op t v sign _ assignable noFunction _ bare target value =>
    exact .compoundAssignment sign target (t.isAssignable_wrap.trans assignable)
      (t.opensWithFunction_wrap.trans noFunction) value (.of_bare bare trivial)
  | localNames someName _ _ bare names values =>
    exact .localNames (by simpa using someName) (forall_map_wrap names) (forall_map_wrap values)
      (.of_bare bare trivial)
  | localFunction _ _ _ _ bare name parameters names body =>
    exact .localFunction name (forall_map_wrap parameters) (forall_dropLast_map_wrap names) body
      (.of_bare bare trivial)
  | functionDefinition _ _ _ _ bare name parameters names body =>
    exact .functionDefinition name (forall_map_wrap parameters) (forall_dropLast_map_wrap names)
      body (.of_bare bare trivial)
  | returning _ bare values => exact .returning (forall_map_wrap values) (.of_bare bare trivial)
  | breaking bare => exact .breaking (.of_bare bare trivial)
  | continuing bare => exact .continuing (.of_bare bare trivial)
  | doBlock _ bare body => exact .doBlock body (.of_bare bare trivial)
  | ifChain _ _ _ _ bare condition body elseIfs elseBranch =>
    exact .ifChain condition body (forall_map_wrap elseIfs) (by simpa using elseBranch)
      (.of_bare bare trivial)
  | whileLoop _ _ bare condition body => exact .whileLoop condition body (.of_bare bare trivial)
  | repeatLoop _ _ bare body condition => exact .repeatLoop body condition (.of_bare bare trivial)
  | numericFor _ _ _ _ _ bare counter start limit step body =>
    exact .numericFor counter start limit (by simpa using step) body (.of_bare bare trivial)
  | genericFor someName _ someIterator _ _ bare names iterators body =>
    exact .genericFor (by simpa using someName) (forall_map_wrap names)
      (by simpa using someIterator) (forall_map_wrap iterators) body (.of_bare bare trivial)
  | @expressionStatement m e _ call noFunction bare expression =>
    exact .expressionStatement expression (e.isCallLike_wrap.trans call)
      (e.opensWithFunction_wrap.trans noFunction) (.of_bare bare trivial)
  | elseIf _ _ bare condition body => exact .elseIf condition body (.of_bare bare trivial)
  | elseBlock _ bare body => exact .elseBlock body (.of_bare bare trivial)
  | block _ terminalLast bare statements =>
    refine .block (forall_map_wrap statements) (forall_dropLast_map_wrap ?_)
      (.of_bare bare trivial)
    exact fun s member => s.isTerminal_wrap.trans (terminalLast s member)
  | chunk _ bare body => exact .chunk body (.of_bare bare trivial)

/-- A tree made by hand parses from its text as the tree with parentheses around just the operands
that need them; without parentheses both are the same. -/
theorem same_wrap_of_parse_render (a : Arena) (id : NodeId)
    (formed : WellFormed (fun m _ => m.IsBare) .chunk (a.tree id)) {o : Layout}
    (blank : o.IsBlank) :
    ∃ u r r', parse (a.render id o) = .ok u ∧ (ofTree u).root = some r ∧
      (ofTree (a.tree id).wrap).root = some r' ∧
      (ofTree u).same r (ofTree (a.tree id).wrap) r' = true ∧
      u.eraseParens.same (a.tree id).eraseParens = true := by
  obtain ⟨u, parsed, notes⟩ := parse_render blank (writable_wrap formed)
  refine ⟨u, top u, top (a.tree id).wrap, ?_, root_ofTree u, root_ofTree _, ?_, ?_⟩
  · rw [← parsed, render, Tree.render, Tree.render, Layout.pieces, Layout.pieces, o.fragment_wrap]
  · rw [same_eq, tree_ofTree, tree_ofTree]
    exact Tree.same_of_mapMark_eq notes
  · have erased := congrArg Tree.eraseParens notes
    rw [Tree.notes, Layout.outline, Tree.eraseParens_mapMark, Tree.eraseParens_mapMark,
      Tree.eraseParens_wrap] at erased
    exact Tree.same_of_mapMark_eq erased

/-- A call of a sum with a negated difference that begins with a negation. -/
def Tree.calledSum : SourceTree :=
  let leaf (name : String) : SourceTree := .node default (.identifier name)
  let difference : SourceTree :=
    .node default (.binary .sub (.node default (.unary .neg (leaf "a"))) (leaf "b"))
  let call : SourceTree :=
    .node default (.functionCall (.node default (.binary .add (leaf "a") (leaf "b")))
      [.node default (.unary .neg difference)])
  .node default (.chunk (.node default (.block [.node default (.expressionStatement call)])))

theorem same_wrap_of_parse_render_calledSum :
    ∃ u r r', parse ((ofTree .calledSum).render (top .calledSum) {}) = .ok u ∧
      (ofTree u).root = some r ∧ (ofTree (Tree.wrap .calledSum)).root = some r' ∧
      (ofTree u).same r (ofTree (Tree.wrap .calledSum)) r' = true ∧
      u.eraseParens.same (Tree.eraseParens .calledSum) = true := by
  have bare : (default : Origin).IsBare := ⟨rfl, rfl⟩
  have leaf (name : String) (identifier : IsIdentifier name) :
      WellFormed (fun m _ => m.IsBare) .expression (.node default (.identifier name)) :=
    .ofName (.name identifier bare)
  have a := leaf "a" (by decide +kernel)
  have b := leaf "b" (by decide +kernel)
  have formed : WellFormed (fun m _ => m.IsBare) .chunk .calledSum := by
    refine .chunk (.block ?_ (by simp) bare) bare
    refine List.forall_mem_singleton.mpr (.expressionStatement ?_ rfl rfl bare)
    refine .call (.binary a b bare) ?_ bare
    exact List.forall_mem_singleton.mpr (.unary (.binary (.unary a bare) b bare) bare)
  have parsed := same_wrap_of_parse_render (ofTree .calledSum) (top .calledSum)
    (by rw [tree_ofTree]; exact formed) (o := {}) (by decide)
  rwa [tree_ofTree] at parsed

end LuaTree
