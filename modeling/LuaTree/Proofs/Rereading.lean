import LuaTree.Proofs.Lines

/-!
# Reading written programs

Functions, the kinds of statements and the branches of an `if` are read back from
their text one by one. `parse_render` puts them together: a well formed tree is
read from its own text, with all the notes that the layout writes.
-/

namespace LuaTree

open Cursor Grammar Layout

/-- A parameter that is read back from its text as the last one. -/
def ReadsParameter (o : Layout) (t : SourceTree) : Prop :=
  ∀ depth rest c, nextKind rest ≠ .comma → Before ((o.fragment t).write depth ++ rest) c →
    ∃ u c₁, u.notes = o.outline t ∧ Behind rest c₁ ∧ Parameters Derives c [u] c₁

/-- A dotted name that is read back from its text: whatever is read from behind it is read from
behind its first part. -/
def ReadsDottedName (o : Layout) (t : SourceTree) : Prop :=
  ∀ depth rest c, Before ((o.fragment t).write depth ++ rest) c →
    ∃ first c₁ u c₂, Name c first c₁ ∧ u.notes = o.outline t ∧ Behind rest c₂ ∧
      ∀ v c₃, Derives _ (.dottedName u) c₂ v c₃ → Derives _ (.dottedName first) c₁ v c₃

/-- The name of a function that is read back from its text. -/
def ReadsFunctionName (o : Layout) (t : SourceTree) : Prop :=
  ∀ depth rest c, nextKind rest ≠ .dot → nextKind rest ≠ .colon →
    Before ((o.fragment t).write depth ++ rest) c →
    ∃ first c₁ u c₂, Name c first c₁ ∧ u.notes = o.outline t ∧ Behind rest c₂ ∧
      Derives _ (.dottedName first) c₁ u c₂

section Functions

variable {o : Layout} {m : Origin}

theorem reads_parameter {t : SourceTree} (name : ReadsName o t) : ReadsParameter o t := by
  intro depth rest c noComma before
  obtain ⟨u, c₁, same, behind, read⟩ := name depth rest c before
  exact ⟨u, c₁, same, behind, .last read (behind.before.kind ▸ noComma)⟩

theorem reads_varParameter (fit : Fit m .varArg) : ReadsParameter o (.node m .varArg) := by
  intro depth rest c _ before
  rw [fragment_node] at before
  obtain ⟨kind, behind⟩ := Before.word before
  refine ⟨_, _, ?_, behind, .varArg kind⟩
  simp [kept_of_bare fit.placed, Kind.map]

theorem reads_plain {t : SourceTree} (name : ReadsName o t) : ReadsDottedName o t := by
  intro depth rest c before
  obtain ⟨u, c₁, same, behind, read⟩ := name depth rest c before
  exact ⟨u, c₁, u, c₁, read, same, behind, fun v c₃ readMore => readMore⟩

theorem reads_dotted {t key : SourceTree} (table : ReadsDottedName o t) (name : ReadsName o key)
    (fit : Fit m (.access .dot t key)) : ReadsDottedName o (.node m (.access .dot t key)) := by
  intro depth rest c before
  simp only [fragment_node, Kind.map, node, head_fragment fit.snug, List.append_assoc,
    List.cons_append] at before
  obtain ⟨first, c₁, u, c₂, readFirst, same, behind, goOn⟩ := table depth _ c before
  obtain ⟨start, behindDot⟩ := Before.word behind.before
  obtain ⟨k, c₃, sameKey, behind₃, readName⟩ := name depth _ _ behindDot.before
  refine ⟨first, c₁, c₃.close u.span (.access .dot u k), c₃, readFirst, ?_, behind₃, ?_⟩
  · simp [kept_of_bare fit.placed, Kind.map, same, sameKey]
  · intro v c₄ readMore
    exact goOn v c₄ (behind.before.derives (.dot start readName readMore))

theorem reads_function {t : SourceTree} (name : ReadsDottedName o t) : ReadsFunctionName o t := by
  intro depth rest c noDot noColon before
  obtain ⟨first, c₁, u, c₂, readFirst, same, behind, goOn⟩ := name depth rest c before
  have kind := behind.before.kind
  have done : Derives _ (.dottedName u) c₂ u c₂ :=
    behind.before.derives (.done (kind ▸ noDot) (kind ▸ noColon))
  exact ⟨first, c₁, u, c₂, readFirst, same, behind, goOn u c₂ done⟩

theorem reads_method {t n : SourceTree} (table : ReadsDottedName o t) (method : ReadsName o n)
    (fit : Fit m (.methodName t n)) : ReadsFunctionName o (.node m (.methodName t n)) := by
  intro depth rest c _ _ before
  simp only [fragment_node, Kind.map, node, List.append_assoc, List.cons_append] at before
  obtain ⟨first, c₁, u, c₂, readFirst, same, behind, goOn⟩ := table depth _ c before
  obtain ⟨start, behindColon⟩ := Before.word behind.before
  obtain ⟨k, c₃, sameName, behind₃, readName⟩ := method depth _ _ behindColon.before
  refine ⟨first, c₁, c₃.close u.span (.methodName u k), c₃, readFirst, ?_, behind₃, ?_⟩
  · simp [kept_of_bare fit.placed, Kind.map, same, sameName]
  · exact goOn _ c₃ (behind.before.derives (.method start readName))

/-- Parameters divided by commas. -/
theorem reads_parameters {ps : List SourceTree} (all : ∀ p ∈ ps, ReadsParameter o p)
    (varArgLast : ∀ p ∈ ps.dropLast, ReadsName o p) (some : ps ≠ []) (depth : Nat)
    {rest : List Piece} (noComma : nextKind rest ≠ .comma) {c : Cursor}
    (before : Before (commas depth (ps.map o.fragment) ++ rest) c) :
    ∃ us c₁, us.map Tree.notes = ps.map o.outline ∧ Behind rest c₁ ∧
      Parameters Derives c us c₁ := by
  induction ps generalizing c with
  | nil => exact absurd rfl some
  | cons p ps ih =>
    obtain ⟨first, others⟩ := List.forall_mem_cons.mp all
    cases ps with
    | nil =>
      rw [List.map_singleton, commas_singleton] at before
      obtain ⟨u, c₁, same, behind, read⟩ := first depth rest c noComma before
      exact ⟨[u], c₁, by simp [same], behind, read⟩
    | cons p' ps =>
      obtain ⟨name, names⟩ := List.forall_mem_cons.mp varArgLast
      rw [List.map_cons, List.map_cons, commas_cons_cons, List.append_assoc] at before
      obtain ⟨u, c₁, same, behind, read⟩ := name depth _ c before
      obtain ⟨comma, next⟩ := Before.word behind.before
      obtain ⟨us, c₂, sames, behind₂, readMore⟩ := ih others names (by simp) next.before.blank
      exact ⟨u :: us, c₂, by simp [same, sames], behind₂,
        .more read comma (next.before.derives readMore)⟩

theorem Grammar.Parameters.starts {R : Reading} {c c' : Cursor} {us : List SourceTree}
    (read : Parameters R c us c') : c.current.kind ≠ .rParen := by
  rcases read with kind | ⟨⟨kind⟩, -⟩ | ⟨⟨kind⟩, -, -⟩ <;> simp [kind]

/-- A body on its own lines up to the word that closes it. -/
theorem reads_body {b : SourceTree} (block : ReadsBlock o b) {close : TokenKind}
    (ends : close.endsBlock = true) (depth : Nat) {rest : List Piece} {c : Cursor}
    (before : Before (o.body depth (o.fragment b) close ++ rest) c) :
    ∃ u c₁, u.notes = o.outline b ∧ c₁.current.kind = close ∧ Behind rest c₁.advance ∧
      Derives _ .block c u c₁ := by
  simp only [body, List.cons_append, List.append_assoc, List.nil_append] at before
  obtain ⟨u, c₁, same, before₁, read⟩ :=
    block _ _ _ c (closes_indentation ends depth rest) before.blank
  obtain ⟨kind, behind⟩ := Before.word before₁
  exact ⟨u, c₁, same, kind, behind, read⟩

/-- The parameters and the body of a function. -/
theorem reads_functionBody {ps : List SourceTree} {b : SourceTree}
    (parameters : ∀ p ∈ ps, ReadsParameter o p) (varArgLast : ∀ p ∈ ps.dropLast, ReadsName o p)
    (block : ReadsBlock o b) (depth : Nat) {rest : List Piece} {c : Cursor}
    (before : Before (o.function depth (ps.map o.fragment) (o.fragment b) ++ rest) c) :
    ∃ us u c₁, us.map Tree.notes = ps.map o.outline ∧ u.notes = o.outline b ∧ Behind rest c₁ ∧
      FunctionBody Derives c us u c₁ := by
  rw [Layout.function, List.append_assoc] at before
  obtain ⟨start, inner⟩ := before.parenthesized
  have enclosed : ∃ us c₁, us.map Tree.notes = ps.map o.outline ∧
      Behind (o.body depth (o.fragment b) .endKw ++ rest) c₁ ∧
      Enclosed Derives .parameters c.advance us c₁ := by
    by_cases none : ps = []
    · subst none
      obtain ⟨close, behind⟩ := Before.word inner.before
      exact ⟨[], _, rfl, behind, .none close⟩
    · obtain ⟨us, c₁, sames, behind, read⟩ :=
        reads_parameters parameters varArgLast none depth (by simp) inner.before
      obtain ⟨close, behind⟩ := Before.word behind.before
      exact ⟨us, _, sames, behind, .some read.starts (inner.before.derives read) close⟩
  obtain ⟨us, c₁, sames, behind, readParams⟩ := enclosed
  obtain ⟨u, c₂, same, close, behind₂, read⟩ := reads_body block rfl depth behind.before
  exact ⟨us, u, _, sames, same, behind₂, .intro start readParams read close⟩

theorem reads_anonymousFunction {ps : List SourceTree} {b : SourceTree}
    (parameters : ∀ p ∈ ps, ReadsParameter o p) (varArgLast : ∀ p ∈ ps.dropLast, ReadsName o p)
    (block : ReadsBlock o b) (fit : Fit m (.anonymousFunction ps b)) :
    ReadsExpression o (.node m (.anonymousFunction ps b)) := by
  refine .of_head rfl fun depth => readsHead_of_primary fun rest c before => ?_
  simp only [fragment_node, Kind.map, node, List.cons_append] at before
  obtain ⟨start, behind⟩ := Before.word before
  obtain ⟨us, u, c₁, sames, same, behind₁, read⟩ :=
    reads_functionBody parameters varArgLast block depth behind.before
  refine ⟨_, _, ?_, behind₁, .function start read⟩
  simp [kept_of_bare fit.placed, Kind.map, sames, same]

end Functions

section Lists

variable {o : Layout}

/-- Things of one sort divided by commas, of which a rule reads all but the first. -/
theorem reads_commas {rule : Rule (List SourceTree)} {Read : Cursor → SourceTree → Cursor → Prop}
    {ts : List SourceTree} (some : ts ≠ []) (depth : Nat) {rest : List Piece}
    (noComma : nextKind rest ≠ .comma)
    (all : ∀ t ∈ ts, ∀ {behind c}, behind = rest ∨ nextKind behind = .comma →
      Before ((o.fragment t).write depth ++ behind) c →
      ∃ u c₁, u.notes = o.outline t ∧ Behind behind c₁ ∧ Read c u c₁)
    (readNone : ∀ {c}, c.EndsFile → c.current.kind ≠ .comma → Derives _ rule c [] c)
    (readSome : ∀ {c u us c₁ c₂}, c.EndsFile → c.current.kind = .comma → Read c.advance u c₁ →
      Derives _ rule c₁ us c₂ → Derives _ rule c (u :: us) c₂)
    {c : Cursor} (before : Before (commas depth (ts.map o.fragment) ++ rest) c) :
    ∃ u us c₁ c₂, (u :: us).map Tree.notes = ts.map o.outline ∧ Behind rest c₂ ∧ Read c u c₁ ∧
      Derives _ rule c₁ us c₂ := by
  induction ts generalizing c with
  | nil => exact absurd rfl some
  | cons t ts ih =>
    obtain ⟨first, others⟩ := List.forall_mem_cons.mp all
    cases ts with
    | nil =>
      rw [List.map_singleton, commas_singleton] at before
      obtain ⟨u, c₁, same, behind, read⟩ := first (.inl rfl) before
      have none := readNone behind.before.endsFile (behind.before.kind ▸ noComma)
      exact ⟨u, [], c₁, c₁, by simp [same], behind, read, none⟩
    | cons t' ts =>
      rw [List.map_cons, List.map_cons, commas_cons_cons, List.append_assoc] at before
      obtain ⟨u, c₁, same, behind, read⟩ := first (.inr rfl) before
      obtain ⟨comma, next⟩ := Before.word behind.before
      obtain ⟨v, us, c₂, c₃, sames, behind₃, readNext, readMore⟩ :=
        ih (by simp) others next.before.blank
      have more := readSome behind.before.endsFile comma readNext readMore
      exact ⟨u, v :: us, c₁, c₃, by simp [same, ← sames], behind₃, read, more⟩

theorem reads_names {ns : List SourceTree} (names : ∀ n ∈ ns, ReadsName o n) (some : ns ≠ [])
    (depth : Nat) (cause : Cause) {rest : List Piece} (noComma : nextKind rest ≠ .comma)
    {c : Cursor} (before : Before (commas depth (ns.map o.fragment) ++ rest) c) :
    ∃ u us c₁ c₂, (u :: us).map Tree.notes = ns.map o.outline ∧ Behind rest c₂ ∧ Name c u c₁ ∧
      Derives _ (.moreNames cause) c₁ us c₂ := by
  refine reads_commas some depth noComma ?_ ?_ ?_ before
  · intro n member behind c _ front
    exact names n member depth behind c front
  · intro c ends stop
    exact (derives_iff ends).mpr (.none stop)
  · intro c u us c₁ c₂ ends comma read readMore
    exact (derives_iff ends).mpr (.some comma read readMore)

theorem reads_targets {ts : List SourceTree} (targets : ∀ t ∈ ts, ReadsExpression o t)
    (closed : ∀ t ∈ ts, t.grip = .closed) (some : ts ≠ []) (depth : Nat) {rest : List Piece}
    (ends : Ends 1 rest) (noComma : nextKind rest ≠ .comma) {c : Cursor}
    (before : Before (commas depth (ts.map o.fragment) ++ rest) c) :
    ∃ u us c₁ c₂, (u :: us).map Tree.notes = ts.map o.outline ∧ Behind rest c₂ ∧
      PrefixExpression Derives c u c₁ ∧ Derives _ .moreTargets c₁ us c₂ := by
  refine reads_commas some depth noComma ?_ ?_ ?_ before
  · intro t member behind c follows front
    have ends : Ends 1 behind := by
      rcases follows with rfl | comma
      · exact ends
      · exact .of_kind (by rw [comma]; rfl)
    exact ((targets t member).head (closed t member) depth).prefixExpression ends front
  · intro c ends stop
    exact (derives_iff ends).mpr (.none stop)
  · intro c u us c₁ c₂ ends comma read readMore
    exact (derives_iff ends).mpr (.some comma read readMore)

theorem Kind.grip_of_isAssignable {α : Type} {kind : Kind α}
    (assignable : kind.isAssignable = true) : kind.grip = .closed := by
  cases kind <;> first | rfl | exact absurd assignable (by simp [Kind.isAssignable])

theorem Kind.grip_of_isCallLike {α : Type} {kind : Kind α} (call : kind.isCallLike = true) :
    kind.grip = .closed := by
  cases kind <;> first | rfl | exact absurd call (by simp [Kind.isCallLike])

theorem opensWithFunction_of_notes {u t : SourceTree} (same : u.notes = o.outline t) :
    u.opensWithFunction = t.opensWithFunction := by
  have opens := congrArg Tree.opensWithFunction same
  rwa [Tree.notes, outline, Tree.opensWithFunction_mapMark, Tree.opensWithFunction_mapMark] at opens

theorem isAssignable_of_notes {u t : SourceTree} (same : u.notes = o.outline t) :
    u.kind.isAssignable = t.kind.isAssignable := by
  have kinds := congrArg (fun t => t.kind.isAssignable) same
  simpa only [Tree.notes, outline, Tree.kind_mapMark, Kind.isAssignable_map] using kinds

theorem isCallLike_of_notes {u t : SourceTree} (same : u.notes = o.outline t) :
    u.kind.isCallLike = t.kind.isCallLike := by
  have kinds := congrArg (fun t => t.kind.isCallLike) same
  simpa only [Tree.notes, outline, Tree.kind_mapMark, Kind.isCallLike_map] using kinds

/-- A prefix expression that does not begin with a function begins with no word of a statement. -/
theorem notMem_statementWords {c c' : Cursor} {u : SourceTree} (ends : c.EndsFile)
    (read : PrefixExpression Derives c u c') (noFunction : u.opensWithFunction = false) :
    c.current.kind ∉ statementWords := by
  have starts := read.starts
  have notFunction : c.current.kind ≠ .functionKw := by
    intro function
    simp [(opensWithFunction_iff ends read).mpr function] at noFunction
  cases kind : c.current.kind <;> rw [kind] at starts notFunction <;>
    first | decide | exact absurd starts (by decide) | exact absurd rfl notFunction

end Lists

section Statements

variable {o : Layout} {m : Origin}

theorem OpensWithToken.append {pieces : List Piece} (opens : OpensWithToken pieces)
    (more : List Piece) : OpensWithToken (pieces ++ more) := by
  obtain ⟨kind, lexeme, others, rfl⟩ := opens
  exact ⟨kind, lexeme, others ++ more, rfl⟩

theorem opensWithToken_expression {role : Role} {t : SourceTree} (formed : Writable role t)
    (isExpression : role = .expression ∨ role = .name) (depth : Nat) :
    OpensWithToken ((o.fragment t).write depth) := by
  induction formed with
  | name | varArg | paren | table | anonymousFunction =>
    rw [fragment_node]
    exact ⟨_, _, _, rfl⟩
  | ofName _ name => exact name (.inr rfl)
  | @literal m l token fit =>
    obtain ⟨value, kind⟩ := l
    rw [fragment_node]
    cases kind <;> exact ⟨_, _, _, rfl⟩
  | binary _ _ fit left =>
    rw [write_binary fit]
    exact (left (.inl rfl)).append _
  | unary =>
    rw [fragment_node]
    exact ⟨_, _, _, rfl⟩
  | call _ _ fit head | methodCall _ _ _ fit head | member _ _ fit head | index _ _ fit head =>
    simp only [fragment_node, Kind.map, node, head_fragment fit.snug, List.append_assoc]
    exact (head (.inl rfl)).append _
  | _ => simp at isExpression

theorem opensWithToken_commas {fs : List Fragment} {f : Fragment} {depth : Nat}
    (opens : OpensWithToken (f.write depth)) : OpensWithToken (commas depth (f :: fs)) := by
  cases fs with
  | nil =>
    rw [commas_singleton]
    exact opens
  | cons g fs =>
    rw [commas_cons_cons]
    exact opens.append _

theorem reads_assignment {ts vs : List SourceTree} (someTarget : ts ≠ [])
    (formed : ∀ t ∈ ts, Writable .expression t) (targets : ∀ t ∈ ts, ReadsExpression o t)
    (assignable : ∀ t ∈ ts, t.kind.isAssignable = true)
    (noFunction : ∀ t ∈ ts.head?, t.opensWithFunction = false) (someValue : vs ≠ [])
    (values : ∀ v ∈ vs, ReadsExpression o v) (fit : Fit m (.assignment ts vs)) :
    ReadsStatement o (.node m (.assignment ts vs)) := by
  refine readsStatement fit rfl rfl fun depth => ⟨?_, fun rest c ends before => ?_⟩
  · obtain ⟨t, ts, rfl⟩ := List.exists_cons_of_ne_nil someTarget
    have opens := opensWithToken_expression (o := o) (formed t List.mem_cons_self) (.inl rfl) depth
    rw [List.append_assoc]
    exact (opensWithToken_commas opens).append _
  · have closed := fun t member => Kind.grip_of_isAssignable (assignable t member)
    rw [List.append_assoc, List.append_assoc] at before
    obtain ⟨u, us, c₁, c₂, sames, behind, readFirst, readMore⟩ :=
      reads_targets targets closed someTarget depth (.of_kind rfl) (by simp [spaced]) before
    obtain ⟨assign, next⟩ := Before.word behind.before.blank
    obtain ⟨vs', c₃, sameValues, behind₃, readValues⟩ :=
      reads_expressions values someValue depth ends.ends ends.noComma next.before.blank
    have all : ∀ target ∈ u :: us, target.kind.isAssignable = true := by
      intro target member
      have inside : target.notes ∈ ts.map o.outline := sames ▸ List.mem_map_of_mem member
      obtain ⟨t, among, same⟩ := List.mem_map.mp inside
      rw [isAssignable_of_notes same.symm]
      exact assignable t among
    have opens : u.opensWithFunction = false := by
      obtain ⟨t, ts, rfl⟩ := List.exists_cons_of_ne_nil someTarget
      obtain ⟨same, -⟩ := List.cons.inj sames
      rw [opensWithFunction_of_notes same]
      exact noFunction t rfl
    refine ⟨_, _, ?_, behind₃, .expression (notMem_statementWords before.endsFile readFirst opens)
      (.assignment readFirst readMore assign all readValues)⟩
    rw [notes_close, Kind.map, Kind.map, sames, sameValues]

/-- A single target or call up to what follows it. -/
theorem reads_target {t : SourceTree} (target : ReadsExpression o t) (closed : t.grip = .closed)
    (noFunction : t.opensWithFunction = false) (depth : Nat) {rest : List Piece}
    (ends : Ends 1 rest) (noComma : nextKind rest ≠ .comma) {c : Cursor}
    (before : Before ((o.fragment t).write depth ++ rest) c) :
    ∃ u c₁, u.notes = o.outline t ∧ Behind rest c₁ ∧ PrefixExpression Derives c u c₁ ∧
      Derives _ .moreTargets c₁ [] c₁ ∧ c.current.kind ∉ statementWords := by
  obtain ⟨u, c₁, same, behind, read⟩ := (target.head closed depth).prefixExpression ends before
  have noMore : Derives _ .moreTargets c₁ [] c₁ :=
    behind.before.derives (.none (behind.before.kind ▸ noComma))
  have opens := (opensWithFunction_of_notes same).trans noFunction
  exact ⟨u, c₁, same, behind, read, noMore, notMem_statementWords before.endsFile read opens⟩

theorem assignOp?_of_assignToken? {op : BinaryOp} {kind : TokenKind}
    (sign : op.assignToken? = some kind) : kind.assignOp? = some op ∧ kind ≠ .assign ∧
      kind ≠ .comma ∧ kind.endsExpression = true := by
  cases op <;> cases sign <;> decide

theorem reads_compoundAssignment {op : BinaryOp} {t v : SourceTree}
    (sign : op.assignToken?.isSome = true) (formed : Writable .expression t)
    (target : ReadsExpression o t) (assignable : t.kind.isAssignable = true)
    (noFunction : t.opensWithFunction = false) (value : ReadsExpression o v)
    (fit : Fit m (.compoundAssignment op t v)) :
    ReadsStatement o (.node m (.compoundAssignment op t v)) := by
  refine readsStatement fit rfl rfl fun depth => ⟨?_, fun rest c ends before => ?_⟩
  · rw [List.append_assoc]
    exact (opensWithToken_expression formed (.inl rfl) depth).append _
  · obtain ⟨kind, found⟩ := Option.isSome_iff_exists.mp sign
    obtain ⟨assigns, noAssign, noComma, endsExpression⟩ := assignOp?_of_assignToken? found
    simp only [assignSign, found, List.append_assoc] at before
    obtain ⟨u, c₁, same, behind, read, noMore, noWord⟩ :=
      reads_target target (Kind.grip_of_isAssignable assignable) noFunction depth
        (.of_kind (by exact endsExpression)) (by exact noComma) before
    obtain ⟨isSign, next⟩ := Before.word behind.before.blank
    obtain ⟨u', c₂, same₂, behind₂, readValue⟩ := value.top depth rest _ ends.ends next.before.blank
    refine ⟨_, _, ?_, behind₂, .expression noWord (.compound read noMore (isSign ▸ noAssign)
      (by rw [isSign, assigns]) ((isAssignable_of_notes same).trans assignable) readValue)⟩
    rw [notes_close, Kind.map, Kind.map, same, same₂]

theorem reads_expressionStatement {e : SourceTree} (formed : Writable .expression e)
    (expression : ReadsExpression o e) (call : e.kind.isCallLike = true)
    (noFunction : e.opensWithFunction = false) (fit : Fit m (.expressionStatement e)) :
    ReadsStatement o (.node m (.expressionStatement e)) := by
  refine readsStatement fit rfl rfl fun depth => ⟨?_, fun rest c ends before => ?_⟩
  · exact opensWithToken_expression formed (.inl rfl) depth
  · obtain ⟨-, -, noComma, noAssign, -, noSign⟩ := ends.kinds
    obtain ⟨u, c₁, same, behind, read, noMore, noWord⟩ :=
      reads_target expression (Kind.grip_of_isCallLike call) noFunction depth ends.ends noComma
        before
    have kind := behind.before.kind
    refine ⟨_, _, ?_, behind, .expression noWord (.call read noMore (kind ▸ noAssign)
      (kind ▸ noSign) ((isCallLike_of_notes same).trans call))⟩
    rw [notes_close, Kind.map, Kind.map, same]

theorem reads_localNames {ns vs : List SourceTree} (someName : ns ≠ [])
    (names : ∀ n ∈ ns, ReadsName o n) (values : ∀ v ∈ vs, ReadsExpression o v)
    (fit : Fit m (.localNames ns vs)) : ReadsStatement o (.node m (.localNames ns vs)) := by
  refine readsStatement fit rfl rfl fun depth => ⟨⟨_, _, _, rfl⟩, fun rest c ends before => ?_⟩
  rw [List.append_assoc, List.append_assoc] at before
  obtain ⟨start, next⟩ := Before.word before
  by_cases none : vs = []
  · subst none
    obtain ⟨-, -, noComma, noAssign, -, -⟩ := ends.kinds
    obtain ⟨u, us, c₁, c₂, sames, behind, readName, readMore⟩ :=
      reads_names names someName depth .name noComma next.before.blank
    refine ⟨_, _, ?_, behind, .localStatement start
      (.names readName readMore (behind.before.kind ▸ noAssign))⟩
    rw [notes_close, Kind.map, Kind.map, sames]
    rfl
  · have someValue : (vs.map o.fragment).isEmpty = false := by simpa using none
    simp only [someValue, Bool.false_eq_true, ↓reduceIte, List.append_assoc] at next
    obtain ⟨u, us, c₁, c₂, sames, behind, readName, readMore⟩ :=
      reads_names names someName depth .name (by simp [spaced]) next.before.blank
    obtain ⟨assign, next⟩ := Before.word behind.before.blank
    obtain ⟨vs', c₃, sameValues, behind₃, readValues⟩ :=
      reads_expressions values none depth ends.ends ends.noComma next.before.blank
    refine ⟨_, _, ?_, behind₃, .localStatement start
      (.values readName readMore assign readValues)⟩
    rw [notes_close, Kind.map, Kind.map, sames, sameValues]

theorem reads_localFunction {n b : SourceTree} {ps : List SourceTree} (name : ReadsName o n)
    (parameters : ∀ p ∈ ps, ReadsParameter o p) (varArgLast : ∀ p ∈ ps.dropLast, ReadsName o p)
    (block : ReadsBlock o b) (fit : Fit m (.localFunction n ps b)) :
    ReadsStatement o (.node m (.localFunction n ps b)) := by
  refine readsStatement fit rfl rfl fun depth => ⟨⟨_, _, _, rfl⟩, fun rest c ends before => ?_⟩
  simp only [List.append_assoc] at before
  obtain ⟨start, next⟩ := Before.word before
  obtain ⟨function, next⟩ := Before.word next.before.blank
  obtain ⟨u, c₁, same, behind, readName⟩ := name depth _ _ next.before.blank
  obtain ⟨us, u', c₂, sames, same₂, behind₂, readBody⟩ :=
    reads_functionBody parameters varArgLast block depth behind.before
  refine ⟨_, _, ?_, behind₂, .localStatement start (.function function readName readBody)⟩
  rw [notes_close, Kind.map, Kind.map, same, sames, same₂]

theorem reads_functionDefinition {n b : SourceTree} {ps : List SourceTree}
    (name : ReadsFunctionName o n) (parameters : ∀ p ∈ ps, ReadsParameter o p)
    (varArgLast : ∀ p ∈ ps.dropLast, ReadsName o p) (block : ReadsBlock o b)
    (fit : Fit m (.function n ps b)) : ReadsStatement o (.node m (.function n ps b)) := by
  refine readsStatement fit rfl rfl fun depth => ⟨⟨_, _, _, rfl⟩, fun rest c ends before => ?_⟩
  simp only [List.append_assoc] at before
  obtain ⟨start, next⟩ := Before.word before
  obtain ⟨first, c₁, u, c₂, readFirst, same, behind, readName⟩ :=
    name depth _ _ (by simp [Layout.function, parenthesized])
      (by simp [Layout.function, parenthesized]) next.before.blank
  obtain ⟨us, u', c₃, sames, same₂, behind₃, readBody⟩ :=
    reads_functionBody parameters varArgLast block depth behind.before
  refine ⟨_, _, ?_, behind₃, .function start (.intro readFirst readName readBody)⟩
  rw [notes_close, Kind.map, Kind.map, same, sames, same₂]

theorem reads_returning {vs : List SourceTree} (values : ∀ v ∈ vs, ReadsExpression o v)
    (fit : Fit m (.returning vs)) : ReadsStatement o (.node m (.returning vs)) := by
  refine readsStatement fit rfl rfl fun depth => ⟨⟨_, _, _, rfl⟩, fun rest c ends before => ?_⟩
  rw [List.cons_append] at before
  obtain ⟨start, next⟩ := Before.word before
  by_cases none : vs = []
  · subst none
    have stop : c.advance.endsReturn := by
      rw [endsReturn, next.before.kind]
      rcases ends with semicolon | ⟨-, close | ⟨notTerminal, -⟩⟩
      · exact .inl semicolon
      · exact .inr close
      · simp [Kind.isTerminal] at notTerminal
    exact ⟨_, _, notes_close _ _ _, next, .returning start (.bare stop)⟩
  · have someValue : (vs.map o.fragment).isEmpty = false := by simpa using none
    simp only [someValue, Bool.false_eq_true, ↓reduceIte, List.cons_append] at next
    have front := next.before.blank
    obtain ⟨vs', c₁, sames, behind, read⟩ :=
      reads_expressions values none depth ends.ends ends.noComma front
    have more : ¬ c.advance.endsReturn := by
      have starts := startsExpression_of_expressions front.endsFile read
      rintro (semicolon | close)
      · rw [semicolon] at starts
        exact absurd starts (by decide)
      · cases kind : c.advance.current.kind <;> rw [kind] at starts close <;>
          first | exact absurd starts (by decide) | exact absurd close (by decide)
    refine ⟨_, _, ?_, behind, .returning start (.values more read)⟩
    rw [notes_close, Kind.map, Kind.map, sames]

theorem reads_breaking (fit : Fit m .breaking) : ReadsStatement o (.node m .breaking) := by
  refine readsStatement fit rfl rfl fun depth => ⟨⟨_, _, _, rfl⟩, fun rest c ends before => ?_⟩
  obtain ⟨start, next⟩ := Before.word before
  exact ⟨_, _, notes_leaf _ _, next, .breaking start⟩

theorem reads_continuing (fit : Fit m .continuing) : ReadsStatement o (.node m .continuing) := by
  refine readsStatement fit rfl rfl fun depth => ⟨⟨_, _, _, rfl⟩, fun rest c ends before => ?_⟩
  obtain ⟨start, next⟩ := Before.word before
  exact ⟨_, _, notes_leaf _ _, next, .continuing start⟩

theorem reads_doBlock {b : SourceTree} (block : ReadsBlock o b) (fit : Fit m (.doBlock b)) :
    ReadsStatement o (.node m (.doBlock b)) := by
  refine readsStatement fit rfl rfl fun depth => ⟨⟨_, _, _, rfl⟩, fun rest c ends before => ?_⟩
  rw [List.cons_append] at before
  obtain ⟨start, next⟩ := Before.word before
  obtain ⟨u, c₁, same, close, behind, read⟩ := reads_body block rfl depth next.before
  refine ⟨_, _, ?_, behind, .doBlock start (.intro read close)⟩
  rw [notes_close, Kind.map, Kind.map, same]

theorem reads_whileLoop {e b : SourceTree} (condition : ReadsExpression o e)
    (block : ReadsBlock o b) (fit : Fit m (.whileLoop e b)) :
    ReadsStatement o (.node m (.whileLoop e b)) := by
  refine readsStatement fit rfl rfl fun depth => ⟨⟨_, _, _, rfl⟩, fun rest c ends before => ?_⟩
  simp only [List.append_assoc, List.cons_append, List.nil_append] at before
  obtain ⟨start, next⟩ := Before.word before
  obtain ⟨u, c₁, same, behind, read⟩ :=
    condition.top depth _ _ (.of_kind rfl) next.before.blank
  obtain ⟨doKw, next⟩ := Before.word behind.before.blank
  obtain ⟨u', c₂, same₂, close, behind₂, readBody⟩ := reads_body block rfl depth next.before
  refine ⟨_, _, ?_, behind₂, .whileLoop start (.intro read doKw readBody close)⟩
  rw [notes_close, Kind.map, Kind.map, same, same₂]

theorem reads_repeatLoop {e b : SourceTree} (block : ReadsBlock o b)
    (condition : ReadsExpression o e) (fit : Fit m (.repeatLoop b e)) :
    ReadsStatement o (.node m (.repeatLoop b e)) := by
  refine readsStatement fit rfl rfl fun depth => ⟨⟨_, _, _, rfl⟩, fun rest c ends before => ?_⟩
  simp only [List.append_assoc, List.cons_append] at before
  obtain ⟨start, next⟩ := Before.word before
  obtain ⟨u, c₁, same, close, behind, readBody⟩ := reads_body block rfl depth next.before
  obtain ⟨u', c₂, same₂, behind₂, read⟩ :=
    condition.top depth rest _ ends.ends behind.before.blank
  refine ⟨_, _, ?_, behind₂, .repeatLoop start (.intro readBody close read)⟩
  rw [notes_close, Kind.map, Kind.map, same, same₂]

/-- The body of a counting loop or of one over iterators. -/
theorem reads_forBody {b : SourceTree} (block : ReadsBlock o b) (depth : Nat) {rest : List Piece}
    {c : Cursor} (before : Before
      (space :: word .doKw :: (o.body depth (o.fragment b) .endKw ++ rest)) c) :
    ∃ u c₁, u.notes = o.outline b ∧ Behind rest c₁ ∧ ForBody Derives c u c₁ := by
  obtain ⟨doKw, next⟩ := Before.word before.blank
  obtain ⟨u, c₁, same, close, behind, read⟩ := reads_body block rfl depth next.before
  exact ⟨u, _, same, behind, .intro doKw read close⟩

/-- The step of a counting loop, if there is one. -/
theorem reads_forStep {e₃ : Option SourceTree} (step : ∀ e ∈ e₃, ReadsExpression o e)
    (depth : Nat) (limit : Fragment) (rest : List Piece) (ends : Ends 1 rest)
    (noComma : nextKind rest ≠ .comma) :
    ∃ more, commas depth (limit :: (e₃.map o.fragment).toList) ++ rest =
        limit.write depth ++ more ∧ Ends 1 more ∧
      ∀ c, Behind more c → ∃ u c₁, u.map Tree.notes = e₃.map o.outline ∧ Behind rest c₁ ∧
        ForStep Derives c u c₁ := by
  cases e₃ with
  | none =>
    refine ⟨rest, by rw [Option.map_none, Option.toList_none, commas_singleton], ends, ?_⟩
    intro c behind
    exact ⟨none, c, rfl, behind, .none (behind.before.kind ▸ noComma)⟩
  | some e =>
    rw [Option.map_some, Option.toList_some, commas_cons_cons, commas_singleton, List.append_assoc]
    refine ⟨_, rfl, .of_kind rfl, ?_⟩
    intro c behind
    obtain ⟨comma, next⟩ := Before.word behind.before
    obtain ⟨u, c₁, same, behind₁, read⟩ := (step e rfl).top depth rest _ ends next.before.blank
    exact ⟨some u, c₁, by simp [same], behind₁, .some comma read⟩

theorem reads_numericFor {n e₁ e₂ b : SourceTree} {e₃ : Option SourceTree}
    (counter : ReadsName o n) (start : ReadsExpression o e₁) (limit : ReadsExpression o e₂)
    (step : ∀ e ∈ e₃, ReadsExpression o e) (block : ReadsBlock o b)
    (fit : Fit m (.numericFor n e₁ e₂ e₃ b)) :
    ReadsStatement o (.node m (.numericFor n e₁ e₂ e₃ b)) := by
  refine readsStatement fit rfl rfl fun depth => ⟨⟨_, _, _, rfl⟩, fun rest c ends before => ?_⟩
  simp only [List.append_assoc, commas_cons_cons, List.cons_append, List.nil_append] at before
  obtain ⟨forKw, next⟩ := Before.word before
  obtain ⟨u, c₁, same, behind, readCounter⟩ := counter depth _ _ next.before.blank
  obtain ⟨assign, next⟩ := Before.word behind.before.blank
  obtain ⟨v, c₂, sameStart, behind₂, readStart⟩ :=
    start.top depth _ _ (.of_kind rfl) next.before.blank
  obtain ⟨comma, next⟩ := Before.word behind₂.before
  obtain ⟨more, split, endsLimit, stepReads⟩ := reads_forStep step depth (o.fragment e₂)
    (space :: word .doKw :: (o.body depth (o.fragment b) .endKw ++ rest)) (.of_kind rfl) (by simp)
  rw [split] at next
  obtain ⟨w, c₃, sameLimit, behind₃, readLimit⟩ :=
    limit.top depth more _ endsLimit next.before.blank
  obtain ⟨s, c₄, sameStep, behind₄, readStep⟩ := stepReads c₃ behind₃
  obtain ⟨u', c₅, sameBody, behind₅, readBody⟩ := reads_forBody block depth behind₄.before
  have following : c.advance.following.kind = .assign := by
    obtain ⟨-⟩ := readCounter
    rw [← current_advance, assign]
  refine ⟨_, _, ?_, behind₅, .forLoop forKw
    (.numeric following readCounter readStart comma readLimit readStep readBody)⟩
  rw [notes_close, Kind.map, Kind.map, same, sameStart, sameLimit, sameStep, sameBody]

theorem reads_genericFor {ns es : List SourceTree} {b : SourceTree} (someName : ns ≠ [])
    (names : ∀ n ∈ ns, ReadsName o n) (someIterator : es ≠ [])
    (iterators : ∀ e ∈ es, ReadsExpression o e) (block : ReadsBlock o b)
    (fit : Fit m (.genericFor ns es b)) : ReadsStatement o (.node m (.genericFor ns es b)) := by
  refine readsStatement fit rfl rfl fun depth => ⟨⟨_, _, _, rfl⟩, fun rest c ends before => ?_⟩
  simp only [List.append_assoc, List.cons_append, List.nil_append] at before
  obtain ⟨forKw, next⟩ := Before.word before
  obtain ⟨u, us, c₁, c₂, sames, behind, readName, readMore⟩ :=
    reads_names names someName depth .loopVariable (by simp [spaced]) next.before.blank
  obtain ⟨inKw, next⟩ := Before.word behind.before.blank
  obtain ⟨vs, c₃, sameIterators, behind₃, readIterators⟩ :=
    reads_expressions iterators someIterator depth (.of_kind rfl) (by simp) next.before.blank
  obtain ⟨u', c₄, sameBody, behind₄, readBody⟩ := reads_forBody block depth behind₃.before
  have noAssign : c.advance.following.kind ≠ .assign := by
    have first : c₁.current.kind ≠ .assign := by
      have ends : c₁.EndsFile := by
        obtain ⟨-⟩ := readName
        exact ((shortens_advance_any _).trans (shortens_advance_any _)).endsFile before.endsFile
      rcases (derives_iff ends).mp readMore with stop | ⟨comma, -, -⟩
      · simp [inKw]
      · simp [comma]
    obtain ⟨-⟩ := readName
    rwa [← current_advance]
  refine ⟨_, _, ?_, behind₄, .forLoop forKw
    (.generic noAssign readName readMore inKw readIterators readBody)⟩
  rw [notes_close, Kind.map, Kind.map, sames, sameIterators, sameBody]

end Statements

/-- A clause that is read back from its text: it stands behind its indentation and ends a block,
and whatever clauses are read from behind it are read with it. -/
def ReadsElseIf (o : Layout) (t : SourceTree) : Prop :=
  ∀ depth, ∃ words, (o.fragment t).write depth = o.indentation depth ++ word .elseIfKw :: words ∧
    ∀ tail rest c, Closes tail rest → Before (word .elseIfKw :: (words ++ tail)) c →
      ∃ u c₁, u.notes = o.outline t ∧ Before rest c₁ ∧
        ∀ us c₂, Derives _ .elseIfs c₁ us c₂ → Derives _ .elseIfs c (u :: us) c₂

/-- The last clause, read back from its text. -/
def ReadsElse (o : Layout) (t : SourceTree) : Prop :=
  ∀ depth, ∃ words, (o.fragment t).write depth = o.indentation depth ++ word .elseKw :: words ∧
    ∀ tail rest c, Closes tail rest → Before (word .elseKw :: (words ++ tail)) c →
      ∃ u c₁, u.notes = o.outline t ∧ Before rest c₁ ∧ ElseClause Derives c (some u) c₁

section Branches

variable {o : Layout} {m : Origin}

/-- The condition and the block of a branch. -/
theorem reads_branch {e b : SourceTree} (condition : ReadsExpression o e) (block : ReadsBlock o b)
    (depth : Nat) {tail rest : List Piece} (closes : Closes tail rest) {c : Cursor}
    (before : Before ((o.fragment e).write depth ++ space :: word .thenKw :: newline ::
      ((o.fragment b).write (depth + 1) ++ tail)) c) :
    ∃ u c₁ v c₂, u.notes = o.outline e ∧ v.notes = o.outline b ∧ Before rest c₂ ∧
      Derives _ (.expression 1) c u c₁ ∧ c₁.current.kind = .thenKw ∧
      Derives _ .block c₁.advance v c₂ := by
  obtain ⟨u, c₁, same, behind, read⟩ := condition.top depth _ c (.of_kind rfl) before
  obtain ⟨thenKw, next⟩ := Before.word behind.before.blank
  obtain ⟨v, c₂, same₂, before₂, readBody⟩ := block _ _ _ _ closes next.before.blank
  exact ⟨u, c₁, v, c₂, same, same₂, before₂, read, thenKw, readBody⟩

theorem reads_elseIf {e b : SourceTree} (condition : ReadsExpression o e) (block : ReadsBlock o b)
    (fit : Fit m (.elseIf e b)) : ReadsElseIf o (.node m (.elseIf e b)) := by
  intro depth
  refine ⟨space :: ((o.fragment e).write depth ++ space :: word .thenKw :: newline ::
    (o.fragment b).write (depth + 1)), ?_, fun tail rest c closes before => ?_⟩
  · simp only [fragment_node, Kind.map, node, wordThen, List.append_assoc, List.cons_append,
      List.nil_append]
  · simp only [List.append_assoc, List.cons_append] at before
    obtain ⟨start, next⟩ := Before.word before
    obtain ⟨u, c₁, v, c₂, same, same₂, before₂, read, thenKw, readBody⟩ :=
      reads_branch condition block depth closes next.before.blank
    refine ⟨c₂.close c.current.span (.elseIf u v), c₂, ?_, before₂, fun us c₃ readMore => ?_⟩
    · simp [kept_of_bare fit.placed, Kind.map, same, same₂]
    · exact before.derives (.some start read thenKw readBody readMore)

theorem reads_elseBlock {b : SourceTree} (block : ReadsBlock o b) (fit : Fit m (.elseBlock b)) :
    ReadsElse o (.node m (.elseBlock b)) := by
  intro depth
  refine ⟨newline :: (o.fragment b).write (depth + 1), ?_, fun tail rest c closes before => ?_⟩
  · simp only [fragment_node, Kind.map, node, List.append_assoc, List.cons_append, List.nil_append]
  · rw [List.cons_append] at before
    obtain ⟨start, next⟩ := Before.word before
    obtain ⟨u, c₁, same, before₁, read⟩ := block _ _ _ _ closes next.before.blank
    refine ⟨_, c₁, ?_, before₁, .some start read⟩
    simp [kept_of_bare fit.placed, Kind.map, same]

/-- All clauses behind the first branch. -/
theorem reads_elseIfs {clauses : List SourceTree} (all : ∀ t ∈ clauses, ReadsElseIf o t)
    (depth : Nat) {tail rest : List Piece} (closes : Closes tail rest)
    (stop : nextKind rest ≠ .elseIfKw) :
    ∃ front, Closes ((clauses.map o.fragment).flatMap (·.write depth) ++ tail) front ∧
      ∀ c, Before front c → ∃ us c₁, us.map Tree.notes = clauses.map o.outline ∧ Before rest c₁ ∧
        Derives _ .elseIfs c us c₁ := by
  induction clauses with
  | nil =>
    refine ⟨rest, closes, fun c before => ?_⟩
    exact ⟨[], c, rfl, before, before.derives (.none (before.kind ▸ stop))⟩
  | cons t clauses ih =>
    obtain ⟨first, others⟩ := List.forall_mem_cons.mp all
    obtain ⟨front, closesFront, reads⟩ := ih others
    obtain ⟨words, write, readsFirst⟩ := first depth
    rw [List.map_cons, List.flatMap_cons, write]
    simp only [List.append_assoc, List.cons_append]
    refine ⟨_, closes_indentation rfl depth _, fun c before => ?_⟩
    obtain ⟨u, c₁, same, before₁, goOn⟩ := readsFirst _ _ c closesFront before
    obtain ⟨us, c₂, sames, before₂, read⟩ := reads c₁ before₁
    exact ⟨u :: us, c₂, by simp [same, sames], before₂, goOn us c₂ read⟩

/-- The last clause, if there is one. -/
theorem reads_elseClause {branch : Option SourceTree} (all : ∀ t ∈ branch, ReadsElse o t)
    (depth : Nat) {tail rest : List Piece} (closes : Closes tail rest)
    (stop : nextKind rest = .endKw) :
    ∃ front, Closes ((branch.map o.fragment).toList.flatMap (·.write depth) ++ tail) front ∧
      nextKind front ≠ .elseIfKw ∧
      ∀ c, Before front c → ∃ u c₁, u.map Tree.notes = branch.map o.outline ∧ Before rest c₁ ∧
        ElseClause Derives c u c₁ := by
  cases branch with
  | none =>
    refine ⟨rest, closes, by simp [stop], fun c before => ?_⟩
    exact ⟨none, c, rfl, before, .none (by simp [before.kind, stop])⟩
  | some t =>
    obtain ⟨words, write, reads⟩ := all t rfl depth
    rw [Option.map_some, Option.toList_some, List.flatMap_singleton, write]
    simp only [List.append_assoc, List.cons_append]
    refine ⟨_, closes_indentation rfl depth _, by simp, fun c before => ?_⟩
    obtain ⟨u, c₁, same, before₁, read⟩ := reads _ _ c closes before
    exact ⟨some u, c₁, by simp [same], before₁, read⟩

theorem reads_ifChain {e b : SourceTree} {clauses : List SourceTree} {branch : Option SourceTree}
    (condition : ReadsExpression o e) (block : ReadsBlock o b)
    (elseIfs : ∀ t ∈ clauses, ReadsElseIf o t) (elseBranch : ∀ t ∈ branch, ReadsElse o t)
    (fit : Fit m (.ifChain e b clauses branch)) :
    ReadsStatement o (.node m (.ifChain e b clauses branch)) := by
  refine readsStatement fit rfl rfl fun depth => ⟨⟨_, _, _, rfl⟩, fun rest c ends before => ?_⟩
  simp only [List.append_assoc, List.cons_append, List.nil_append] at before
  obtain ⟨start, next⟩ := Before.word before
  have closes : Closes (o.indentation depth ++ word .endKw :: rest) (word .endKw :: rest) :=
    closes_indentation rfl depth rest
  obtain ⟨front, closesFront, noElseIf, readsElse⟩ :=
    reads_elseClause elseBranch depth closes (by simp)
  obtain ⟨front₂, closesFront₂, readsClauses⟩ := reads_elseIfs elseIfs depth closesFront noElseIf
  obtain ⟨u, c₁, v, c₂, same, same₂, before₂, read, thenKw, readBody⟩ :=
    reads_branch condition block depth closesFront₂ next.before.blank
  obtain ⟨us, c₃, sames, before₃, readMore⟩ := readsClauses c₂ before₂
  obtain ⟨w, c₄, sameBranch, before₄, readBranch⟩ := readsElse c₃ before₃
  obtain ⟨close, behind⟩ := Before.word before₄
  refine ⟨_, _, ?_, behind, .ifChain start
    (.intro read thenKw readBody readMore readBranch close)⟩
  rw [notes_close, Kind.map, Kind.map, same, same₂, sames, sameBranch]

end Branches

/-- How a tree that stands in a place is read back from its text. -/
def ReadsAs (o : Layout) (role : Role) (t : SourceTree) : Prop :=
  match role with
  | .name => ReadsName o t ∧ t.grip = .closed
  | .dottedName => ReadsDottedName o t
  | .functionName => ReadsFunctionName o t
  | .parameter => ReadsParameter o t
  | .expression => ReadsExpression o t
  | .field => ReadsField o t
  | .elseIf => ReadsElseIf o t
  | .elseBlock => ReadsElse o t
  | .statement => ReadsStatement o t
  | .block => ReadsBlock o t
  | .chunk => ∀ c, Before (o.pieces t) c → ∃ u c₁, u.notes = o.outline t ∧ Chunk Derives c u c₁

theorem reads_chunk {o : Layout} {m : Origin} {b : SourceTree} (block : ReadsBlock o b)
    (fit : Fit m (.chunk b)) {c : Cursor} (before : Before (o.pieces (.node m (.chunk b))) c) :
    ∃ u c₁, u.notes = o.outline (.node m (.chunk b)) ∧ Chunk Derives c u c₁ := by
  have closes : Closes [] [] := ⟨⟨[], rfl⟩, rfl, nofun⟩
  rw [pieces, fragment_node] at before
  obtain ⟨u, c₁, same, before₁, read⟩ :=
    block 0 [] [] c closes (by rw [List.append_nil]; exact before)
  refine ⟨_, c₁, ?_, .intro read before₁.kind⟩
  simp [kept_of_bare fit.placed, Kind.map, same]

/-- Every well formed tree is read back from its text. -/
theorem readsAs {o : Layout} {role : Role} {t : SourceTree} (formed : Writable role t) :
    ReadsAs o role t := by
  induction formed with
    simp only [ReadsAs] at *
  | name _ fit => exact ⟨reads_name fit, rfl⟩
  | plain _ name => exact reads_plain name.1
  | dotted _ _ fit table name => exact reads_dotted table name.1 fit
  | function _ name => exact reads_function name
  | method _ _ fit table method => exact reads_method table method.1 fit
  | parameter _ name => exact reads_parameter name.1
  | varParameter fit => exact reads_varParameter fit
  | ofName _ name => exact reads_ofName name.2 name.1
  | literal token fit => exact reads_literal token fit
  | varArg fit => exact reads_varArg fit
  | binary _ _ fit left right => exact reads_binary left right fit
  | unary _ fit operand => exact reads_unary operand fit
  | paren _ fit inner => exact reads_paren inner fit
  | call _ _ fit callee arguments => exact reads_call callee arguments fit
  | methodCall _ _ _ fit receiver method arguments =>
    exact reads_methodCall receiver method.1 arguments fit
  | member _ _ fit table name => exact reads_member table name.1 fit
  | index _ _ fit table key => exact reads_index table key fit
  | table _ fit fields => exact reads_table fields fit
  | anonymousFunction _ _ _ fit parameters names body =>
    exact reads_anonymousFunction parameters (fun p member => (names p member).1) body fit
  | positional _ fit value => exact reads_positional value fit
  | named _ _ fit name value => exact reads_named name.1 value fit
  | bracketed _ _ fit key value => exact reads_bracketed key value fit
  | assignment someTarget formed assignable noFunction someValue _ fit targets values =>
    exact reads_assignment someTarget formed targets assignable noFunction someValue values fit
  | compoundAssignment sign formed assignable noFunction _ fit target value =>
    exact reads_compoundAssignment sign formed target assignable noFunction value fit
  | localNames someName _ _ fit names values =>
    exact reads_localNames someName (fun n member => (names n member).1) values fit
  | localFunction _ _ _ _ fit name parameters names body =>
    exact reads_localFunction name.1 parameters (fun p member => (names p member).1) body fit
  | functionDefinition _ _ _ _ fit name parameters names body =>
    exact reads_functionDefinition name parameters (fun p member => (names p member).1) body fit
  | returning _ fit values => exact reads_returning values fit
  | breaking fit => exact reads_breaking fit
  | continuing fit => exact reads_continuing fit
  | doBlock _ fit body => exact reads_doBlock body fit
  | ifChain _ _ _ _ fit condition body elseIfs elseBranch =>
    exact reads_ifChain condition body elseIfs elseBranch fit
  | whileLoop _ _ fit condition body => exact reads_whileLoop condition body fit
  | repeatLoop _ _ fit body condition => exact reads_repeatLoop body condition fit
  | numericFor _ _ _ _ _ fit counter start limit step body =>
    exact reads_numericFor counter.1 start limit step body fit
  | genericFor someName _ someIterator _ _ fit names iterators body =>
    exact reads_genericFor someName (fun n member => (names n member).1) someIterator iterators
      body fit
  | expressionStatement formed call noFunction fit expression =>
    exact reads_expressionStatement formed expression call noFunction fit
  | elseIf _ _ fit condition body => exact reads_elseIf condition body fit
  | elseBlock _ fit body => exact reads_elseBlock body fit
  | block _ terminalLast fit statements => exact reads_block statements terminalLast fit
  | chunk _ fit body => exact fun c before => reads_chunk body fit before

/-- A well formed program parses from its own text, with all notes that were written. -/
theorem parse_render {o : Layout} (blank : o.IsBlank) {t : SourceTree}
    (formed : Writable .chunk t) :
    ∃ u, parse (t.render o) = .ok u ∧ u.notes = o.outline t := by
  obtain ⟨last, start⟩ := exists_facing_cut (t.render o)
  rw [Tree.render, String.toList_ofList, cut_pieces blank formed] at start
  obtain ⟨u, c₁, same, read⟩ := readsAs formed (facing last .start (o.pieces t)) ⟨_, _, rfl⟩
  exact ⟨u, parseTokens_ok_iff.mpr ⟨c₁, start ▸ read⟩, same⟩

end LuaTree
