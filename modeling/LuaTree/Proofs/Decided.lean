import LuaTree.Proofs.Seen

/-!
# Productions are decided by what they have seen

Every production of the grammar, and hence every rule, is decided by the tokens
that it has read and the one in front (`calls_rules`). It never fails because
of the nesting, and all depths above its weight have the same outcome.

Two productions look one token further. A loop is numeric if `=` stands behind
its first name, and that name is read in any case. A field that begins with a
name is an expression unless `=` stands behind the name, and no expression fails
at a name that it begins with.
-/

namespace LuaTree

namespace Grammar

open Cursor TokenReader

theorem terminals_leaf {kind : Kind SourceTree} (c : Cursor) (plain : kind.isTerminal = false)
    (childless : kind.children = []) : (c.leaf kind).terminals = [] := by
  rw [leaf, Tree.terminals_node, plain, childless]
  rfl

@[simp, grind =] theorem terminals_name (c : Cursor) (name : String) :
    (c.leaf (.identifier name)).terminals = [] :=
  terminals_leaf c rfl rfl

@[simp, grind =] theorem terminals_close (c : Cursor) (start : Span) (kind : Kind SourceTree) :
    (c.close start kind).terminals =
      (if kind.isTerminal then [start.through c.last] else []) ++
        kind.children.flatMap Tree.terminals :=
  Tree.terminals_node _ _

@[simp, grind =] theorem terminals_binary (op : BinaryOp) (left right : SourceTree) :
    (binary op left right).terminals = left.terminals ++ right.terminals := by
  simp [binary, Tree.terminals_node, Kind.isTerminal, Kind.children]

/-- An operation made of two operands. -/
theorem decided_operation {R : Rules} {known : List Span} {c : Cursor}
    {found : SourceTree → List Span} {op : BinaryOp} {left right : SourceTree}
    (all : ∀ span ∈ found (binary op left right), span ∈ known) :
    Decided R 0 known found (fun _ => operation op left right) c :=
  decided_pure all

theorem bind_operation {α : Type} {R : Rules} {fewest : Nat} {known : List Span} {c : Cursor}
    {found : α → List Span} {f : Rules → SourceTree → TokenReader α} {op : BinaryOp}
    {left right : SourceTree}
    (further : Decided R fewest known found (fun r => f r (binary op left right)) c) :
    Decided R fewest known found (fun r => operation op left right >>= f r) c := by
  simpa only [operation_eq, pure_bind] using further

theorem ne_eof_of_operator? {level : Nat} {kind : TokenKind} {op : BinaryOp}
    (sign : (levelAt level).operator? kind = some op) : kind ≠ .eof :=
  TokenKind.ne_eof_of_binaryOp? (operator?_eq_some.mp sign).1

/-- A name alone is an expression. -/
theorem exists_derives_name {token : Token} (name : token.kind = .identifier) (stop : Token)
    (eof : stop.kind = .eof) (last : Span) (comments : List Comment) :
    ∃ t d, Derives _ (.expression 1) ⟨[token], stop, last, comments⟩ t d := by
  have ends : EndsFile ⟨[token], stop, last, comments⟩ := eof
  have ends' : EndsFile ⟨[], stop, token.span, comments⟩ := eof
  have head : Primary Derives ⟨[token], stop, last, comments⟩ _ _ := .name (.intro name)
  have final : EndsSuffixes ⟨[], stop, token.span, comments⟩ := by
    constructor <;> simp [current, eof]
  have read : PrefixExpression Derives ⟨[token], stop, last, comments⟩ _ _ :=
    .intro head ((derives_iff ends').mpr (.done final))
  have sign := TokenKind.unaryOp?_of_startsPrimary read.starts
  have unary : Unary Derives ⟨[token], stop, last, comments⟩ _ _ :=
    .power sign (.plain read (by simp [current, eof]))
  have tight : Derives _ (.expression UnaryOp.precedence) ⟨[token], stop, last, comments⟩ _ _ :=
    (derives_iff ends).mpr (.unary (Nat.lt_irrefl _) unary)
  refine ⟨_, _, derives_looser (by decide) ends ?_ tight⟩
  exact eof

/-- What begins with an expression does not fail at a name in front: otherwise it would fail before
a file that ends behind the name. -/
theorem Decided.begins_with_name {R : Rules} {n : Nat} {known : List Span}
    {found : SourceTree → List Span} {c : Cursor} {start : Span}
    {kind : SourceTree → Kind SourceTree}
    (decided : Decided R 0 known found
      (fun r => r _ (.expression 1) >>= fun t => nodeFrom start (kind t)) c)
    (calls : Calls R n) (proper : c.Proper) (name : c.current.kind = .identifier) :
    Decided R 1 known found
      (fun r => r _ (.expression 1) >>= fun t => nodeFrom start (kind t)) c := by
  cases decided with
  | @error own e run enough refuses =>
    refine .error run ?_ refuses
    rw [Nat.succ_le_iff, List.length_pos_iff]
    rintro rfl
    let stop : Token := ⟨.eof, "", default⟩
    obtain ⟨u, d, read⟩ := exists_derives_name name stop rfl c.last c.comments
    have short : Cursor.Proper ⟨[c.current], stop, c.last, c.comments⟩ :=
      ⟨rfl, by simp [name]⟩
    have front : [e.cursor.current] <+: [c.current] :=
      List.prefix_of_prefix_length_le refuses.consumes.seen c.front_isPrefix (Nat.le_refl _)
    have fails := refuses.always _ ⟨short, rfl, rfl, front.trans (List.prefix_append _ _)⟩
    have works := (read.finally short.ends).bind
      (f := fun _ t => nodeFrom start (kind t)) (.of_run fun _ => rfl)
    cases fails.unique works
  | @ok own a c' run enough yields trapped =>
    refine .ok run ?_ yields fun softly span member => ?_
    · obtain ⟨t, c₁, given, final⟩ := gives_bind.mp run
      obtain ⟨-, rfl⟩ := gives_nodeFrom.mp final
      have shorter := ((calls.derives proper.ends given).shortens proper.ends).length
      rw [yields.consumes.rest, List.length_append, least] at shorter
      omega
    · obtain is | ⟨own, -, traps⟩ := trapped softly span member
      · exact .inl is
      · exact .inr ⟨own, traps.front.length_le, traps⟩

section Expressions

variable {R : Rules} {n : Nat} {known : List Span} {c : Cursor} (calls : Calls R n)

include calls

theorem decided_expressions (ready : Ready n c) (room : 16 * c.rest.length + 11 ≤ n) :
    Decided R 0 known (List.flatMap Tree.terminals) expressions c := by
  unfold expressions expression
  refine calls.first ready ?_ rfl trivial fun first c₁ roomy => ?_
  · simp only [weight, rank]
    omega
  · refine calls.later roomy trivial fun more c₂ roomy => decided_pure ?_
    grind [terminalsOf]

theorem decided_moreExpressions (ready : Ready n c) :
    Decided R 0 known (List.flatMap Tree.terminals) moreExpressions c := by
  unfold moreExpressions
  refine bind_accept ready (by decide) (fun _ roomy => ?_) fun _ => decided_pure (by simp)
  exact calls.last .expressions roomy trivial

/-- A list up to its closing parenthesis, and what is done with it. -/
theorem decided_enclosed {α : Type} {found : α → List Span} {rule : Rule (List SourceTree)}
    {cause : Cause} {f : Rules → List SourceTree → TokenReader α} (roomy : Roomy n c)
    (admits : Admits rule known) (cause_ne : cause ≠ .nesting)
    (list : terminalsOf rule = List.flatMap Tree.terminals)
    (further : ∀ ts c₁, Roomy n c₁ →
      Decided R 0 (known ++ ts.flatMap Tree.terminals) found (fun r => f r ts) c₁) :
    Decided R 0 known found (fun r => do
      if (← peekKind) = .rParen then
        let _ ← expect .rParen cause
        f r []
      else
        let ts ← r _ rule
        let _ ← expect .rParen cause
        f r ts) c := by
  refine bind_peekKind (.ite (fun _ => ?_) fun _ => ?_)
  · refine bind_expect roomy.ready (by decide) cause_ne fun _ roomy => ?_
    simpa using further [] _ roomy
  · refine calls.later roomy admits fun ts c₁ roomy => ?_
    rw [list]
    exact bind_expect roomy.ready (by decide) cause_ne fun _ roomy => further ts _ roomy

theorem decided_arguments {cause : Cause} (roomy : Roomy n c) (cause_ne : cause ≠ .nesting) :
    Decided R 0 known (List.flatMap Tree.terminals) (fun r => arguments r cause) c := by
  unfold arguments
  simp only [pure_bind]
  exact decided_enclosed calls roomy trivial cause_ne rfl fun ts _ _ => decided_pure (by grind)

theorem decided_parameters (ready : Ready n c) :
    Decided R 0 known (List.flatMap Tree.terminals) parameters c := by
  unfold parameters
  refine bind_peekKind (.ite (fun dots => ?_) fun _ => ?_)
  · refine bind_next ready (by simp [dots]) fun _ => decided_pure ?_
    simp [Tree.terminals_node, Kind.isTerminal, Kind.children]
  · refine bind_name ready (by decide) fun roomy => ?_
    refine bind_accept roomy.ready (by decide) (fun _ roomy => ?_) fun _ => decided_pure (by simp)
    refine calls.later roomy trivial fun more _ _ => decided_pure ?_
    grind [terminalsOf]

theorem decided_functionBody (roomy : Roomy n c) :
    Decided R 0 known (fun f => f.1.flatMap Tree.terminals ++ f.2.terminals) functionBody c := by
  unfold functionBody
  simp only [pure_bind]
  refine bind_expect roomy.ready (by decide) (by decide) fun _ roomy => ?_
  refine decided_enclosed calls roomy trivial (by decide) rfl fun params _ roomy => ?_
  refine calls.later roomy trivial fun body _ roomy => ?_
  refine bind_expect roomy.ready (by decide) (by decide) fun _ _ => decided_pure ?_
  grind [terminalsOf]

theorem decided_field (ready : Ready n c) (room : 16 * c.rest.length + 11 ≤ n) :
    Decided R 0 known Tree.terminals field c := by
  have positional : Decided R 0 known Tree.terminals (fun r => do
      let value ← r _ (.expression 1)
      nodeFrom c.current.span (.field .positional none value)) c := by
    refine calls.first ready ?_ rfl trivial fun value _ roomy => decided_nodeFrom ?_
    · simp only [weight, rank]
      omega
    · grind [terminalsOf, Kind.isTerminal, Kind.children]
  unfold field expression
  refine bind_peek (bind_accept ready (by decide) (fun _ roomy => ?_) fun _ => bind_peekKind ?_)
  · refine calls.later roomy trivial fun key _ roomy => ?_
    refine bind_expect roomy.ready (by decide) (by decide) fun _ roomy => ?_
    refine bind_expect roomy.ready (by decide) (by decide) fun _ roomy => ?_
    refine calls.later roomy trivial fun value _ roomy => decided_nodeFrom ?_
    grind [terminalsOf, Kind.isTerminal, Kind.children]
  · by_cases front : c.current.kind = .identifier
    · by_cases assign : c.following.kind = .assign
      · refine Decided.fewer (bind_followingKind (by decide : 1 ≤ 2) (by simp) ?_) (Nat.zero_le _)
        simp only [front, assign, and_self, if_true]
        refine bind_name_of_eq ready front fun roomy => ?_
        refine bind_next roomy.ready (by simp [current_advance, assign]) fun roomy => ?_
        refine calls.later roomy trivial fun value _ roomy => decided_nodeFrom ?_
        grind [terminalsOf, Kind.isTerminal, Kind.children]
      · refine Decided.fewer (bind_followingKind (Nat.le_refl 1) ?_ ?_) (Nat.zero_le _)
        · simp [assign]
        · simp only [assign, and_false, if_false]
          exact positional.begins_with_name calls ready.proper front
    · have plain (next : TokenKind) : ¬ (c.current.kind = .identifier ∧ next = .assign) :=
        fun both => front both.1
      simp only [plain, if_false]
      exact positional.congr (fun _ => rfl) (fun _ _ _ _ _ _ => rfl) fun _ _ _ _ _ _ _ _ _ => rfl

/-- A field, and the others if there is a divider behind it. -/
theorem decided_someFields (ready : Ready n c) (room : 16 * c.rest.length + 11 ≤ n) :
    Decided R 0 known (List.flatMap Tree.terminals) (fun r => do
      let first ← field r
      match ← peekKind with
      | .comma | .semicolon =>
        let _ ← next
        return first :: (← r _ .fields)
      | _ => return [first]) c := by
  refine (decided_field calls ready room).first ready (fun t c₁ given => ?_)
    fun first c₁ roomy => bind_peekKind ?_
  · exact ((gives_field.mp given).lift (calls.below _) ready.proper.ends (Nat.le_refl _)).2
  have more (divides : c₁.current.kind ≠ .eof) : Decided R 0 (known ++ first.terminals)
      (List.flatMap Tree.terminals) (fun r => do
        let _ ← next
        return first :: (← r _ .fields)) c₁ := by
    refine bind_next roomy.ready divides fun roomy => ?_
    refine calls.later roomy trivial fun rest _ _ => decided_pure ?_
    grind [terminalsOf]
  have last : Decided R 0 (known ++ first.terminals) (List.flatMap Tree.terminals)
      (fun _ => pure [first]) c₁ := decided_pure (by grind)
  cases kind : c₁.current.kind with
  | comma => exact more (by simp [kind])
  | semicolon => exact more (by simp [kind])
  | _ => exact last

theorem decided_fields (ready : Ready n c) (room : 16 * c.rest.length + 11 ≤ n) :
    Decided R 0 known (List.flatMap Tree.terminals) fields c := by
  unfold fields
  refine bind_peekKind ?_
  cases c.current.kind with
  | rBrace => exact decided_pure (by simp)
  | eof => exact decided_pure (by simp)
  | _ => exact decided_someFields calls ready room

theorem decided_primary (ready : Ready n c) :
    Decided R 0 known Tree.terminals primary c := by
  unfold primary expression
  refine bind_peek ?_
  cases token : literal? c.current with
  | some literal =>
    refine bind_next ready (literal?_ne_eof token) fun _ => decided_pure ?_
    simp [Tree.terminals_node, Kind.isTerminal, Kind.children]
  | none =>
    cases kind : c.current.kind with
    | identifier =>
      have read : Decided R 0 known Tree.terminals (fun _ => name .name >>= pure) c :=
        bind_name ready (by decide) fun _ => decided_pure (by simp)
      simpa only [bind_pure] using read
    | ellipsis =>
      refine bind_next ready (by simp [kind]) fun _ => decided_pure ?_
      simp [Tree.terminals_node, Kind.isTerminal, Kind.children]
    | lBrace =>
      refine bind_next ready (by simp [kind]) fun roomy => ?_
      refine calls.later roomy trivial fun entries _ roomy => ?_
      refine bind_expect roomy.ready (by decide) (by decide) fun _ _ => decided_nodeFrom ?_
      grind [terminalsOf, Kind.isTerminal, Kind.children]
    | functionKw =>
      refine bind_next ready (by simp [kind]) fun roomy => ?_
      refine (decided_functionBody calls roomy).later roomy fun f _ _ => decided_nodeFrom ?_
      grind [terminalsOf, Kind.isTerminal, Kind.children]
    | lParen =>
      refine bind_next ready (by simp [kind]) fun roomy => ?_
      refine calls.later roomy trivial fun inner _ roomy => ?_
      refine bind_expect roomy.ready (by decide) (by decide) fun _ _ => decided_nodeFrom ?_
      grind [terminalsOf, Kind.isTerminal, Kind.children]
    | _ => exact decided_fail (by decide)

theorem decided_suffixes {head : SourceTree} (ready : Ready n c) (given : head.terminals ⊆ known) :
    Decided R 0 known Tree.terminals (fun r => suffixes r head) c := by
  have more {t : SourceTree} {c₁ : Cursor} {known : List Span} (roomy : Roomy n c₁)
      (grown : t.terminals ⊆ known) :
      Decided R 0 known Tree.terminals (fun r => r _ (.suffixes t)) c₁ :=
    calls.last (.suffixes t) roomy grown
  have done : Decided R 0 known Tree.terminals (fun _ => pure head) c := decided_pure given
  unfold suffixes expression
  refine bind_getThe (fun r d front last => ?_) (bind_spanOf ?_)
  · rw [front, breaksLine, breaksLine, front, last]
  cases kind : c.current.kind with
  | lParen =>
    refine .ite (fun _ => done) fun _ => ?_
    refine bind_next ready (by simp [kind]) fun roomy => ?_
    refine (decided_arguments calls roomy (by decide)).later roomy fun args _ roomy => ?_
    refine bind_nodeFrom (more roomy ?_)
    grind [Kind.isTerminal, Kind.children]
  | lBracket =>
    refine .ite (fun _ => done) fun _ => ?_
    refine bind_next ready (by simp [kind]) fun roomy => ?_
    refine calls.later roomy trivial fun key _ roomy => ?_
    refine bind_expect roomy.ready (by decide) (by decide) fun _ roomy => ?_
    refine bind_nodeFrom (more roomy ?_)
    grind [terminalsOf, Kind.isTerminal, Kind.children]
  | dot =>
    refine bind_next ready (by simp [kind]) fun roomy => ?_
    refine bind_name roomy.ready (by decide) fun roomy => ?_
    refine bind_nodeFrom (more roomy ?_)
    grind [Kind.isTerminal, Kind.children]
  | colon =>
    refine bind_next ready (by simp [kind]) fun roomy => ?_
    refine bind_name roomy.ready (by decide) fun roomy => ?_
    refine bind_expect roomy.ready (by decide) (by decide) fun _ roomy => ?_
    refine (decided_arguments calls roomy (by decide)).later roomy fun args _ roomy => ?_
    refine bind_nodeFrom (more roomy ?_)
    grind [Kind.isTerminal, Kind.children]
  | _ => exact done

theorem decided_prefixExpression (ready : Ready n c) :
    Decided R 0 known Tree.terminals prefixExpression c := by
  unfold prefixExpression
  refine (decided_primary calls ready).first ready (fun t c₁ given => ?_) fun head c₁ roomy => ?_
  · exact ((gives_primary.mp given).lift (calls.below _) ready.proper.ends (Nat.le_refl _)).2
  · exact calls.last (.suffixes head) roomy (List.subset_append_right _ _)

/-- A prefix expression before anything else. -/
theorem decided_afterPrefix {α : Type} {found : α → List Span}
    {f : Rules → SourceTree → TokenReader α} (ready : Ready n c)
    (further : ∀ t c₁, Roomy n c₁ →
      Decided R 0 (known ++ t.terminals) found (fun r => f r t) c₁) :
    Decided R 0 known found (fun r => prefixExpression r >>= f r) c := by
  refine (decided_prefixExpression calls ready).first ready (fun t c₁ given => ?_) further
  exact ((gives_prefixExpression.mp given).lift (calls.below _) ready.proper.ends
    (Nat.le_refl _)).2

theorem decided_power (ready : Ready n c) : Decided R 0 known Tree.terminals power c := by
  unfold power
  refine decided_afterPrefix calls ready fun left c₁ roomy => ?_
  refine bind_peekKind ?_
  cases sign : (levelAt (unaryLevel + 1)).operator? c₁.current.kind with
  | none => exact decided_pure (by grind)
  | some op =>
    refine bind_next roomy.ready (ne_eof_of_operator? sign) fun roomy => ?_
    refine calls.later roomy trivial fun right _ _ => decided_operation ?_
    grind [terminalsOf]

theorem decided_unary (ready : Ready n c) : Decided R 0 known Tree.terminals unary c := by
  unfold unary
  refine bind_peek ?_
  cases sign : c.current.kind.unaryOp? with
  | some op =>
    refine bind_next ready (TokenKind.ne_eof_of_unaryOp? sign) fun roomy => ?_
    refine calls.later roomy trivial fun operand _ _ => bind_spanOf (decided_make ?_)
    grind [terminalsOf, Tree.terminals_node, Kind.isTerminal, Kind.children]
  | none => exact decided_power calls ready

theorem decided_operators {level : Nat} {left : SourceTree} (ready : Ready n c)
    (given : left.terminals ⊆ known) :
    Decided R 0 known Tree.terminals (fun r => operators r level left) c := by
  unfold operators
  refine bind_peekKind ?_
  cases sign : (levelAt level).operator? c.current.kind with
  | none => exact decided_pure given
  | some op =>
    refine bind_next ready (ne_eof_of_operator? sign) fun roomy => ?_
    cases (levelAt level).grouping with
    | left =>
      refine calls.later roomy trivial fun right _ roomy => bind_operation ?_
      refine calls.last (.operators level (binary op left right)) roomy ?_
      simp only [Admits]
      grind [terminalsOf]
    | right =>
      refine calls.later roomy trivial fun right _ roomy => decided_operation ?_
      grind [terminalsOf]
    | none =>
      refine calls.later roomy trivial fun right _ roomy => decided_operation ?_
      grind [terminalsOf]

theorem decided_ladder {level : Nat} (ready : Ready n c)
    (room : 16 * c.rest.length + (11 - level) ≤ n) :
    Decided R 0 known Tree.terminals (fun r => ladder r level) c := by
  unfold ladder
  refine .ite (fun low => ?_) fun _ => decided_unary calls ready
  have lower : level < 11 := low
  refine calls.first ready ?_ rfl trivial fun left c₁ roomy => ?_
  · simp only [weight, rank]
    omega
  · exact calls.last (.operators level left) roomy (List.subset_append_right _ _)

end Expressions

@[simp, grind =] theorem innerTerminals_close (c : Cursor) (start : Span) (kind : Kind SourceTree) :
    (c.close start kind).innerTerminals = kind.children.flatMap Tree.terminals := rfl

/-- A name is read before the token behind it is looked at. -/
theorem followingKind_name {α : Type} (cause : Cause)
    (f : TokenKind → SourceTree → TokenReader α) :
    (followingKind >>= fun kind => name cause >>= f kind) =
      (name cause >>= fun t => peekKind >>= fun kind => f kind t) := by
  apply StateT.ext
  intro c
  have ahead : (followingKind >>= fun kind => name cause >>= f kind).run c =
      (name cause >>= f c.following.kind).run c := rfl
  rw [ahead]
  by_cases front : c.current.kind = .identifier
  · have behind : (peekKind >>= fun kind => f kind (c.leaf (.identifier c.current.lexeme))).run
        c.advance = (f c.following.kind (c.leaf (.identifier c.current.lexeme))).run c.advance := by
      rw [← current_advance]
      rfl
    simp only [name, bind_assoc, StateT.run_bind, run_expect_of_eq front]
    exact behind.symm
  · simp only [name, bind_assoc, StateT.run_bind, run_expect_of_ne front]
    rfl

section Statements

variable {R : Rules} {n : Nat} {known : List Span} {c : Cursor} (calls : Calls R n)

include calls

theorem decided_moreNames {cause : Cause} (ready : Ready n c) (cause_ne : cause ≠ .nesting) :
    Decided R 0 known (List.flatMap Tree.terminals) (fun r => moreNames r cause) c := by
  unfold moreNames
  refine bind_accept ready (by decide) (fun _ roomy => ?_) fun _ => decided_pure (by simp)
  refine bind_name roomy.ready cause_ne fun roomy => ?_
  refine calls.later roomy cause_ne fun more _ _ => decided_pure ?_
  simp only [terminalsOf]
  grind

theorem decided_moreTargets (ready : Ready n c) :
    Decided R 0 known (List.flatMap Tree.terminals) moreTargets c := by
  unfold moreTargets
  refine bind_accept ready (by decide) (fun _ roomy => ?_) fun _ => decided_pure (by simp)
  refine decided_afterPrefix calls roomy.ready fun first _ roomy => ?_
  refine calls.later roomy trivial fun more _ _ => decided_pure ?_
  grind [terminalsOf]

theorem decided_localStatement (ready : Ready n c) (start : c.current.kind = .localKw) :
    Decided R 0 known Tree.innerTerminals localStatement c := by
  unfold localStatement
  simp only [pure_bind]
  refine bind_next ready (by simp [start]) fun roomy => ?_
  refine bind_accept roomy.ready (by decide) (fun _ roomy => ?_) fun _ => ?_
  · refine bind_name roomy.ready (by decide) fun roomy => ?_
    refine (decided_functionBody calls roomy).later roomy fun f _ _ => decided_nodeFrom ?_
    grind [Kind.children]
  · refine bind_name roomy.ready (by decide) fun roomy => ?_
    refine calls.later roomy (by simp [Admits]) fun names _ roomy => ?_
    refine bind_accept roomy.ready (by decide) (fun _ roomy => ?_) fun _ => decided_nodeFrom ?_
    · refine calls.later roomy trivial fun values _ _ => decided_nodeFrom ?_
      grind [terminalsOf, Kind.children]
    · grind [terminalsOf, Kind.children]

theorem decided_dottedName {head : SourceTree} (ready : Ready n c)
    (given : head.terminals ⊆ known) :
    Decided R 0 known Tree.terminals (fun r => dottedName r head) c := by
  have more {t : SourceTree} {c₁ : Cursor} (roomy : Roomy n c₁) (grown : t.terminals ⊆ known) :
      Decided R 0 known Tree.terminals (fun r => r _ (.dottedName t)) c₁ :=
    calls.last (.dottedName t) roomy grown
  unfold dottedName
  refine bind_spanOf (bind_peekKind ?_)
  cases kind : c.current.kind with
  | dot =>
    refine bind_next ready (by simp [kind]) fun roomy => ?_
    refine bind_name roomy.ready (by decide) fun roomy => bind_nodeFrom (more roomy ?_)
    grind [Kind.isTerminal, Kind.children]
  | colon =>
    refine bind_next ready (by simp [kind]) fun roomy => ?_
    refine bind_name roomy.ready (by decide) fun roomy => decided_nodeFrom ?_
    grind [Kind.isTerminal, Kind.children]
  | _ => exact decided_pure given

theorem decided_functionStatement (ready : Ready n c) (start : c.current.kind = .functionKw) :
    Decided R 0 known Tree.innerTerminals functionStatement c := by
  unfold functionStatement
  refine bind_next ready (by simp [start]) fun roomy => ?_
  refine bind_name roomy.ready (by decide) fun roomy => ?_
  refine calls.later roomy (by simp [Admits]) fun name _ roomy => ?_
  refine (decided_functionBody calls roomy).later roomy fun f _ _ => decided_nodeFrom ?_
  grind [terminalsOf, Kind.children]

theorem decided_returnStatement (ready : Ready n c) (start : c.current.kind = .returnKw) :
    Decided R 0 known Tree.innerTerminals returnStatement c := by
  unfold returnStatement
  simp only [pure_bind]
  refine bind_next ready (by simp [start]) fun roomy => ?_
  refine bind_peekKind (bind_atBlockEnd (.ite (fun _ => decided_nodeFrom ?_) fun _ => ?_))
  · grind [Kind.children]
  · refine calls.later roomy trivial fun values _ _ => decided_nodeFrom ?_
    grind [terminalsOf, Kind.children]

theorem decided_doStatement (ready : Ready n c) (start : c.current.kind = .doKw) :
    Decided R 0 known Tree.innerTerminals doStatement c := by
  unfold doStatement
  refine bind_next ready (by simp [start]) fun roomy => ?_
  refine calls.later roomy trivial fun body _ roomy => ?_
  refine bind_expect roomy.ready (by decide) (by decide) fun _ _ => decided_nodeFrom ?_
  grind [terminalsOf, Kind.children]

theorem decided_elseIfs (ready : Ready n c) :
    Decided R 0 known (List.flatMap Tree.terminals) elseIfs c := by
  unfold elseIfs expression
  refine bind_peekKind (.ite (fun start => ?_) fun _ => decided_pure (by simp))
  refine bind_next ready (by simp [start]) fun roomy => ?_
  refine calls.later roomy trivial fun condition _ roomy => ?_
  refine bind_expect roomy.ready (by decide) (by decide) fun _ roomy => ?_
  refine calls.later roomy trivial fun body _ roomy => bind_nodeFrom ?_
  refine calls.later roomy trivial fun more _ _ => decided_pure ?_
  grind [terminalsOf, Kind.isTerminal, Kind.children]

theorem decided_elseClause (roomy : Roomy n c) :
    Decided R 0 known (fun branch => branch.toList.flatMap Tree.terminals) elseClause? c := by
  unfold elseClause?
  refine bind_peekKind (.ite (fun start => ?_) fun _ => decided_pure (by simp))
  refine bind_next roomy.ready (by simp [start]) fun roomy => ?_
  refine calls.later roomy trivial fun body _ roomy => bind_nodeFrom (decided_pure ?_)
  grind [terminalsOf, Kind.isTerminal, Kind.children]

theorem decided_ifStatement (ready : Ready n c) (start : c.current.kind = .ifKw) :
    Decided R 0 known Tree.innerTerminals ifStatement c := by
  unfold ifStatement expression
  refine bind_next ready (by simp [start]) fun roomy => ?_
  refine calls.later roomy trivial fun condition _ roomy => ?_
  refine bind_expect roomy.ready (by decide) (by decide) fun _ roomy => ?_
  refine calls.later roomy trivial fun body _ roomy => ?_
  refine calls.later roomy trivial fun clauses _ roomy => ?_
  refine (decided_elseClause calls roomy).later roomy fun branch _ roomy => ?_
  refine bind_expect roomy.ready (by decide) (by decide) fun _ _ => decided_nodeFrom ?_
  grind [terminalsOf, Kind.children]

theorem decided_whileStatement (ready : Ready n c) (start : c.current.kind = .whileKw) :
    Decided R 0 known Tree.innerTerminals whileStatement c := by
  unfold whileStatement expression
  refine bind_next ready (by simp [start]) fun roomy => ?_
  refine calls.later roomy trivial fun condition _ roomy => ?_
  refine bind_expect roomy.ready (by decide) (by decide) fun _ roomy => ?_
  refine calls.later roomy trivial fun body _ roomy => ?_
  refine bind_expect roomy.ready (by decide) (by decide) fun _ _ => decided_nodeFrom ?_
  grind [terminalsOf, Kind.children]

theorem decided_repeatStatement (ready : Ready n c) (start : c.current.kind = .repeatKw) :
    Decided R 0 known Tree.innerTerminals repeatStatement c := by
  unfold repeatStatement expression
  refine bind_next ready (by simp [start]) fun roomy => ?_
  refine calls.later roomy trivial fun body _ roomy => ?_
  refine bind_expect roomy.ready (by decide) (by decide) fun _ roomy => ?_
  refine calls.later roomy trivial fun condition _ roomy => decided_nodeFrom ?_
  grind [terminalsOf, Kind.children]

theorem decided_forBody (roomy : Roomy n c) :
    Decided R 0 known Tree.terminals forBody c := by
  unfold forBody
  refine bind_expect roomy.ready (by decide) (by decide) fun _ roomy => ?_
  refine calls.later roomy trivial fun body _ roomy => ?_
  refine bind_expect roomy.ready (by decide) (by decide) fun _ _ => decided_pure ?_
  grind [terminalsOf]

theorem decided_forStatement (ready : Ready n c) (start : c.current.kind = .forKw) :
    Decided R 0 known Tree.innerTerminals forStatement c := by
  unfold forStatement expression
  simp only [followingKind_name, bind_map_left, pure_bind]
  refine bind_next ready (by simp [start]) fun roomy => ?_
  refine bind_name roomy.ready (by decide) fun roomy => ?_
  refine bind_peekKind (.ite (fun assign => ?_) fun _ => ?_)
  · refine bind_next roomy.ready (by simp [assign]) fun roomy => ?_
    refine calls.later roomy trivial fun initial _ roomy => ?_
    refine bind_expect roomy.ready (by decide) (by decide) fun _ roomy => ?_
    refine calls.later roomy trivial fun limit _ roomy => ?_
    refine bind_accept roomy.ready (by decide) (fun _ roomy => ?_) fun _ => ?_
    · refine calls.later roomy trivial fun step _ roomy => ?_
      refine (decided_forBody calls roomy).later roomy fun body _ _ => decided_nodeFrom ?_
      grind [terminalsOf, Kind.children]
    · refine (decided_forBody calls roomy).later roomy fun body _ _ => decided_nodeFrom ?_
      grind [terminalsOf, Kind.children]
  · refine calls.later roomy (by simp [Admits]) fun names _ roomy => ?_
    refine bind_expect roomy.ready (by decide) (by decide) fun _ roomy => ?_
    refine calls.later roomy trivial fun iterators _ roomy => ?_
    refine (decided_forBody calls roomy).later roomy fun body _ _ => decided_nodeFrom ?_
    grind [terminalsOf, Kind.children]

omit calls in
theorem bind_checkAssignable {α : Type} {found : α → List Span} {targets : List SourceTree}
    {f : Rules → Unit → TokenReader α}
    (further : Decided R 0 known found (fun r => f r ()) c) :
    Decided R 0 known found (fun r => checkAssignable targets >>= f r) c := by
  have check : Decided R 0 known (fun _ => []) (fun _ => checkAssignable targets) c := by
    rw [checkAssignable_eq]
    exact .ite (fun _ => decided_pure (by simp)) fun _ => decided_fail (by decide)
  refine check.bind fun own a c₁ run yields => ?_
  obtain ⟨-, rfl⟩ := gives_checkAssignable.mp run
  simpa using further

theorem decided_expressionStatement (ready : Ready n c) :
    Decided R 0 known Tree.innerTerminals expressionStatement c := by
  unfold expressionStatement expression
  refine bind_peek (decided_afterPrefix calls ready fun first _ roomy => ?_)
  refine calls.later roomy trivial fun more c₁ roomy => bind_peekKind ?_
  refine .ite (fun assign => bind_checkAssignable ?_) fun _ => ?_
  · refine bind_next roomy.ready (by simp [assign]) fun roomy => ?_
    refine calls.later roomy trivial fun values _ _ => decided_nodeFrom ?_
    grind [terminalsOf, Kind.children]
  · cases more with
    | nil =>
      cases sign : c₁.current.kind.assignOp? with
      | some op =>
        refine bind_checkAssignable ?_
        refine bind_next roomy.ready (TokenKind.ne_eof_of_assignOp? sign) fun roomy => ?_
        refine calls.later roomy trivial fun value _ _ => decided_nodeFrom ?_
        grind [terminalsOf, Kind.children]
      | none =>
        refine .ite (fun _ => decided_nodeFrom ?_) fun _ => decided_fail (by decide)
        grind [terminalsOf, Kind.children]
    | cons target more => exact decided_fail (by decide)

theorem decided_statement (ready : Ready n c) :
    Decided R 0 known Tree.innerTerminals statement c := by
  have word {kind : Kind SourceTree} (childless : kind.children = [])
      (some : c.current.kind ≠ .eof) : Decided R 0 known Tree.innerTerminals
        (fun _ => next >>= fun token => pure (.node (.ofSpan token.span) kind)) c :=
    bind_next ready some fun _ => decided_pure
      (by simp [Tree.innerTerminals, Tree.children, Tree.kind, childless])
  unfold statement
  refine bind_peekKind ?_
  cases kind : c.current.kind with
  | localKw => exact decided_localStatement calls ready kind
  | functionKw => exact decided_functionStatement calls ready kind
  | returnKw => exact decided_returnStatement calls ready kind
  | breakKw => exact word rfl (by simp [kind])
  | continueKw => exact word rfl (by simp [kind])
  | doKw => exact decided_doStatement calls ready kind
  | ifKw => exact decided_ifStatement calls ready kind
  | whileKw => exact decided_whileStatement calls ready kind
  | repeatKw => exact decided_repeatStatement calls ready kind
  | forKw => exact decided_forStatement calls ready kind
  | _ => exact decided_expressionStatement calls ready

/-- A statement behind which its block must end, a semicolon behind it, and then something else: it
is what is done with the statement that fails. -/
theorem Yields.trapped_statement {α : Type} {f : Rules → SourceTree → TokenReader α}
    {own : List Token} {t : SourceTree} {c₁ : Cursor} (softly : EndsSoftly) (proper : c.Proper)
    (run : (R _ .statement).run c = .ok (t, c₁))
    (yields : Yields (fun r => r _ .statement) c own t c₁) (terminal : t.kind.isTerminal = true)
    (fails : ∀ d semicolon u, semicolon.kind = .semicolon → u.kind.endsBlock = false →
      c₁.Shows [semicolon, u] d →
      ∃ d', ∀ r, (f r t).run d = .error ⟨⟨.afterTerminal, u.kind, u.span.start⟩, d'⟩) :
    Trapped (fun r => r _ .statement >>= f r) c own t.span := by
  have read := calls.derives proper.ends run
  have shorter := read.shortens proper.ends
  obtain ⟨kind, -, rfl, -⟩ := derives_gathered proper.ends read
  have consumes := yields.consumes
  refine ⟨⟨_, consumes.rest.symm⟩, ?_, fun semicolon u d kind goesOn view => ?_⟩
  · obtain ⟨first, last, -, back, whole⟩ := consumes.spans (consumes.ne_nil shorter)
    refine ⟨last, back, ?_⟩
    exact (congrArg Span.endOffset whole).symm
  · have reads := softly proper read terminal consumes kind
      (view.of_isPrefix ((List.prefix_append_right_inj own).mpr ⟨[u], rfl⟩))
    obtain ⟨d', fails⟩ := fails _ semicolon u kind goesOn (view.behind c₁)
    exact ⟨d', (reads.finally view.proper.ends).bind (.of_run fun depth => fails _)⟩

omit calls in
/-- What is done with such a statement fails behind the semicolon. -/
theorem run_afterTerminal {α : Type} {t : SourceTree} {leading : List Comment}
    {f : SourceTree → Unit → TokenReader α} {g : SourceTree → TokenReader α} {d : Cursor}
    {semicolon u : Token} (terminal : t.kind.isTerminal = true)
    (kind : semicolon.kind = .semicolon) (goesOn : u.kind.endsBlock = false)
    (view : c.Shows [semicolon, u] d) :
    (do
      let _ ← accept .semicolon
      let trailing ← takeTrailing
      let statement ← attach t leading trailing
      let kind ← kindOf statement
      let stop ← atBlockEnd
      if kind.isTerminal ∧ ¬ stop then fail .afterTerminal >>= f statement else g statement
        : TokenReader α).run d =
      .error ⟨⟨.afterTerminal, u.kind, u.span.start⟩, d.advance.afterTrailing⟩ := by
  have front : d.current.kind = .semicolon := view.current ▸ kind
  have behind : d.advance.afterTrailing.current = u := by
    rw [current_afterTrailing, current_advance, following_of_isPrefix view.tokens]
  have taken : (takeTrailing : TokenReader (List Comment)).run d.advance =
      .ok (d.advance.trailing, d.advance.afterTrailing) := rfl
  refine (run_bind_of_ok (run_accept_of_eq front)).trans ?_
  refine (run_bind_of_ok taken).trans ?_
  refine (run_bind_of_ok (run_attach ..)).trans ?_
  refine (run_bind_of_ok (run_kindOf ..)).trans ?_
  refine (run_bind_of_ok (run_atBlockEnd _)).trans ?_
  rw [Tree.kind_withComments, behind, goesOn, if_pos ⟨terminal, Bool.false_ne_true⟩, ← behind]
  rfl

theorem decided_statements (ready : Ready n c) (room : 16 * c.rest.length + 1 ≤ n) :
    Decided R 0 known (List.flatMap Tree.terminals) statements c := by
  unfold statements
  refine bind_atBlockEnd (.ite (fun _ => decided_pure (by simp)) fun _ => bind_takeLeading ?_)
  have ready : Ready n c.afterLeading := ready.comments _
  have first :
      Decided R 0 known (terminalsOf .statement) (fun r => r _ .statement) c.afterLeading :=
    calls.decided ready.proper (by simp only [weight, rank, afterLeading]; omega) trivial
  cases first with
  | error run enough refuses =>
    exact .error (run_bind_of_error run) enough refuses.bind
  | @ok own t c₁ run enough yields trapped =>
    have shorter := (calls.derives ready.proper.ends run).shortens ready.proper.ends
    have roomy := ready.after (yields.proper ready.proper) shorter
    refine (yields.followed run ?_).forget t.terminals fun softly span member => ?_
    · rw [Nat.zero_sub]
      refine bind_skip .semicolon roomy.ready (by decide) ?_
      refine bind_takeTrailing (bind_attach (bind_kindOf (bind_atBlockEnd ?_)))
      refine .ite (fun _ => bind_fail (by decide)) fun _ => ?_
      have roomy : Roomy n (c₁.skip .semicolon).afterTrailing := (roomy.skip .semicolon).comments _
      refine calls.later roomy trivial fun more _ _ => decided_pure ?_
      grind [terminalsOf, Tree.terminals_withComments]
    · rw [Tree.terminals_eq] at member
      obtain root | inner := List.mem_append.mp member
      · by_cases terminal : t.kind.isTerminal = true
        · rw [if_pos terminal, List.mem_singleton] at root
          subst root
          refine .inr ⟨own, enough, ?_⟩
          refine yields.trapped_statement calls softly ready.proper run terminal ?_
          intro d semicolon u kind goesOn view
          exact ⟨_, fun r => run_afterTerminal terminal kind goesOn view⟩
        · simp [terminal] at root
      · obtain is | ⟨own, enough, traps⟩ := trapped softly span inner
        · exact .inl is
        · exact .inr ⟨own, enough, traps.bind⟩

theorem decided_block (ready : Ready n c) (room : 16 * c.rest.length + 2 ≤ n) :
    Decided R 0 known Tree.terminals block c := by
  unfold block
  refine bind_peek ?_
  have all : Decided R 0 known (terminalsOf .statements) (fun r => r _ .statements) c :=
    calls.decided ready.proper (by simp only [weight, rank]; omega) trivial
  refine all.bind fun own statements c₁ run yields => ?_
  simp only [spanOfBlock_eq, pure_bind]
  refine bind_takeLeading (decided_make ?_)
  rw [Tree.terminals_node]
  grind [terminalsOf, Kind.isTerminal, Kind.children]

end Statements

/-- Each production is decided if the rules that it calls are. -/
theorem decided_step_of_calls {α : Type} {R : Rules} {rule : Rule α} {known : List Span}
    {c : Cursor} (calls : Calls R (weight rule c)) (proper : c.Proper)
    (admits : Admits rule known) :
    Decided R 0 known (terminalsOf rule) (fun r => step r α rule) c := by
  have ready : Ready (weight rule c) c := ⟨proper, Nat.le_add_right _ _⟩
  cases rule with
  | block => exact decided_block calls ready (Nat.le_refl _)
  | statements => exact decided_statements calls ready (Nat.le_refl _)
  | statement => exact decided_statement calls ready
  | elseIfs => exact decided_elseIfs calls ready
  | moreTargets => exact decided_moreTargets calls ready
  | moreNames cause => exact decided_moreNames calls ready admits
  | dottedName head => exact decided_dottedName calls ready admits
  | expressions => exact decided_expressions calls ready (Nat.le_refl _)
  | moreExpressions => exact decided_moreExpressions calls ready
  | expression level => exact decided_ladder calls ready (Nat.le_refl _)
  | operators level left => exact decided_operators calls ready admits
  | suffixes head => exact decided_suffixes calls ready admits
  | fields => exact decided_fields calls ready (Nat.le_refl _)
  | parameters => exact decided_parameters calls ready

section Rules

variable {α : Type} {depth fewest : Nat} {rule : Rule α} {known : List Span}
  {found : α → List Span} {c : Cursor}

/-- A rule does what its production does one level deeper. -/
theorem Decided.of_step
    (decided : Decided (rules depth) fewest known found (fun r => step r α rule) c) :
    Decided (rules (depth + 1)) fewest known found (fun r => r α rule) c := by
  cases decided with
  | error run enough refuses =>
    exact .error run enough { refuses with always := fun d view => (refuses.always d view).of_step }
  | ok run enough yields trapped =>
    refine .ok run enough { yields with always := fun d view => (yields.always d view).of_step } ?_
    intro softly span member
    refine (trapped softly span member).imp_right fun ⟨own, enough, traps⟩ => ⟨own, enough, ?_⟩
    exact { traps with always := fun semicolon u d kind goesOn view =>
      (traps.always semicolon u d kind goesOn view).imp fun _ => .of_step }

/-- All rules are decided, at every depth above their weight. -/
theorem calls_rules (depth : Nat) : Calls (rules depth) depth := by
  refine ⟨?_, fun ends given => (reads_of_weight_lt ends (Nat.lt_succ_self _) given).1⟩
  induction depth with
  | zero => exact fun _ below _ => absurd below (Nat.not_lt_zero _)
  | succ depth ih =>
    intro α rule known c proper below admits
    have calls : Calls (rules depth) (weight rule c) := by
      refine ⟨fun proper' below' admits' => ih proper' (by omega) admits', fun ends given => ?_⟩
      exact (reads_of_weight_lt ends (Nat.lt_succ_self _) given).1
    exact (decided_step_of_calls calls proper admits).of_step

end Rules

/-- A whole program is decided by what was seen of it. -/
theorem decided_chunk {R : Rules} {n : Nat} {c : Cursor} (calls : Calls R n) (proper : c.Proper)
    (below : weight .block c < n) : Decided R 0 [] Tree.terminals chunk c := by
  unfold chunk
  refine bind_peek ?_
  refine (calls.decided proper below trivial).bind fun own t c₁ run yields => bind_peekKind ?_
  refine .ite (fun _ => bind_fail (by decide)) fun _ => bind_peek (decided_pure ?_)
  rw [Tree.terminals_node]
  grind [terminalsOf, Kind.isTerminal, Kind.children]

end Grammar

end LuaTree
