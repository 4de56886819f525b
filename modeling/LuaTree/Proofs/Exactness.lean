import LuaTree.Proofs.Production
import Mathlib.Tactic.Simproc.ExistsAndEq

/-!
# The productions read what their relations say

A reader gives a value when it runs without an error. Each production gives
exactly the values that its relation lists, from the same cursor and up to the
same one; `step_gives_iff` collects this for all rules.
-/

namespace LuaTree

namespace TokenReader

variable {α β : Type}

/-- The reader succeeds at `c` with `a` and stops at `c'`. -/
def Gives (x : TokenReader α) (c : Cursor) (a : α) (c' : Cursor) : Prop :=
  x.run c = .ok (a, c')

@[simp] theorem gives_pure {a b : α} {c c' : Cursor} :
    (pure a : TokenReader α).Gives c b c' ↔ b = a ∧ c' = c := by
  change Except.ok (a, c) = Except.ok (b, c') ↔ _
  simp [eq_comm]

@[simp low] theorem gives_bind {x : TokenReader α} {f : α → TokenReader β} {c c' : Cursor} {b : β} :
    (x >>= f).Gives c b c' ↔ ∃ a c₁, x.Gives c a c₁ ∧ (f a).Gives c₁ b c' := by
  simp only [Gives, StateT.run_bind]
  cases result : x.run c with
  | error e => simp [bind, Except.bind]
  | ok pair =>
    obtain ⟨a, c₁⟩ := pair
    constructor
    · intro rest
      exact ⟨a, c₁, rfl, rest⟩
    · rintro ⟨_, _, same, rest⟩
      obtain ⟨rfl, rfl⟩ := Prod.mk.inj (Except.ok.inj same)
      exact rest

@[simp] theorem gives_fail {cause : Cause} {a : α} {c c' : Cursor} :
    ¬ (fail cause : TokenReader α).Gives c a c' := by
  intro given
  exact absurd given (by simp [Gives, fail, bind, StateT.bind, StateT.run, get, getThe,
    MonadStateOf.get, StateT.get, pure, Except.pure, Except.bind, throw, throwThe,
    MonadExceptOf.throw, StateT.lift])

@[simp] theorem gives_get {a c c' : Cursor} :
    (get : TokenReader Cursor).Gives c a c' ↔ a = c ∧ c' = c := by
  change Except.ok (c, c) = Except.ok (a, c') ↔ _
  simp [eq_comm]

@[simp] theorem gives_set {a : PUnit} {c c' d : Cursor} :
    (set d : TokenReader PUnit).Gives c a c' ↔ c' = d := by
  change Except.ok (PUnit.unit, d) = Except.ok (a, c') ↔ _
  simp [eq_comm]

@[simp] theorem gives_modify {f : Cursor → Cursor} {a : PUnit} {c c' : Cursor} :
    (modify f : TokenReader PUnit).Gives c a c' ↔ c' = f c := by
  change Except.ok (PUnit.unit, f c) = Except.ok (a, c') ↔ _
  simp [eq_comm]

@[simp] theorem gives_ite {p : Prop} [Decidable p] {x y : TokenReader α} {a : α} {c c' : Cursor} :
    (if p then x else y).Gives c a c' ↔ (p ∧ x.Gives c a c') ∨ (¬ p ∧ y.Gives c a c') := by
  split <;> simp [*]

@[simp] theorem gives_map {f : α → β} {x : TokenReader α} {b : β} {c c' : Cursor} :
    (f <$> x).Gives c b c' ↔ ∃ a, x.Gives c a c' ∧ b = f a := by
  rw [map_eq_pure_bind, gives_bind]
  simp

@[simp] theorem gives_get_bind {f : Cursor → TokenReader β} {b : β} {c c' : Cursor} :
    (get >>= f).Gives c b c' ↔ (f c).Gives c b c' := Iff.rfl

@[simp] theorem gives_getThe_bind {f : Cursor → TokenReader β} {b : β} {c c' : Cursor} :
    (getThe Cursor >>= f).Gives c b c' ↔ (f c).Gives c b c' := Iff.rfl

@[simp] theorem gives_make {origin : Origin} {kind : Kind SourceTree} {t : SourceTree}
    {c c' : Cursor} : (make origin kind : TokenReader SourceTree).Gives c t c' ↔
      t = .node origin kind ∧ c' = c :=
  gives_pure

@[simp] theorem gives_make_bind {origin : Origin} {kind : Kind SourceTree}
    {f : SourceTree → TokenReader β} {b : β} {c c' : Cursor} :
    (make origin kind >>= f).Gives c b c' ↔ (f (.node origin kind)).Gives c b c' := Iff.rfl

@[simp] theorem gives_spanOf_bind {t : SourceTree} {f : Span → TokenReader β} {b : β}
    {c c' : Cursor} : (spanOf t >>= f).Gives c b c' ↔ (f t.span).Gives c b c' := Iff.rfl

@[simp] theorem gives_kindOf_bind {t : SourceTree} {f : Kind SourceTree → TokenReader β} {b : β}
    {c c' : Cursor} : (kindOf t >>= f).Gives c b c' ↔ (f t.kind).Gives c b c' := Iff.rfl

@[simp] theorem gives_attach_bind {t : SourceTree} {leading trailing : List Comment}
    {f : SourceTree → TokenReader β} {b : β} {c c' : Cursor} :
    (attach t leading trailing >>= f).Gives c b c' ↔
      (f (t.withComments leading trailing)).Gives c b c' := Iff.rfl

@[simp] theorem gives_peek {token : Token} {c c' : Cursor} :
    (peek : TokenReader Token).Gives c token c' ↔ token = c.current ∧ c' = c :=
  gives_pure

@[simp] theorem gives_peek_bind {f : Token → TokenReader β} {b : β} {c c' : Cursor} :
    (peek >>= f).Gives c b c' ↔ (f c.current).Gives c b c' := Iff.rfl

@[simp] theorem gives_peekKind_bind {f : TokenKind → TokenReader β} {b : β} {c c' : Cursor} :
    (peekKind >>= f).Gives c b c' ↔ (f c.current.kind).Gives c b c' := Iff.rfl

@[simp] theorem gives_followingKind_bind {f : TokenKind → TokenReader β} {b : β} {c c' : Cursor} :
    (followingKind >>= f).Gives c b c' ↔ (f c.following.kind).Gives c b c' := Iff.rfl

@[simp] theorem gives_next {token : Token} {c c' : Cursor} :
    (next : TokenReader Token).Gives c token c' ↔ token = c.current ∧ c' = c.advance := by
  simp [next, and_comm]

@[simp] theorem gives_next_bind {f : Token → TokenReader β} {b : β} {c c' : Cursor} :
    (next >>= f).Gives c b c' ↔ (f c.current).Gives c.advance b c' := Iff.rfl

@[simp] theorem gives_accept_bind {kind : TokenKind} {f : Bool → TokenReader β} {b : β}
    {c c' : Cursor} : (accept kind >>= f).Gives c b c' ↔
      (c.current.kind = kind ∧ (f true).Gives c.advance b c') ∨
        (c.current.kind ≠ kind ∧ (f false).Gives c b c') := by
  by_cases same : c.current.kind = kind <;> simp [accept, same]

/-- Where it does not matter whether the token was there. -/
theorem gives_accept_then {kind : TokenKind} {x : TokenReader β} {b : β} {c c' : Cursor} :
    (accept kind >>= fun _ => x).Gives c b c' ↔ x.Gives (c.skip kind) b c' := by
  by_cases same : c.current.kind = kind <;> simp [Cursor.skip, same]

@[simp] theorem gives_expect {kind : TokenKind} {cause : Cause} {token : Token} {c c' : Cursor} :
    (expect kind cause : TokenReader Token).Gives c token c' ↔
      c.current.kind = kind ∧ token = c.current ∧ c' = c.advance := by
  simp [expect]

@[simp] theorem gives_expect_bind {kind : TokenKind} {cause : Cause} {f : Token → TokenReader β}
    {b : β} {c c' : Cursor} : (expect kind cause >>= f).Gives c b c' ↔
      c.current.kind = kind ∧ (f c.current).Gives c.advance b c' := by
  simp [and_assoc]

@[simp] theorem gives_nodeFrom {start : Span} {kind : Kind SourceTree} {t : SourceTree}
    {c c' : Cursor} : (nodeFrom start kind : TokenReader SourceTree).Gives c t c' ↔
      t = c.close start kind ∧ c' = c :=
  gives_pure

@[simp] theorem gives_nodeFrom_bind {start : Span} {kind : Kind SourceTree}
    {f : SourceTree → TokenReader β} {b : β} {c c' : Cursor} :
    (nodeFrom start kind >>= f).Gives c b c' ↔ (f (c.close start kind)).Gives c b c' := Iff.rfl

@[simp] theorem gives_atBlockEnd_bind {f : Bool → TokenReader β} {b : β} {c c' : Cursor} :
    (atBlockEnd >>= f).Gives c b c' ↔ (f c.current.kind.endsBlock).Gives c b c' := by
  simp only [atBlockEnd, bind_assoc, gives_peekKind_bind]
  cases c.current.kind <;> rfl

@[simp] theorem gives_takeLeading_bind {f : List Comment → TokenReader β} {b : β} {c c' : Cursor} :
    (takeLeading >>= f).Gives c b c' ↔ (f c.leading).Gives c.afterLeading b c' := Iff.rfl

@[simp] theorem gives_takeTrailing_bind {f : List Comment → TokenReader β} {b : β}
    {c c' : Cursor} :
    (takeTrailing >>= f).Gives c b c' ↔ (f c.trailing).Gives c.afterTrailing b c' := Iff.rfl

end TokenReader

namespace Grammar

open TokenReader

variable {rules : Rules}

@[simp] theorem operation_eq (op : BinaryOp) (left right : SourceTree) :
    (operation op left right : TokenReader SourceTree) = pure (binary op left right) := rfl

theorem spanOfBlock_eq (place : Span) (statements : List SourceTree) :
    (spanOfBlock place statements : TokenReader Span) = pure (blockSpan place statements) := by
  unfold spanOfBlock blockSpan
  cases statements.head? <;> cases statements.getLast? <;> rfl

theorem checkAssignable_eq (targets : List SourceTree) :
    (checkAssignable targets : TokenReader Unit) =
      if targets.all (·.kind.isAssignable) then pure () else fail .assignTarget := by
  have known (target : SourceTree) :
      (kindOf target >>= fun kind => pure kind.isAssignable : TokenReader Bool) =
        pure target.kind.isAssignable := rfl
  simp only [checkAssignable, known, List.allM_pure, pure_bind]

/-- What some readers for the rules read. -/
def Reads (rules : Rules) : Reading :=
  fun _ rule c a c' => (rules _ rule).Gives c a c'

@[simp] theorem gives_rule {α : Type} {rule : Rule α} {c c' : Cursor} {a : α} :
    (rules α rule).Gives c a c' ↔ Reads rules α rule c a c' := Iff.rfl

@[simp] theorem gives_expression {c c' : Cursor} {t : SourceTree} :
    (expression rules).Gives c t c' ↔ Reads rules _ (.expression 1) c t c' := Iff.rfl

@[simp] theorem gives_name {cause : Cause} {c c' : Cursor} {t : SourceTree} :
    (name cause : TokenReader SourceTree).Gives c t c' ↔ Name c t c' := by
  rw [name, gives_expect_bind, gives_make]
  constructor
  · rintro ⟨kind, rfl, rfl⟩
    exact .intro kind
  · rintro ⟨kind⟩
    exact ⟨kind, rfl, rfl⟩

theorem gives_expressions {c c' : Cursor} {ts : List SourceTree} :
    (expressions rules).Gives c ts c' ↔ Expressions (Reads rules) c ts c' := by
  simp [expressions]
  constructor
  · rintro ⟨first, c₁, readFirst, more, readMore, rfl⟩
    exact .intro readFirst readMore
  · rintro ⟨readFirst, readMore⟩
    exact ⟨_, _, readFirst, _, readMore, rfl⟩

theorem gives_moreExpressions {c c' : Cursor} {ts : List SourceTree} :
    (moreExpressions rules).Gives c ts c' ↔ MoreExpressions (Reads rules) c ts c' := by
  simp [moreExpressions]
  constructor
  · rintro (⟨comma, readList⟩ | ⟨stop, rfl, rfl⟩)
    · exact .some comma readList
    · exact .none stop
  · rintro (stop | ⟨comma, readList⟩)
    · exact .inr ⟨stop, rfl, rfl⟩
    · exact .inl ⟨comma, readList⟩

@[simp] theorem gives_arguments {cause : Cause} {c c' : Cursor} {ts : List SourceTree} :
    (arguments rules cause).Gives c ts c' ↔ Enclosed (Reads rules) .expressions c ts c' := by
  simp [arguments, -existsAndEq]
  constructor
  · rintro (⟨close, ⟨-, rfl⟩, rfl⟩ | ⟨start, list, c₁, readList, ⟨close, rfl⟩, rfl⟩)
    · exact .none close
    · exact .some start readList close
  · rintro (close | ⟨start, readList, close⟩)
    · exact .inl ⟨close, ⟨close, rfl⟩, rfl⟩
    · exact .inr ⟨start, _, _, readList, ⟨close, rfl⟩, rfl⟩

theorem gives_parameters {c c' : Cursor} {ts : List SourceTree} :
    (parameters rules).Gives c ts c' ↔ Parameters (Reads rules) c ts c' := by
  simp [parameters, -existsAndEq]
  constructor
  · rintro (⟨kind, _, ⟨rfl, rfl⟩, rfl⟩ | ⟨-, param, c₁, readName, ⟨comma, params, readMore, rfl⟩ |
      ⟨stop, rfl, rfl⟩⟩)
    · exact .varArg kind
    · exact .more readName comma readMore
    · exact .last readName stop
  · rintro (kind | ⟨⟨kind⟩, stop⟩ | ⟨⟨kind⟩, comma, readMore⟩)
    · exact .inl ⟨kind, _, ⟨rfl, rfl⟩, rfl⟩
    · exact .inr ⟨by simp [kind], _, _, ⟨kind⟩, .inr ⟨stop, rfl, rfl⟩⟩
    · exact .inr ⟨by simp [kind], _, _, ⟨kind⟩, .inl ⟨comma, _, readMore, rfl⟩⟩

@[simp] theorem gives_functionBody {c c' : Cursor} {params : List SourceTree} {body : SourceTree} :
    (functionBody rules).Gives c (params, body) c' ↔
      FunctionBody (Reads rules) c params body c' := by
  simp [functionBody, -existsAndEq]
  constructor
  · rintro ⟨start, ⟨close, block, c₁, readBody, ⟨finish, rfl⟩, rfl, rfl⟩ |
      ⟨more, list, c₁, readList, close, block, c₂, readBody, ⟨finish, rfl⟩, rfl, rfl⟩⟩
    · exact .intro start (.none close) readBody finish
    · exact .intro start (.some more readList close) readBody finish
  · rintro ⟨start, close | ⟨more, readList, close⟩, readBody, finish⟩
    · exact ⟨start, .inl ⟨close, _, _, readBody, ⟨finish, rfl⟩, rfl, rfl⟩⟩
    · exact ⟨start, .inr ⟨more, _, _, readList, close, _, _, readBody, ⟨finish, rfl⟩, rfl, rfl⟩⟩

@[simp] theorem gives_field {c c' : Cursor} {t : SourceTree} :
    (field rules).Gives c t c' ↔ Field (Reads rules) c t c' := by
  simp [field]
  constructor
  · rintro (⟨start, key, c₁, readKey, close, assign, value, readValue, rfl⟩ |
      ⟨noKey, ⟨⟨-, assign⟩, key, c₁, readName, value, readValue, rfl⟩ |
        ⟨noName, value, readValue, rfl⟩⟩)
    · exact .bracketed start readKey close assign readValue
    · exact .named readName assign readValue
    · exact .positional noKey (fun both => noName both.1 both.2) readValue
  · rintro (⟨start, readKey, close, assign, readValue⟩ | ⟨⟨kind⟩, assign, readValue⟩ |
      ⟨noKey, noName, readValue⟩)
    · exact .inl ⟨start, _, _, readKey, close, assign, _, readValue, rfl⟩
    · exact .inr ⟨by simp [kind], .inl ⟨⟨kind, assign⟩, _, _, ⟨kind⟩, _, readValue, rfl⟩⟩
    · exact .inr ⟨noKey, .inr ⟨fun kind assign => noName ⟨kind, assign⟩, _, readValue, rfl⟩⟩

theorem gives_fields {c c' : Cursor} {ts : List SourceTree} :
    (fields rules).Gives c ts c' ↔ Fields (Reads rules) c ts c' := by
  simp only [fields, gives_peekKind_bind]
  constructor
  · intro given
    split at given
    · next stop => obtain ⟨rfl, rfl⟩ := gives_pure.mp given; exact .none (.inl stop)
    · next stop => obtain ⟨rfl, rfl⟩ := gives_pure.mp given; exact .none (.inr stop)
    · next noBrace noEnd =>
      obtain ⟨field, c₁, readField, given⟩ := gives_bind.mp given
      have start : ¬ (c.current.kind = .rBrace ∨ c.current.kind = .eof) := by simp_all
      rw [gives_field] at readField
      rw [gives_peekKind_bind] at given
      split at given
      · next comma =>
        simp at given
        obtain ⟨fields, readMore, rfl⟩ := given
        exact .more start readField (.inl comma) readMore
      · next semicolon =>
        simp at given
        obtain ⟨fields, readMore, rfl⟩ := given
        exact .more start readField (.inr semicolon) readMore
      · next noComma noSemicolon =>
        obtain ⟨rfl, rfl⟩ := gives_pure.mp given
        exact .last start readField (by simp_all)
  · rintro (stop | ⟨start, readField, stop⟩ | ⟨start, readField, divider, readMore⟩)
    · rcases stop with stop | stop <;> simp [stop]
    · rw [not_or] at start stop
      split
      · simp_all
      · simp_all
      · refine gives_bind.mpr ⟨_, _, gives_field.mpr readField, ?_⟩
        rw [gives_peekKind_bind]
        split <;> simp_all
    · rw [not_or] at start
      split
      · simp_all
      · simp_all
      · refine gives_bind.mpr ⟨_, _, gives_field.mpr readField, ?_⟩
        rw [gives_peekKind_bind]
        rcases divider with divider | divider <;> simp [divider, readMore]

@[simp] theorem gives_primary {c c' : Cursor} {t : SourceTree} :
    (primary rules).Gives c t c' ↔ Primary (Reads rules) c t c' := by
  simp only [primary, gives_peek_bind]
  constructor
  · intro given
    split at given
    · next literal token =>
      simp at given
      obtain ⟨rfl, rfl⟩ := given
      exact .literal token
    · split at given
      · exact .name (gives_name.mp given)
      · next kind =>
        simp at given
        obtain ⟨rfl, rfl⟩ := given
        exact .varArg kind
      · next start =>
        simp at given
        obtain ⟨fields, c₁, readFields, close, rfl, rfl⟩ := given
        exact .table start readFields close
      · next start =>
        simp at given
        obtain ⟨params, body, readBody, rfl⟩ := given
        exact .function start readBody
      · next start =>
        simp at given
        obtain ⟨inner, c₁, readInner, close, rfl, rfl⟩ := given
        exact .paren start readInner close
      · exact absurd given gives_fail
  · rintro (token | ⟨⟨kind⟩⟩ | kind | ⟨start, readFields, close⟩ | ⟨start, readBody⟩ |
      ⟨start, readInner, close⟩)
    · simp [token, Cursor.leaf]
    · simp [literal?, kind, Name.intro]
    · simp [literal?, kind, Cursor.leaf]
    · simp only [literal?, start, gives_next_bind]
      exact gives_bind.mpr ⟨_, _, readFields, by simp [close]⟩
    · simp only [literal?, start, gives_next_bind]
      exact gives_bind.mpr ⟨_, _, gives_functionBody.mpr readBody, by simp⟩
    · simp only [literal?, start, gives_next_bind]
      exact gives_bind.mpr ⟨_, _, readInner, by simp [close]⟩

theorem gives_suffixes {head : SourceTree} {c c' : Cursor} {t : SourceTree} :
    (suffixes rules head).Gives c t c' ↔ Suffixes (Reads rules) head c t c' := by
  simp only [suffixes, gives_getThe_bind, gives_spanOf_bind]
  constructor
  · intro given
    split at given
    · next start =>
      simp at given
      rcases given with ⟨lineBreak, rfl, rfl⟩ | ⟨sameLine, args, c₁, readArgs, readMore⟩
      · exact .done ⟨by simp [start], by simp [start], fun _ => lineBreak⟩
      · exact .call start sameLine readArgs readMore
    · next start =>
      simp at given
      rcases given with ⟨lineBreak, rfl, rfl⟩ | ⟨sameLine, key, c₁, readKey, close, readMore⟩
      · exact .done ⟨by simp [start], by simp [start], fun _ => lineBreak⟩
      · exact .index start sameLine readKey close readMore
    · next start =>
      simp at given
      obtain ⟨key, c₁, readName, readMore⟩ := given
      exact .dot start readName readMore
    · next start =>
      simp at given
      obtain ⟨name, c₁, readName, parens, args, c₂, readArgs, readMore⟩ := given
      exact .method start readName parens readArgs readMore
    · next noParen noBracket noDot noColon =>
      obtain ⟨rfl, rfl⟩ := gives_pure.mp given
      exact .done ⟨noDot, noColon, by rintro (same | same) <;> simp_all⟩
  · rintro (stop | ⟨start, sameLine, readArgs, readMore⟩ |
      ⟨start, sameLine, readKey, close, readMore⟩ | ⟨start, readName, readMore⟩ |
      ⟨start, readName, parens, readArgs, readMore⟩)
    · obtain ⟨noDot, noColon, lineBreak⟩ := stop
      split <;> simp_all
    · simpa [start, sameLine] using ⟨_, _, readArgs, readMore⟩
    · simpa [start, sameLine] using ⟨_, _, readKey, close, readMore⟩
    · simpa [start] using ⟨_, _, readName, readMore⟩
    · simpa [start] using ⟨_, _, readName, parens, _, _, readArgs, readMore⟩

@[simp] theorem gives_prefixExpression {c c' : Cursor} {t : SourceTree} :
    (prefixExpression rules).Gives c t c' ↔ PrefixExpression (Reads rules) c t c' := by
  simp [prefixExpression]
  constructor
  · rintro ⟨head, c₁, readHead, readMore⟩
    exact .intro readHead readMore
  · rintro ⟨readHead, readMore⟩
    exact ⟨_, _, readHead, readMore⟩

@[simp] theorem gives_power {c c' : Cursor} {t : SourceTree} :
    (power rules).Gives c t c' ↔ Power (Reads rules) c t c' := by
  simp only [power]
  constructor
  · intro given
    obtain ⟨base, c₁, readBase, given⟩ := gives_bind.mp given
    rw [gives_prefixExpression] at readBase
    rw [gives_peekKind_bind] at given
    split at given
    · next op sign =>
      obtain ⟨caret, rfl⟩ := operator?_power.mp sign
      simp at given
      obtain ⟨exponent, readExponent, rfl⟩ := given
      exact .pow readBase caret readExponent
    · next none =>
      obtain ⟨rfl, rfl⟩ := gives_pure.mp given
      exact .plain readBase fun caret => by simp [operator?_power.mpr ⟨caret, rfl⟩] at none
  · rintro (⟨readBase, stop⟩ | ⟨readBase, caret, readExponent⟩)
    · refine gives_bind.mpr ⟨_, _, gives_prefixExpression.mpr readBase, ?_⟩
      rw [gives_peekKind_bind]
      split
      · next op sign => exact absurd (operator?_power.mp sign).1 stop
      · simp
    · refine gives_bind.mpr ⟨_, _, gives_prefixExpression.mpr readBase, ?_⟩
      rw [gives_peekKind_bind, operator?_power.mpr ⟨caret, rfl⟩]
      simpa using ⟨_, readExponent, rfl⟩

@[simp] theorem gives_unary {c c' : Cursor} {t : SourceTree} :
    (unary rules).Gives c t c' ↔ Unary (Reads rules) c t c' := by
  simp only [unary, gives_peek_bind]
  constructor
  · intro given
    split at given
    · next op sign =>
      simp at given
      obtain ⟨operand, readOperand, rfl⟩ := given
      exact .op sign readOperand
    · next noSign => exact .power noSign (gives_power.mp given)
  · rintro (⟨sign, readOperand⟩ | ⟨noSign, readPower⟩)
    · simp only [sign, gives_next_bind]
      exact gives_bind.mpr ⟨_, _, readOperand, by simp⟩
    · simpa [noSign] using readPower

theorem gives_operators {level : Nat} {left : SourceTree} {c c' : Cursor} {t : SourceTree} :
    (operators rules level left).Gives c t c' ↔ Operators (Reads rules) level left c t c' := by
  simp only [operators, gives_peekKind_bind]
  constructor
  · intro given
    split at given
    · next none =>
      obtain ⟨rfl, rfl⟩ := gives_pure.mp given
      exact .done (operator?_eq_none.mp none)
    · next op sign =>
      obtain ⟨written, rfl⟩ := operator?_eq_some.mp sign
      simp only [gives_next_bind, grouping_levelAt] at given
      split at given
      · next group =>
        simp at given
        obtain ⟨right, c₁, readRight, readMore⟩ := given
        exact .left written rfl group readRight readMore
      · next group =>
        simp at given
        obtain ⟨right, readRight, rfl⟩ := given
        exact .right written rfl group readRight
      · next group =>
        simp at given
        obtain ⟨right, readRight, rfl⟩ := given
        exact .single written rfl group readRight
  · rintro (stop | ⟨sign, rfl, group, readRight, readMore⟩ | ⟨sign, rfl, group, readRight⟩ |
      ⟨sign, rfl, group, readRight⟩)
    · simp [operator?_eq_none.mpr stop]
    · simpa [operator?_eq_some.mpr ⟨sign, rfl⟩, group] using ⟨_, _, readRight, readMore⟩
    · simpa [operator?_eq_some.mpr ⟨sign, rfl⟩, group] using ⟨_, readRight, rfl⟩
    · simpa [operator?_eq_some.mpr ⟨sign, rfl⟩, group] using ⟨_, readRight, rfl⟩

theorem gives_ladder {level : Nat} {c c' : Cursor} {t : SourceTree} :
    (ladder rules level).Gives c t c' ↔ Ladder (Reads rules) level c t c' := by
  simp only [ladder, gives_ite, gives_unary]
  constructor
  · rintro (⟨low, given⟩ | ⟨high, readUnary⟩)
    · obtain ⟨left, c₁, readLeft, readMore⟩ := gives_bind.mp given
      exact .binary low readLeft readMore
    · exact .unary high readUnary
  · rintro (⟨low, readLeft, readMore⟩ | ⟨high, readUnary⟩)
    · exact .inl ⟨low, gives_bind.mpr ⟨_, _, readLeft, readMore⟩⟩
    · exact .inr ⟨high, readUnary⟩

theorem gives_moreNames {cause : Cause} {c c' : Cursor} {ts : List SourceTree} :
    (moreNames rules cause).Gives c ts c' ↔ MoreNames (Reads rules) cause c ts c' := by
  simp [moreNames]
  constructor
  · rintro (⟨comma, name, c₁, readName, names, readMore, rfl⟩ | ⟨stop, rfl, rfl⟩)
    · exact .some comma readName readMore
    · exact .none stop
  · rintro (stop | ⟨comma, readName, readMore⟩)
    · exact .inr ⟨stop, rfl, rfl⟩
    · exact .inl ⟨comma, _, _, readName, _, readMore, rfl⟩

theorem gives_moreTargets {c c' : Cursor} {ts : List SourceTree} :
    (moreTargets rules).Gives c ts c' ↔ MoreTargets (Reads rules) c ts c' := by
  simp [moreTargets]
  constructor
  · rintro (⟨comma, target, c₁, readTarget, targets, readMore, rfl⟩ | ⟨stop, rfl, rfl⟩)
    · exact .some comma readTarget readMore
    · exact .none stop
  · rintro (stop | ⟨comma, readTarget, readMore⟩)
    · exact .inr ⟨stop, rfl, rfl⟩
    · exact .inl ⟨comma, _, _, readTarget, _, readMore, rfl⟩

@[simp] theorem gives_localStatement {c c' : Cursor} {t : SourceTree} :
    (localStatement rules).Gives c t c' ↔ LocalStatement (Reads rules) c t c' := by
  simp [localStatement]
  constructor
  · rintro (⟨start, name, c₁, readName, params, body, readBody, rfl⟩ |
      ⟨-, name, c₁, readName, names, c₂, readMore,
        ⟨assign, values, readValues, rfl⟩ | ⟨stop, rfl, rfl⟩⟩)
    · exact .function start readName readBody
    · exact .values readName readMore assign readValues
    · exact .names readName readMore stop
  · rintro (⟨start, readName, readBody⟩ | ⟨⟨kind⟩, readMore, stop⟩ |
      ⟨⟨kind⟩, readMore, assign, readValues⟩)
    · exact .inl ⟨start, _, _, readName, _, _, readBody, rfl⟩
    · exact .inr ⟨by simp [kind], _, _, ⟨kind⟩, _, _, readMore, .inr ⟨stop, rfl, rfl⟩⟩
    · exact .inr ⟨by simp [kind], _, _, ⟨kind⟩, _, _, readMore, .inl ⟨assign, _, readValues, rfl⟩⟩

theorem gives_dottedName {head : SourceTree} {c c' : Cursor} {t : SourceTree} :
    (dottedName rules head).Gives c t c' ↔ DottedName (Reads rules) head c t c' := by
  simp only [dottedName, gives_spanOf_bind, gives_peekKind_bind]
  constructor
  · intro given
    split at given
    · next start =>
      simp at given
      obtain ⟨key, c₁, readName, readMore⟩ := given
      exact .dot start readName readMore
    · next start =>
      simp at given
      obtain ⟨name, readName, rfl⟩ := given
      exact .method start readName
    · next noDot noColon =>
      obtain ⟨rfl, rfl⟩ := gives_pure.mp given
      exact .done noDot noColon
  · rintro (⟨noDot, noColon⟩ | ⟨start, readName, readMore⟩ | ⟨start, readName⟩)
    · split <;> simp_all
    · simpa [start] using ⟨_, _, readName, readMore⟩
    · simpa [start] using ⟨_, readName, rfl⟩

@[simp] theorem gives_functionStatement {c c' : Cursor} {t : SourceTree} :
    (functionStatement rules).Gives c t c' ↔ FunctionStatement (Reads rules) c t c' := by
  simp [functionStatement]
  constructor
  · rintro ⟨first, c₁, readFirst, name, c₂, readName, params, body, readBody, rfl⟩
    exact .intro readFirst readName readBody
  · rintro ⟨readFirst, readName, readBody⟩
    exact ⟨_, _, readFirst, _, _, readName, _, _, readBody, rfl⟩

@[simp] theorem gives_returnStatement {c c' : Cursor} {t : SourceTree} :
    (returnStatement rules).Gives c t c' ↔ ReturnStatement (Reads rules) c t c' := by
  simp [returnStatement]
  constructor
  · rintro (⟨stop, rfl, rfl⟩ | ⟨⟨noSemicolon, noEnd⟩, values, readValues, rfl⟩)
    · exact .bare stop
    · exact .values (by simp [Cursor.endsReturn, noSemicolon, noEnd]) readValues
  · rintro (stop | ⟨start, readValues⟩)
    · exact .inl ⟨stop, rfl, rfl⟩
    · exact .inr ⟨by simpa [Cursor.endsReturn] using start, _, readValues, rfl⟩

@[simp] theorem gives_doStatement {c c' : Cursor} {t : SourceTree} :
    (doStatement rules).Gives c t c' ↔ DoStatement (Reads rules) c t c' := by
  simp [doStatement]
  constructor
  · rintro ⟨body, c₁, readBody, close, rfl, rfl⟩
    exact .intro readBody close
  · rintro ⟨readBody, close⟩
    exact ⟨_, _, readBody, close, rfl, rfl⟩

theorem gives_elseIfs {c c' : Cursor} {ts : List SourceTree} :
    (elseIfs rules).Gives c ts c' ↔ ElseIfs (Reads rules) c ts c' := by
  simp [elseIfs]
  constructor
  · rintro (⟨start, condition, c₁, readCondition, thenKw, body, c₂, readBody, clauses, readMore,
      rfl⟩ | ⟨stop, rfl, rfl⟩)
    · exact .some start readCondition thenKw readBody readMore
    · exact .none stop
  · rintro (stop | ⟨start, readCondition, thenKw, readBody, readMore⟩)
    · exact .inr ⟨stop, rfl, rfl⟩
    · exact .inl ⟨start, _, _, readCondition, thenKw, _, _, readBody, _, readMore, rfl⟩

@[simp] theorem gives_elseClause {c c' : Cursor} {t : Option SourceTree} :
    (elseClause? rules).Gives c t c' ↔ ElseClause (Reads rules) c t c' := by
  simp [elseClause?, -existsAndEq]
  constructor
  · rintro (⟨start, body, c₁, readBody, _, ⟨rfl, rfl⟩, rfl⟩ | ⟨stop, rfl, rfl⟩)
    · exact .some start readBody
    · exact .none stop
  · rintro (stop | ⟨start, readBody⟩)
    · exact .inr ⟨stop, rfl, rfl⟩
    · exact .inl ⟨start, _, _, readBody, _, ⟨rfl, rfl⟩, rfl⟩

@[simp] theorem gives_ifStatement {c c' : Cursor} {t : SourceTree} :
    (ifStatement rules).Gives c t c' ↔ IfStatement (Reads rules) c t c' := by
  simp [ifStatement]
  constructor
  · rintro ⟨condition, c₁, readCondition, thenKw, body, c₂, readBody, clauses, c₃, readClauses,
      branch, c₄, readBranch, close, rfl, rfl⟩
    exact .intro readCondition thenKw readBody readClauses readBranch close
  · rintro ⟨readCondition, thenKw, readBody, readClauses, readBranch, close⟩
    exact ⟨_, _, readCondition, thenKw, _, _, readBody, _, _, readClauses, _, _, readBranch, close,
      rfl, rfl⟩

@[simp] theorem gives_whileStatement {c c' : Cursor} {t : SourceTree} :
    (whileStatement rules).Gives c t c' ↔ WhileStatement (Reads rules) c t c' := by
  simp [whileStatement]
  constructor
  · rintro ⟨condition, c₁, readCondition, doKw, body, c₂, readBody, close, rfl, rfl⟩
    exact .intro readCondition doKw readBody close
  · rintro ⟨readCondition, doKw, readBody, close⟩
    exact ⟨_, _, readCondition, doKw, _, _, readBody, close, rfl, rfl⟩

@[simp] theorem gives_repeatStatement {c c' : Cursor} {t : SourceTree} :
    (repeatStatement rules).Gives c t c' ↔ RepeatStatement (Reads rules) c t c' := by
  simp [repeatStatement]
  constructor
  · rintro ⟨body, c₁, readBody, untilKw, condition, readCondition, rfl⟩
    exact .intro readBody untilKw readCondition
  · rintro ⟨readBody, untilKw, readCondition⟩
    exact ⟨_, _, readBody, untilKw, _, readCondition, rfl⟩

@[simp] theorem gives_forBody {c c' : Cursor} {t : SourceTree} :
    (forBody rules).Gives c t c' ↔ ForBody (Reads rules) c t c' := by
  simp [forBody, -existsAndEq]
  constructor
  · rintro ⟨doKw, body, c₁, readBody, ⟨close, rfl⟩, rfl⟩
    exact .intro doKw readBody close
  · rintro ⟨doKw, readBody, close⟩
    exact ⟨doKw, _, _, readBody, ⟨close, rfl⟩, rfl⟩

@[simp] theorem gives_forStatement {c c' : Cursor} {t : SourceTree} :
    (forStatement rules).Gives c t c' ↔ ForStatement (Reads rules) c t c' := by
  simp [forStatement]
  constructor
  · rintro ⟨name, c₁, readName, ⟨assign, start, c₂, readStart, comma, limit, c₃, readLimit,
      ⟨again, step, c₄, readStep, body, readBody, rfl⟩ | ⟨stop, body, readBody, rfl⟩⟩ |
      ⟨noAssign, names, c₂, readMore, inKw, iterators, c₃, readIterators, body, readBody, rfl⟩⟩
    · exact .numeric assign readName readStart comma readLimit (.some again readStep) readBody
    · exact .numeric assign readName readStart comma readLimit (.none stop) readBody
    · exact .generic noAssign readName readMore inKw readIterators readBody
  · rintro (⟨assign, readName, readStart, comma, readLimit, stop | ⟨again, readStep⟩, readBody⟩ |
      ⟨noAssign, readName, readMore, inKw, readIterators, readBody⟩)
    · exact ⟨_, _, readName, .inl ⟨assign, _, _, readStart, comma, _, _, readLimit,
        .inr ⟨stop, _, readBody, rfl⟩⟩⟩
    · exact ⟨_, _, readName, .inl ⟨assign, _, _, readStart, comma, _, _, readLimit,
        .inl ⟨again, _, _, readStep, _, readBody, rfl⟩⟩⟩
    · exact ⟨_, _, readName, .inr ⟨noAssign, _, _, readMore, inKw, _, _, readIterators, _, readBody,
        rfl⟩⟩

@[simp] theorem gives_checkAssignable {targets : List SourceTree} {c c' : Cursor} {a : Unit} :
    (checkAssignable targets : TokenReader Unit).Gives c a c' ↔
      (∀ target ∈ targets, target.kind.isAssignable = true) ∧ c' = c := by
  by_cases all : targets.all (·.kind.isAssignable)
  · simpa [checkAssignable_eq, all] using fun _ => List.all_eq_true.mp all
  · simp only [checkAssignable_eq, all, ↓reduceIte, Bool.false_eq_true]
    refine iff_of_false gives_fail ?_
    rintro ⟨assignable, -⟩
    exact all (List.all_eq_true.mpr assignable)

@[simp] theorem gives_expressionStatement {c c' : Cursor} {t : SourceTree} :
    (expressionStatement rules).Gives c t c' ↔ ExpressionStatement (Reads rules) c t c' := by
  simp only [expressionStatement, gives_peek_bind]
  constructor
  · intro given
    obtain ⟨first, c₁, readFirst, given⟩ := gives_bind.mp given
    obtain ⟨more, c₂, readMore, given⟩ := gives_bind.mp given
    rw [gives_prefixExpression] at readFirst
    rw [gives_peekKind_bind, gives_ite] at given
    rcases given with ⟨assign, given⟩ | ⟨noAssign, given⟩
    · simp [-existsAndEq] at given
      obtain ⟨c₃, ⟨assignable, rfl⟩, values, readValues, rfl⟩ := given
      exact .assignment readFirst readMore assign (by simpa using assignable) readValues
    · split at given
      · next op sign =>
        simp [-existsAndEq] at given
        obtain ⟨c₃, ⟨assignable, rfl⟩, value, readValue, rfl⟩ := given
        exact .compound readFirst readMore noAssign sign assignable readValue
      · next noSign =>
        simp at given
        obtain ⟨call, rfl, rfl⟩ := given
        exact .call readFirst readMore noAssign noSign call
      · exact absurd given gives_fail
  · rintro (⟨readFirst, readMore, assign, assignable, readValues⟩ |
      ⟨readTarget, readMore, noAssign, sign, assignable, readValue⟩ |
      ⟨readExpression, readMore, noAssign, noSign, call⟩)
    · refine gives_bind.mpr ⟨_, _, gives_prefixExpression.mpr readFirst, ?_⟩
      refine gives_bind.mpr ⟨_, _, readMore, ?_⟩
      simpa [assign, -existsAndEq] using ⟨_, ⟨by simpa using assignable, rfl⟩, _, readValues, rfl⟩
    · refine gives_bind.mpr ⟨_, _, gives_prefixExpression.mpr readTarget, ?_⟩
      refine gives_bind.mpr ⟨_, _, readMore, ?_⟩
      simpa [noAssign, sign, assignable] using ⟨_, readValue, rfl⟩
    · refine gives_bind.mpr ⟨_, _, gives_prefixExpression.mpr readExpression, ?_⟩
      refine gives_bind.mpr ⟨_, _, readMore, ?_⟩
      simp [noAssign, noSign, call]

theorem gives_statement {c c' : Cursor} {t : SourceTree} :
    (statement rules).Gives c t c' ↔ Statement (Reads rules) c t c' := by
  simp only [statement, gives_peekKind_bind]
  constructor
  · intro given
    split at given
    case h_1 start => exact .localStatement start (gives_localStatement.mp given)
    case h_2 start => exact .function start (gives_functionStatement.mp given)
    case h_3 start => exact .returning start (gives_returnStatement.mp given)
    case h_4 start =>
      simp only [gives_next_bind, gives_make] at given
      obtain ⟨rfl, rfl⟩ := given
      exact .breaking start
    case h_5 start =>
      simp only [gives_next_bind, gives_make] at given
      obtain ⟨rfl, rfl⟩ := given
      exact .continuing start
    case h_6 start => exact .doBlock start (gives_doStatement.mp given)
    case h_7 start => exact .ifChain start (gives_ifStatement.mp given)
    case h_8 start => exact .whileLoop start (gives_whileStatement.mp given)
    case h_9 start => exact .repeatLoop start (gives_repeatStatement.mp given)
    case h_10 start => exact .forLoop start (gives_forStatement.mp given)
    case h_11 =>
      refine .expression ?_ (gives_expressionStatement.mp given)
      simp_all [statementWords]
  · rintro (⟨start, read⟩ | ⟨start, read⟩ | ⟨start, read⟩ | start | start | ⟨start, read⟩ |
      ⟨start, read⟩ | ⟨start, read⟩ | ⟨start, read⟩ | ⟨start, read⟩ | ⟨start, read⟩)
    case expression =>
      have given := gives_expressionStatement.mpr read
      split <;> simp_all [statementWords]
    all_goals simp_all [Cursor.leaf]

theorem gives_statements {c c' : Cursor} {ts : List SourceTree} :
    (statements rules).Gives c ts c' ↔ Statements (Reads rules) c ts c' := by
  simp only [statements, gives_atBlockEnd_bind, gives_ite, gives_pure, gives_takeLeading_bind]
  constructor
  · rintro (⟨stop, rfl, rfl⟩ | ⟨start, given⟩)
    · exact .none stop
    · obtain ⟨statement, c₁, readStatement, given⟩ := gives_bind.mp given
      rw [gives_accept_then, gives_takeTrailing_bind, gives_attach_bind, gives_kindOf_bind,
        gives_atBlockEnd_bind] at given
      simp at given
      obtain ⟨terminal, statements, readMore, rfl⟩ := given
      exact .some (by simpa using start) readStatement terminal readMore
  · rintro (stop | ⟨start, readStatement, terminal, readMore⟩)
    · exact .inl ⟨stop, rfl, rfl⟩
    · refine .inr ⟨by simp [start], gives_bind.mpr ⟨_, _, readStatement, ?_⟩⟩
      rw [gives_accept_then, gives_takeTrailing_bind, gives_attach_bind, gives_kindOf_bind,
        gives_atBlockEnd_bind]
      simpa using ⟨terminal, readMore⟩

theorem gives_block {c c' : Cursor} {t : SourceTree} :
    (block rules).Gives c t c' ↔ Block (Reads rules) c t c' := by
  simp only [block, gives_peek_bind]
  constructor
  · intro given
    obtain ⟨statements, c₁, readAll, given⟩ := gives_bind.mp given
    rw [spanOfBlock_eq, pure_bind, gives_takeLeading_bind, gives_make] at given
    obtain ⟨rfl, rfl⟩ := given
    exact .intro readAll
  · rintro ⟨readAll⟩
    refine gives_bind.mpr ⟨_, _, readAll, ?_⟩
    rw [spanOfBlock_eq, pure_bind, gives_takeLeading_bind, gives_make]
    exact ⟨rfl, rfl⟩

theorem gives_chunk {c c' : Cursor} {t : SourceTree} :
    (chunk rules).Gives c t c' ↔ Chunk (Reads rules) c t c' := by
  simp only [chunk, gives_peek_bind]
  constructor
  · intro given
    obtain ⟨body, c₁, readBody, given⟩ := gives_bind.mp given
    simp [-existsAndEq] at given
    obtain ⟨stop, rfl, rfl⟩ := given
    exact .intro readBody stop
  · rintro ⟨readBody, stop⟩
    exact gives_bind.mpr ⟨_, _, readBody, by simp [stop]⟩

/-- One application of the productions reads exactly what `Step` lists. -/
theorem step_gives_iff {α : Type} {rule : Rule α} {c c' : Cursor} {a : α} :
    Reads (step rules) α rule c a c' ↔ Step (Reads rules) α rule c a c' := by
  cases rule with
  | block => exact gives_block
  | statements => exact gives_statements
  | statement => exact gives_statement
  | elseIfs => exact gives_elseIfs
  | moreTargets => exact gives_moreTargets
  | moreNames cause => exact gives_moreNames
  | dottedName head => exact gives_dottedName
  | expressions => exact gives_expressions
  | moreExpressions => exact gives_moreExpressions
  | expression level => exact gives_ladder
  | operators level left => exact gives_operators
  | suffixes head => exact gives_suffixes
  | fields => exact gives_fields
  | parameters => exact gives_parameters

end Grammar

end LuaTree
