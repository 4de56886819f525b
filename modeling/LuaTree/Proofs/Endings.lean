import LuaTree.Proofs.Totality

/-!
# Statements end before a semicolon

A semicolon goes on with no expression. What was read as an expression up to some
token is therefore read as the same expression if a semicolon stands in place of
that token, and so is a statement behind which its block must end
(`endsSoftly`).

Productions are followed part by part. A part may need to see the token behind it
as it was, or may put up with a semicolon there, or may not look at all
(`Ending`).
-/

namespace LuaTree

/-- What a part of a production needs to know of the tokens behind it. -/
inductive Ending where
  /-- The token in front then. -/
  | same
  /-- That, or a semicolon. -/
  | soft
  /-- Nothing. -/
  | closed

/-- Whether the tokens can stand behind what was read up to the cursor. -/
def Ending.Fits : Ending → Cursor → List Token → Prop
  | same, c, seen => [c.current] <+: seen
  | soft, c, seen => [c.current] <+: seen ∨ ∃ t ∈ seen.head?, t.kind = .semicolon
  | closed, _, seen => seen ≠ []

namespace Cursor

/-- The steps over a token, beside the step from `c`. -/
structure Steps (c d d' : Cursor) : Prop where
  front : d.current = c.current
  last : d.last = c.last
  next : d' = d.advance

/-- The relation holds of all places that look like those from `c` to `c'`. -/
def Carried (e : Ending) (P : Cursor → Cursor → Prop) (c c' : Cursor) : Prop :=
  ∃ own, Consumes c own c' ∧ ∀ seen d, e.Fits c' seen → c.Shows (own ++ seen) d →
    P d (d.behind own c')

section Carried

variable {c c₁ c₂ c' d : Cursor} {e e' : Ending} {P Q : Cursor → Cursor → Prop}
  {own seen : List Token}

theorem Proper.consumes (proper : c.Proper) (consumes : Consumes c own c') : c'.Proper :=
  proper.of_suffix (consumes.rest ▸ List.suffix_append _ _) consumes.stop

theorem Carried.proper (carried : Carried e P c c') (proper : c.Proper) : c'.Proper := by
  obtain ⟨own, consumes, -⟩ := carried
  exact proper.consumes consumes

theorem ne_nil_of_fits (fits : e.Fits c seen) : seen ≠ [] := by
  cases e with
  | same =>
    rintro rfl
    exact absurd fits (by simp [Ending.Fits])
  | soft =>
    rintro rfl
    exact absurd fits (by simp [Ending.Fits])
  | closed => exact fits

/-- What follows behind some tokens follows from the first of them on. -/
theorem front_append (consumes : Consumes c own c') (front : [c'.current] <+: seen) :
    [c.current] <+: own ++ seen :=
  (front_prefix_of_consumes consumes).trans ((List.prefix_append_right_inj own).mpr front)

theorem front_of_ne_nil (consumes : Consumes c own c') (some : own ≠ []) :
    [c.current] <+: own ++ seen := by
  obtain ⟨first, others, rfl⟩ := List.exists_cons_of_ne_nil some
  obtain rfl : c.current = first := by rw [current, consumes.rest]; rfl
  exact ⟨others ++ seen, rfl⟩

theorem Carried.weaken (e' : Ending) (carried : Carried e P c c')
    (weaker : ∀ seen, e'.Fits c' seen → e.Fits c' seen) : Carried e' P c c' := by
  obtain ⟨own, consumes, holds⟩ := carried
  exact ⟨own, consumes, fun seen d fits view => holds seen d (weaker seen fits) view⟩

theorem Carried.imp (carried : Carried e P c c')
    (implies : ∀ d d', d'.last = c'.last → P d d' → Q d d') : Carried e Q c c' := by
  obtain ⟨own, consumes, holds⟩ := carried
  exact ⟨own, consumes, fun seen d fits view => implies _ _ rfl (holds seen d fits view)⟩

/-- The token in front is the same if anything is read. -/
theorem Carried.front (carried : Carried e P c c') (some : Shortens 1 c c') :
    Carried e (fun d d' => d.current = c.current ∧ P d d') c c' := by
  obtain ⟨own, consumes, holds⟩ := carried
  refine ⟨own, consumes, fun seen d fits view => ⟨?_, holds seen d fits view⟩⟩
  exact view.current_eq (front_of_ne_nil consumes (consumes.ne_nil some))

/-- One part behind another. -/
theorem Carried.seq (first : Carried e P c c₁) (second : Carried e' Q c₁ c₂)
    (between : ∀ own seen, Consumes c₁ own c₂ → e'.Fits c₂ seen → e.Fits c₁ (own ++ seen)) :
    Carried e' (fun d d' => ∃ d₁, P d d₁ ∧ Q d₁ d') c c₂ := by
  obtain ⟨own, consumes, holds⟩ := first
  obtain ⟨own', consumes', holds'⟩ := second
  refine ⟨own ++ own', consumes.append consumes', fun seen d fits view => ?_⟩
  rw [List.append_assoc] at view
  have fits' := between own' seen consumes' fits
  refine ⟨_, holds _ d fits' view, ?_⟩
  rw [← behind_behind d own own' c₁]
  refine holds' seen _ fits ?_
  obtain ⟨t, more, whole⟩ := List.exists_cons_of_ne_nil (ne_nil_of_fits fits')
  rw [whole] at view ⊢
  exact view.behind c₁

theorem Carried.thenAny (first : Carried .closed P c c₁) (second : Carried e Q c₁ c₂) :
    Carried e (fun d d' => ∃ d₁, P d d₁ ∧ Q d₁ d') c c₂ :=
  first.seq second fun _ _ _ fits => List.append_ne_nil_of_right_ne_nil _ (ne_nil_of_fits fits)

theorem Carried.thenSoft (first : Carried .soft P c c₁) (second : Carried .soft Q c₁ c₂) :
    Carried .soft (fun d d' => ∃ d₁, P d d₁ ∧ Q d₁ d') c c₂ := by
  refine first.seq second fun own seen consumes fits => ?_
  obtain front | semicolon := fits
  · exact .inl (front_append consumes front)
  · by_cases none : own = []
    · subst none
      exact .inr semicolon
    · exact .inl (front_of_ne_nil consumes none)

theorem carried_token (proper : c.Proper) (more : c.current.kind ≠ .eof) :
    Carried .closed (Steps c) c c.advance := by
  refine ⟨[c.current], consumes_advance proper.ends more, fun seen d fits view => ?_⟩
  exact ⟨view.current, view.last, (view.advance_eq proper.ends more).symm⟩

/-- A part that looks at the token behind it, and that token. -/
theorem Carried.thenToken (first : Carried .same P c c₁) (proper : c.Proper)
    (more : c₁.current.kind ≠ .eof) :
    Carried .closed (fun d d' => ∃ d₁, P d d₁ ∧ Steps c₁ d₁ d') c c₁.advance := by
  have proper₁ := first.proper proper
  refine first.seq (carried_token proper₁ more) fun own seen consumes _ => ?_
  exact front_of_ne_nil consumes (consumes.ne_nil (shortens_advance proper₁.ends more))

end Carried

end Cursor

namespace Grammar

open Cursor

variable {c c' : Cursor} {t : SourceTree} {ts : List SourceTree}

/-- What a rule reads is read again where the token behind it is the same. -/
theorem Derives.carried {α : Type} {rule : Rule α} {known : List Span} {a : α}
    (read : Derives α rule c a c') (proper : c.Proper) (admits : Admits rule known) :
    Carried .same (fun d d' => Derives α rule d a d') c c' := by
  have run : (rules (weight rule c + 1) α rule : TokenReader α).run c = .ok (a, c') := read
  cases (calls_rules (weight rule c + 1)).decided proper (Nat.lt_succ_self _) admits with
  | error run' _ _ => cases run'.symm.trans run
  | @ok own a' c'' run' _ yields _ =>
    obtain ⟨rfl, rfl⟩ := Prod.mk.inj (Except.ok.inj (run'.symm.trans run))
    refine ⟨own, yields.consumes, fun seen d front view => ?_⟩
    have shown := view.of_isPrefix ((List.prefix_append_right_inj own).mpr front)
    exact (yields.always d shown).derives view.proper.ends

/-- Rules read what their productions read. -/
theorem carried_derives {α : Type} {rule : Rule α} {a : α} {e : Ending}
    (carried : Carried e (fun d d' => Step Derives α rule d a d') c c') :
    Carried e (fun d d' => Derives α rule d a d') c c' := by
  obtain ⟨own, consumes, holds⟩ := carried
  refine ⟨own, consumes, fun seen d fits view => ?_⟩
  exact (derives_iff view.proper.ends).mpr (holds seen d fits view)

section Closed

variable {R : Reading}
  (derives : ∀ {α : Type} {rule : Rule α} {c c' : Cursor} {a : α}, R α rule c a c' →
    Derives α rule c a c')

theorem Name.carried (read : Name c t c') (proper : c.Proper) :
    Carried .closed (fun d d' => Name d t d') c c' := by
  obtain ⟨kind⟩ := read
  refine (carried_token proper (by simp [kind])).imp fun d d' _ step => ?_
  obtain ⟨front, -, rfl⟩ := step
  rw [← front] at kind
  rw [leaf, ← front]
  exact .intro kind

include derives

theorem Enclosed.carried {rule : Rule (List SourceTree)} (read : Enclosed R rule c ts c')
    (proper : c.Proper) (admits : Admits rule []) (some : least rule = 1) :
    Carried .closed (fun d d' => Enclosed Derives rule d ts d') c c' := by
  rcases read with close | ⟨start, readList, close⟩
  · refine (carried_token proper (by simp [close])).imp fun d d' _ step => ?_
    obtain ⟨front, -, rfl⟩ := step
    exact .none (front ▸ close)
  · have readList := derives readList
    have list := (readList.carried proper admits).front (some ▸ readList.shortens proper.ends)
    refine (list.thenToken proper (by simp [close])).imp fun d d' _ steps => ?_
    obtain ⟨d₁, ⟨front, readList⟩, front₁, -, rfl⟩ := steps
    exact .some (front ▸ start) readList (front₁ ▸ close)

theorem FunctionBody.carried {body : SourceTree} (read : FunctionBody R c ts body c')
    (proper : c.Proper) :
    Carried .closed (fun d d' => FunctionBody Derives d ts body d') c c' := by
  obtain ⟨start, readParams, readBody, close⟩ := read
  have opened := carried_token proper (by simp [start])
  have params := opened.thenAny (readParams.carried derives (opened.proper proper) trivial rfl)
  have proper₁ := params.proper proper
  have admits : Admits .block [] := trivial
  have body := ((derives readBody).carried proper₁ admits).thenToken proper₁ (by simp [close])
  refine (params.thenAny body).imp fun d d' _ steps => ?_
  obtain ⟨d₂, ⟨d₁, ⟨front, -, rfl⟩, readParams⟩, d₃, readBody, front₃, -, rfl⟩ := steps
  exact .intro (front ▸ start) readParams readBody (front₃ ▸ close)

/-- A rule between two tokens. -/
theorem carried_between {α : Type} {rule : Rule α} {a : α} {c₁ : Cursor} (proper : c.Proper)
    (start : c.current.kind ≠ .eof) (read : R α rule c.advance a c₁)
    (admits : Admits rule []) (close : c₁.current.kind ≠ .eof) :
    Carried .closed (fun d d' => ∃ d₁, Steps c d d.advance ∧ Derives α rule d.advance a d₁ ∧
      Steps c₁ d₁ d') c c₁.advance := by
  have opened := carried_token proper start
  have proper₁ := opened.proper proper
  have inner := ((derives read).carried proper₁ admits).thenToken proper₁ close
  refine (opened.thenAny inner).imp fun d d' _ steps => ?_
  obtain ⟨_, ⟨front, last, rfl⟩, d₁, read, step⟩ := steps
  exact ⟨d₁, ⟨front, last, rfl⟩, read, step⟩

theorem Primary.carried (read : Primary R c t c') (proper : c.Proper) :
    Carried .closed (fun d d' => Primary Derives d t d') c c' := by
  cases read with
  | @literal literal token =>
    refine (carried_token proper (literal?_ne_eof token)).imp fun d d' _ step => ?_
    obtain ⟨front, -, rfl⟩ := step
    rw [← front] at token
    rw [leaf, ← front]
    exact .literal token
  | name readName => exact (readName.carried proper).imp fun d d' _ read => .name read
  | varArg kind =>
    refine (carried_token proper (by simp [kind])).imp fun d d' _ step => ?_
    obtain ⟨front, -, rfl⟩ := step
    rw [← front] at kind
    rw [leaf, ← front]
    exact .varArg kind
  | table start readFields close =>
    have between :=
      carried_between derives proper (by simp [start]) readFields trivial (by simp [close])
    refine between.imp ?_
    rintro d _ last ⟨d₁, ⟨front, -, -⟩, readFields, front₁, -, rfl⟩
    rw [Cursor.close, ← last, ← front]
    exact .table (front ▸ start) readFields (front₁ ▸ close)
  | function start readBody =>
    have opened := carried_token proper (by simp [start])
    refine (opened.thenAny (readBody.carried derives (opened.proper proper))).imp ?_
    rintro d d' last ⟨_, ⟨front, -, rfl⟩, readBody⟩
    rw [Cursor.close, ← last, ← front]
    exact .function (front ▸ start) readBody
  | paren start readInner close =>
    have between :=
      carried_between derives proper (by simp [start]) readInner trivial (by simp [close])
    refine between.imp ?_
    rintro d _ last ⟨d₁, ⟨front, -, -⟩, readInner, front₁, -, rfl⟩
    rw [Cursor.close, ← last, ← front]
    exact .paren (front ▸ start) readInner (front₁ ▸ close)

theorem Suffix.carried {head : SourceTree} (read : Suffix R head c t c') (proper : c.Proper) :
    Carried .closed (fun d d' => Suffix Derives head d t d') c c' := by
  have line {d : Cursor} (step : Steps c d d.advance) : d.breaksLine = c.breaksLine := by
    rw [breaksLine, breaksLine, step.front, step.last]
  cases read with
  | call start sameLine readArgs =>
    have opened := carried_token proper (by simp [start])
    refine (opened.thenAny (readArgs.carried derives (opened.proper proper) trivial rfl)).imp ?_
    rintro d d' last ⟨_, step, readArgs⟩
    obtain rfl := step.next
    rw [Cursor.close, ← last]
    exact .call (step.front ▸ start) ((line step).trans sameLine) readArgs
  | index start sameLine readKey close =>
    have between :=
      carried_between derives proper (by simp [start]) readKey trivial (by simp [close])
    refine between.imp ?_
    rintro d _ last ⟨d₁, step, readKey, front₁, -, rfl⟩
    rw [Cursor.close, ← last]
    exact .index (step.front ▸ start) ((line step).trans sameLine) readKey (front₁ ▸ close)
  | dot start readName =>
    have opened := carried_token proper (by simp [start])
    refine (opened.thenAny (readName.carried (opened.proper proper))).imp ?_
    rintro d d' last ⟨_, ⟨front, -, rfl⟩, readName⟩
    rw [Cursor.close, ← last]
    exact .dot (front ▸ start) readName
  | method start readName parens readArgs =>
    have opened := carried_token proper (by simp [start])
    have named := opened.thenAny (readName.carried (opened.proper proper))
    have parens' := carried_token (named.proper proper) (by simp [parens])
    have called := named.thenAny parens'
    refine (called.thenAny (readArgs.carried derives (called.proper proper) trivial rfl)).imp ?_
    rintro d d' last ⟨_, ⟨d₁, ⟨_, ⟨front, -, rfl⟩, readName⟩, front₁, -, rfl⟩, readArgs⟩
    rw [Cursor.close, ← last]
    exact .method (front ▸ start) readName (front₁ ▸ parens) readArgs

end Closed

/-- The rules of expressions put up with a semicolon behind what they read. -/
def Softens : Reading
  | _, .expressions, c, a, c' =>
    c.Proper → Carried .soft (fun d d' => Derives _ .expressions d a d') c c'
  | _, .moreExpressions, c, a, c' =>
    c.Proper → Carried .soft (fun d d' => Derives _ .moreExpressions d a d') c c'
  | _, .expression level, c, a, c' =>
    c.Proper → Carried .soft (fun d d' => Derives _ (.expression level) d a d') c c'
  | _, .operators level left, c, a, c' =>
    c.Proper → Carried .soft (fun d d' => Derives _ (.operators level left) d a d') c c'
  | _, .suffixes head, c, a, c' =>
    c.Proper → Carried .soft (fun d d' => Derives _ (.suffixes head) d a d') c c'
  | _, _, _, _, _ => True

/-- What the rules read, with how it ends. -/
def Softened : Reading := fun α rule c a c' => Derives α rule c a c' ∧ Softens α rule c a c'

theorem Softened.derives {α : Type} {rule : Rule α} {a : α} (read : Softened α rule c a c') :
    Derives α rule c a c' :=
  read.1

/-- Nothing is read before a token that stops it, and a semicolon does. -/
theorem carried_refl {P : Cursor → Cursor → Prop}
    (here : ∀ d, d.current = c.current → d.last = c.last → P d d)
    (semicolon : ∀ d, d.current.kind = .semicolon → P d d) : Carried .soft P c c := by
  refine ⟨[], ⟨rfl, rfl, rfl⟩, fun seen d fits view => ?_⟩
  rw [List.nil_append] at view
  have same : d.behind [] c = d := by rw [behind_nil, ← view.last, ← view.comments]
  rw [same]
  obtain front | ⟨t, first, kind⟩ := fits
  · exact here d (view.current_eq front) view.last
  · obtain ⟨others, rfl⟩ := List.head?_eq_some_iff.mp first
    exact semicolon d (view.current ▸ kind)

/-- What is read before a token of another kind is read before a semicolon, which is of another kind
too. -/
theorem carried_stop {kind : TokenKind} (stop : c.current.kind ≠ kind)
    (other : kind ≠ .semicolon) :
    Carried .soft (fun d d' => d' = d ∧ d.current.kind ≠ kind) c c :=
  carried_refl (fun _ front _ => ⟨rfl, front ▸ stop⟩)
    fun _ semicolon => ⟨rfl, semicolon ▸ other.symm⟩

theorem Expressions.softens (proper : c.Proper) (read : Expressions Softened c ts c') :
    Carried .soft (fun d d' => Expressions Derives d ts d') c c' := by
  obtain ⟨readFirst, readMore⟩ := read
  have first := readFirst.2 proper
  refine (first.thenSoft (readMore.2 (first.proper proper))).imp ?_
  rintro d d' - ⟨d₁, readFirst, readMore⟩
  exact .intro readFirst readMore

theorem MoreExpressions.softens (proper : c.Proper) (read : MoreExpressions Softened c ts c') :
    Carried .soft (fun d d' => MoreExpressions Derives d ts d') c c' := by
  rcases read with stop | ⟨comma, readList⟩
  · refine (carried_stop stop (by decide)).imp ?_
    rintro d _ - ⟨rfl, stop⟩
    exact .none stop
  · have divided := carried_token proper (by simp [comma])
    refine (divided.thenAny (readList.2 (divided.proper proper))).imp ?_
    rintro d d' - ⟨_, ⟨front, -, rfl⟩, readList⟩
    exact .some (front ▸ comma) readList

theorem Suffixes.softens {head : SourceTree} (proper : c.Proper)
    (read : Suffixes Softened head c t c') :
    Carried .soft (fun d d' => Suffixes Derives head d t d') c c' := by
  obtain ⟨stop, rfl, rfl⟩ | ⟨next, c₁, suffix, readMore⟩ := read.split
  · refine carried_refl (fun d front last => .done ?_) fun d kind => .done ?_
    · refine ⟨front ▸ stop.noDot, front ▸ stop.noColon, fun opener => ?_⟩
      rw [breaksLine, front, last]
      exact stop.lineBreak (front ▸ opener)
    · constructor <;> simp [kind]
  · have first := suffix.carried Softened.derives proper
    refine (first.thenAny (readMore.2 (first.proper proper))).imp ?_
    rintro d d' - ⟨d₁, suffix, readMore⟩
    exact suffix.followed readMore

theorem PrefixExpression.softens (proper : c.Proper) (read : PrefixExpression Softened c t c') :
    Carried .soft (fun d d' => PrefixExpression Derives d t d') c c' := by
  obtain ⟨readHead, readMore⟩ := read
  have head := readHead.carried Softened.derives proper
  refine (head.thenAny (readMore.2 (head.proper proper))).imp ?_
  rintro d d' - ⟨d₁, readHead, readMore⟩
  exact .intro readHead readMore

theorem Unary.softens (proper : c.Proper) (read : Unary Softened c t c') :
    Carried .soft (fun d d' => Unary Derives d t d') c c' := by
  rcases read with ⟨sign, readOperand⟩ |
    ⟨noSign, ⟨readBase, stop⟩ | ⟨readBase, caret, readExponent⟩⟩
  · have opened := carried_token proper (TokenKind.ne_eof_of_unaryOp? sign)
    refine (opened.thenAny (readOperand.2 (opened.proper proper))).imp ?_
    rintro d d' - ⟨_, ⟨front, -, rfl⟩, readOperand⟩
    rw [← front] at sign ⊢
    exact .op sign readOperand
  · have base := readBase.softens proper
    refine (base.thenSoft (carried_stop stop (by decide))).imp ?_
    rintro d _ - ⟨d₁, readBase, rfl, stop⟩
    exact .power (TokenKind.unaryOp?_of_startsPrimary readBase.starts) (.plain readBase stop)
  · have base := (readBase.softens proper).weaken .same fun _ front => .inl front
    have raised := base.thenToken proper (by simp [caret])
    refine (raised.thenAny (readExponent.2 (raised.proper proper))).imp ?_
    rintro d d' - ⟨_, ⟨d₁, readBase, front, -, rfl⟩, readExponent⟩
    refine .power (TokenKind.unaryOp?_of_startsPrimary readBase.starts) ?_
    exact .pow readBase (front ▸ caret) readExponent

theorem Operators.softens {level : Nat} {left : SourceTree} (proper : c.Proper)
    (read : Operators Softened level left c t c') :
    Carried .soft (fun d d' => Operators Derives level left d t d') c c' := by
  cases read with
  | done stop =>
    refine carried_refl (fun d front _ => .done (front ▸ stop)) fun d kind => .done ?_
    rw [kind]
    exact nofun
  | left sign precedence group readRight readMore =>
    have opened := carried_token proper (TokenKind.ne_eof_of_binaryOp? sign)
    have right := opened.thenAny (readRight.2 (opened.proper proper))
    refine (right.thenSoft (readMore.2 (right.proper proper))).imp ?_
    rintro d d' - ⟨d₁, ⟨_, ⟨front, -, rfl⟩, readRight⟩, readMore⟩
    exact .left (front ▸ sign) precedence group readRight readMore
  | right sign precedence group readRight =>
    have opened := carried_token proper (TokenKind.ne_eof_of_binaryOp? sign)
    refine (opened.thenAny (readRight.2 (opened.proper proper))).imp ?_
    rintro d d' - ⟨_, ⟨front, -, rfl⟩, readRight⟩
    exact .right (front ▸ sign) precedence group readRight
  | single sign precedence group readRight =>
    have opened := carried_token proper (TokenKind.ne_eof_of_binaryOp? sign)
    refine (opened.thenAny (readRight.2 (opened.proper proper))).imp ?_
    rintro d d' - ⟨_, ⟨front, -, rfl⟩, readRight⟩
    exact .single (front ▸ sign) precedence group readRight

theorem Ladder.softens {level : Nat} (proper : c.Proper) (read : Ladder Softened level c t c') :
    Carried .soft (fun d d' => Ladder Derives level d t d') c c' := by
  rcases read with ⟨low, readLeft, readMore⟩ | ⟨high, readUnary⟩
  · have left := readLeft.2 proper
    refine (left.thenSoft (readMore.2 (left.proper proper))).imp ?_
    rintro d d' - ⟨d₁, readLeft, readMore⟩
    exact .binary low readLeft readMore
  · exact (readUnary.softens proper).imp fun d d' _ readUnary => .unary high readUnary

theorem derives_softens {α : Type} {rule : Rule α} {a : α} (ends : c.EndsFile)
    (read : Derives α rule c a c') : Softens α rule c a c' := by
  refine Derives.induct ?_ ends read
  intro α rule c c' a ends step
  change Step Softened α rule c a c' at step
  cases rule with
  | expressions => exact fun proper => carried_derives (Expressions.softens proper step)
  | moreExpressions => exact fun proper => carried_derives (MoreExpressions.softens proper step)
  | expression level => exact fun proper => carried_derives (Ladder.softens proper step)
  | operators level left => exact fun proper => carried_derives (Operators.softens proper step)
  | suffixes head => exact fun proper => carried_derives (Suffixes.softens proper step)
  | _ => trivial

theorem ReturnStatement.softens (proper : c.Proper) (start : c.current.kind = .returnKw)
    (read : ReturnStatement Derives c t c') :
    Carried .soft (fun d d' => Statement Derives d t d') c c' := by
  have opened := carried_token proper (by simp [start])
  have proper₁ := opened.proper proper
  cases read with
  | bare stop =>
    have ends : Carried .soft (fun d d' => d' = d ∧ d.endsReturn) c.advance c.advance :=
      carried_refl (fun d front _ => ⟨rfl, by rwa [endsReturn, front]⟩)
        fun d kind => ⟨rfl, .inl kind⟩
    refine (opened.thenAny ends).imp ?_
    rintro d _ last ⟨_, ⟨front, -, rfl⟩, rfl, stop⟩
    rw [Cursor.close, ← last, ← front]
    exact .returning (front ▸ start) (.bare stop)
  | values more readValues =>
    have values : Carried .soft _ _ _ := derives_softens proper₁.ends readValues proper₁
    refine (opened.thenAny (values.front (readValues.shortens proper₁.ends))).imp ?_
    rintro d d' last ⟨_, ⟨front, -, rfl⟩, front₁, readValues⟩
    rw [Cursor.close, ← last, ← front]
    refine .returning (front ▸ start) (.values ?_ readValues)
    rwa [endsReturn, front₁]

theorem Statement.softens (proper : c.Proper) (terminal : t.kind.isTerminal = true)
    (read : Statement Derives c t c') :
    Carried .soft (fun d d' => Statement Derives d t d') c c' := by
  have word {kind : Kind SourceTree} (more : c.current.kind ≠ .eof)
      (reads : ∀ d, d.current = c.current → Statement Derives d (d.leaf kind) d.advance) :
      Carried .soft (fun d d' => Statement Derives d (c.leaf kind) d') c c.advance := by
    have token := (carried_token proper more).weaken .soft fun _ => ne_nil_of_fits
    refine token.imp fun d d' _ step => ?_
    obtain ⟨front, -, rfl⟩ := step
    rw [leaf, ← front]
    exact reads d front
  cases read with
  | returning start read => exact read.softens proper start
  | breaking start => exact word (by simp [start]) fun d front => .breaking (front ▸ start)
  | continuing start => exact word (by simp [start]) fun d front => .continuing (front ▸ start)
  | localStatement start read => cases read <;> cases terminal
  | function start read => cases read; cases terminal
  | doBlock start read => cases read; cases terminal
  | ifChain start read => cases read; cases terminal
  | whileLoop start read => cases read; cases terminal
  | repeatLoop start read => cases read; cases terminal
  | forLoop start read => cases read <;> cases terminal
  | expression start read => cases read <;> cases terminal

/-- A statement behind which its block must end is read in the same way before a semicolon. -/
theorem endsSoftly : EndsSoftly := by
  intro c d c' own semicolon t proper read terminal consumes kind view
  obtain ⟨own', consumes', carried⟩ :=
    ((derives_iff proper.ends).mp read : Statement Derives c t c').softens proper terminal
  obtain rfl : own' = own := by
    have both := consumes'.rest.symm.trans consumes.rest
    exact List.append_cancel_right both
  have reads := carried [semicolon] d (.inr ⟨semicolon, rfl, kind⟩) view
  exact (derives_iff view.proper.ends).mpr reads

end Grammar

end LuaTree
