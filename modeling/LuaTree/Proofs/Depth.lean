import LuaTree.Proofs.Exactness

/-!
# Rules never run out of depth

Every rule that calls another one without reading a token comes before it in a
fixed order, and reading a token makes up for the whole order. The weight of a
call therefore decreases along all calls, and a bound above it is as good as no
bound.

`Derives` is what the grammar reads when no bound stands in the way. It is a
fixed point of the productions (`derives_iff`), the least one
(`Derives.induct`), and what parsing computes (`parseTokens_ok_iff`).
-/

namespace LuaTree

/-- The program ends with an end of file. -/
def Cursor.EndsFile (c : Cursor) : Prop :=
  c.stop.kind = .eof

/-- From `c` to `c'` at least `n` tokens were read. -/
structure Cursor.Shortens (n : Nat) (c c' : Cursor) : Prop where
  stop : c'.stop = c.stop
  length : c'.rest.length + n ≤ c.rest.length

namespace Cursor

theorem Shortens.refl (c : Cursor) : Shortens 0 c c :=
  ⟨rfl, Nat.le_refl _⟩

theorem Shortens.trans {m n : Nat} {c c₁ c₂ : Cursor} (first : Shortens m c c₁)
    (second : Shortens n c₁ c₂) : Shortens (m + n) c c₂ := by
  have := first.length
  have := second.length
  exact ⟨second.stop.trans first.stop, by omega⟩

theorem Shortens.weaken {m n : Nat} {c c' : Cursor} (more : Shortens m c c') (less : n ≤ m) :
    Shortens n c c' := by
  have := more.length
  exact ⟨more.stop, by omega⟩

theorem Shortens.endsFile {n : Nat} {c c' : Cursor} (read : Shortens n c c') (ends : c.EndsFile) :
    c'.EndsFile := by
  rw [EndsFile, read.stop]
  exact ends

theorem shortens_advance_any (c : Cursor) : Shortens 0 c c.advance := by
  obtain ⟨rest, stop, last, comments⟩ := c
  cases rest with
  | nil => exact ⟨rfl, Nat.le_refl _⟩
  | cons token rest => exact ⟨rfl, Nat.le_succ _⟩

theorem Shortens.next {n : Nat} {c c' : Cursor} (read : Shortens n c c') :
    Shortens n c c'.advance :=
  read.trans (shortens_advance_any c')

/-- Reading a token that is not the end of the file. -/
theorem shortens_advance {c : Cursor} (ends : c.EndsFile) (more : c.current.kind ≠ .eof) :
    Shortens 1 c c.advance := by
  obtain ⟨rest, stop, last, comments⟩ := c
  cases rest with
  | nil => exact absurd ends more
  | cons token rest => exact ⟨rfl, Nat.le_refl _⟩

theorem shortens_skip (c : Cursor) (kind : TokenKind) : Shortens 0 c (c.skip kind) := by
  unfold skip
  split
  · exact shortens_advance_any c
  · exact .refl c

/-- Comments are not tokens. -/
theorem Shortens.comments {n : Nat} {c c' : Cursor} {pending left : List Comment}
    (read : Shortens n { c with comments := pending } c') :
    Shortens n c { c' with comments := left } :=
  ⟨read.stop, read.length⟩

end Cursor

namespace TokenKind

variable {kind : TokenKind}

theorem ne_eof_of_unaryOp? {op : UnaryOp} (sign : kind.unaryOp? = some op) : kind ≠ .eof := by
  rintro rfl
  cases sign

theorem ne_eof_of_binaryOp? {op : BinaryOp} (sign : kind.binaryOp? = some op) : kind ≠ .eof := by
  rintro rfl
  cases sign

theorem ne_eof_of_assignOp? {op : BinaryOp} (sign : kind.assignOp? = some op) : kind ≠ .eof := by
  rintro rfl
  cases sign

end TokenKind

namespace Grammar

open Cursor

/-- The place of a rule in the order of calls that read nothing. -/
def rank : {α : Type} → Rule α → Nat
  | _, .expression level => 11 - level
  | _, .expressions => 11
  | _, .fields => 11
  | _, .block => 2
  | _, .statements => 1
  | _, _ => 0

/-- How many tokens a rule reads at least. -/
def least : {α : Type} → Rule α → Nat
  | _, .expression _ => 1
  | _, .expressions => 1
  | _, .parameters => 1
  | _, .statement => 1
  | _, _ => 0

def weight {α : Type} (rule : Rule α) (c : Cursor) : Nat :=
  16 * c.rest.length + rank rule

/-- Below a weight, all that `R` reads is read by `R'` too, and it goes forward. -/
def Below (n : Nat) (R R' : Reading) : Prop :=
  ∀ {α : Type} {rule : Rule α} {c c' : Cursor} {a : α}, c.EndsFile → weight rule c < n →
    R α rule c a c' → R' α rule c a c' ∧ Shortens (least rule) c c'

theorem rank_le {α : Type} (rule : Rule α) : rank rule ≤ 11 := by
  cases rule <;> simp [rank]

/-- Behind a token any rule may be called. -/
theorem Below.after {n : Nat} {R R' : Reading} (below : Below n R R') {c c₁ c₂ : Cursor}
    (ends : c.EndsFile) (room : 16 * c.rest.length ≤ n) (read : Shortens 1 c c₁) {α : Type}
    {rule : Rule α} {a : α} (call : R α rule c₁ a c₂) : R' α rule c₁ a c₂ ∧ Shortens 1 c c₂ := by
  have shorter := read.length
  have small := rank_le rule
  obtain ⟨call, further⟩ := below (read.endsFile ends) (by rw [weight]; omega) call
  exact ⟨call, (read.trans further).weaken (by omega)⟩

section Lift

variable {n : Nat} {R R' : Reading} {c c' : Cursor}

theorem Name.shortens {t : SourceTree} (ends : c.EndsFile) (read : Name c t c') :
    Shortens 1 c c' := by
  obtain ⟨kind⟩ := read
  exact shortens_advance ends (by simp [kind])

theorem Name.after {c₁ : Cursor} {t : SourceTree} (read : Shortens 1 c c₁) (name : Name c₁ t c') :
    Shortens 1 c c' := by
  obtain ⟨kind⟩ := name
  exact read.next

theorem Expressions.lift {ts : List SourceTree} (below : Below n R R') (ends : c.EndsFile)
    (room : 16 * c.rest.length + 11 ≤ n) (read : Expressions R c ts c') :
    Expressions R' c ts c' ∧ Shortens 1 c c' := by
  obtain ⟨readFirst, readMore⟩ := read
  obtain ⟨readFirst, first⟩ := below ends (by simp only [weight, rank]; omega) readFirst
  obtain ⟨readMore, more⟩ := below.after ends (by omega) first readMore
  exact ⟨.intro readFirst readMore, more⟩

theorem MoreExpressions.lift {ts : List SourceTree} (below : Below n R R') (ends : c.EndsFile)
    (room : 16 * c.rest.length ≤ n) (read : MoreExpressions R c ts c') :
    MoreExpressions R' c ts c' ∧ Shortens 0 c c' := by
  rcases read with stop | ⟨comma, readList⟩
  · exact ⟨.none stop, .refl c⟩
  · have next := shortens_advance ends (by simp [comma])
    obtain ⟨readList, list⟩ := below.after ends room next readList
    exact ⟨.some comma readList, list.weaken (by omega)⟩

/-- Behind the opening parenthesis. -/
theorem Enclosed.lift {rule : Rule (List SourceTree)} {c₁ : Cursor} {ts : List SourceTree}
    (below : Below n R R') (ends : c.EndsFile) (room : 16 * c.rest.length ≤ n)
    (opened : Shortens 1 c c₁) (read : Enclosed R rule c₁ ts c') :
    Enclosed R' rule c₁ ts c' ∧ Shortens 1 c c' := by
  rcases read with close | ⟨start, readList, close⟩
  · exact ⟨.none close, opened.next⟩
  · obtain ⟨readList, list⟩ := below.after ends room opened readList
    exact ⟨.some start readList close, list.next⟩

theorem Parameters.lift {ts : List SourceTree} (below : Below n R R') (ends : c.EndsFile)
    (room : 16 * c.rest.length ≤ n) (read : Parameters R c ts c') :
    Parameters R' c ts c' ∧ Shortens 1 c c' := by
  rcases read with kind | ⟨readName, stop⟩ | ⟨readName, comma, readMore⟩
  · exact ⟨.varArg kind, shortens_advance ends (by simp [kind])⟩
  · exact ⟨.last readName stop, readName.shortens ends⟩
  · obtain ⟨readMore, more⟩ := below.after ends room (readName.shortens ends).next readMore
    exact ⟨.more readName comma readMore, more⟩

/-- Behind the word `function` or the name of the function. -/
theorem FunctionBody.lift {c₁ : Cursor} {params : List SourceTree} {body : SourceTree}
    (below : Below n R R') (ends : c.EndsFile) (room : 16 * c.rest.length ≤ n)
    (named : Shortens 1 c c₁) (read : FunctionBody R c₁ params body c') :
    FunctionBody R' c₁ params body c' ∧ Shortens 1 c c' := by
  obtain ⟨start, readParams, readBody, close⟩ := read
  obtain ⟨readParams, params⟩ := readParams.lift below ends room named.next
  obtain ⟨readBody, body⟩ := below.after ends room params readBody
  exact ⟨.intro start readParams readBody close, body.next⟩

theorem Field.lift {t : SourceTree} (below : Below n R R') (ends : c.EndsFile)
    (room : 16 * c.rest.length + 11 ≤ n) (read : Field R c t c') :
    Field R' c t c' ∧ Shortens 1 c c' := by
  rcases read with ⟨start, readKey, close, assign, readValue⟩ | ⟨readName, assign, readValue⟩ |
    ⟨noKey, noName, readValue⟩
  · have opened := shortens_advance ends (by simp [start])
    obtain ⟨readKey, key⟩ := below.after ends (by omega) opened readKey
    obtain ⟨readValue, value⟩ := below.after ends (by omega) key.next.next readValue
    exact ⟨.bracketed start readKey close assign readValue, value⟩
  · have name := readName.shortens ends
    obtain ⟨readValue, value⟩ := below.after ends (by omega) name.next readValue
    exact ⟨.named readName assign readValue, value⟩
  · obtain ⟨readValue, value⟩ := below ends (by simp only [weight, rank]; omega) readValue
    exact ⟨.positional noKey noName readValue, value⟩

theorem Fields.lift {ts : List SourceTree} (below : Below n R R') (ends : c.EndsFile)
    (room : 16 * c.rest.length + 11 ≤ n) (read : Fields R c ts c') :
    Fields R' c ts c' ∧ Shortens 0 c c' := by
  rcases read with stop | ⟨start, readField, stop⟩ | ⟨start, readField, divider, readMore⟩
  · exact ⟨.none stop, .refl c⟩
  · obtain ⟨readField, field⟩ := readField.lift below ends room
    exact ⟨.last start readField stop, field.weaken (by omega)⟩
  · obtain ⟨readField, field⟩ := readField.lift below ends room
    obtain ⟨readMore, more⟩ := below.after ends (by omega) field.next readMore
    exact ⟨.more start readField divider readMore, more.weaken (by omega)⟩

theorem literal?_ne_eof {token : Token} {literal : Literal}
    (found : literal? token = some literal) : token.kind ≠ .eof := by
  intro eof
  simp [literal?, eof] at found

theorem Primary.lift {t : SourceTree} (below : Below n R R') (ends : c.EndsFile)
    (room : 16 * c.rest.length ≤ n) (read : Primary R c t c') :
    Primary R' c t c' ∧ Shortens 1 c c' := by
  rcases read with token | readName | kind | ⟨start, readFields, close⟩ | ⟨start, readBody⟩ |
    ⟨start, readInner, close⟩
  · exact ⟨.literal token, shortens_advance ends (literal?_ne_eof token)⟩
  · exact ⟨.name readName, readName.shortens ends⟩
  · exact ⟨.varArg kind, shortens_advance ends (by simp [kind])⟩
  · have opened := shortens_advance ends (by simp [start])
    obtain ⟨readFields, fields⟩ := below.after ends room opened readFields
    exact ⟨.table start readFields close, fields.next⟩
  · have opened := shortens_advance ends (by simp [start])
    obtain ⟨readBody, body⟩ := readBody.lift below ends room opened
    exact ⟨.function start readBody, body⟩
  · have opened := shortens_advance ends (by simp [start])
    obtain ⟨readInner, inner⟩ := below.after ends room opened readInner
    exact ⟨.paren start readInner close, inner.next⟩

theorem Suffixes.lift {head t : SourceTree} (below : Below n R R') (ends : c.EndsFile)
    (room : 16 * c.rest.length ≤ n) (read : Suffixes R head c t c') :
    Suffixes R' head c t c' ∧ Shortens 0 c c' := by
  rcases read with stop | ⟨start, sameLine, readArgs, readMore⟩ |
    ⟨start, sameLine, readKey, close, readMore⟩ | ⟨start, readName, readMore⟩ |
    ⟨start, readName, parens, readArgs, readMore⟩
  · exact ⟨.done stop, .refl c⟩
  · have opened := shortens_advance ends (by simp [start])
    obtain ⟨readArgs, args⟩ := readArgs.lift below ends room opened
    obtain ⟨readMore, more⟩ := below.after ends room args readMore
    exact ⟨.call start sameLine readArgs readMore, more.weaken (by omega)⟩
  · have opened := shortens_advance ends (by simp [start])
    obtain ⟨readKey, key⟩ := below.after ends room opened readKey
    obtain ⟨readMore, more⟩ := below.after ends room key.next readMore
    exact ⟨.index start sameLine readKey close readMore, more.weaken (by omega)⟩
  · have name := readName.after (shortens_advance ends (by simp [start]))
    obtain ⟨readMore, more⟩ := below.after ends room name readMore
    exact ⟨.dot start readName readMore, more.weaken (by omega)⟩
  · have name := readName.after (shortens_advance ends (by simp [start]))
    obtain ⟨readArgs, args⟩ := readArgs.lift below ends room name.next
    obtain ⟨readMore, more⟩ := below.after ends room args readMore
    exact ⟨.method start readName parens readArgs readMore, more.weaken (by omega)⟩

theorem PrefixExpression.lift {t : SourceTree} (below : Below n R R') (ends : c.EndsFile)
    (room : 16 * c.rest.length ≤ n) (read : PrefixExpression R c t c') :
    PrefixExpression R' c t c' ∧ Shortens 1 c c' := by
  obtain ⟨readHead, readMore⟩ := read
  obtain ⟨readHead, head⟩ := readHead.lift below ends room
  obtain ⟨readMore, more⟩ := below.after ends room head readMore
  exact ⟨.intro readHead readMore, more⟩

theorem Power.lift {t : SourceTree} (below : Below n R R') (ends : c.EndsFile)
    (room : 16 * c.rest.length ≤ n) (read : Power R c t c') :
    Power R' c t c' ∧ Shortens 1 c c' := by
  rcases read with ⟨readBase, stop⟩ | ⟨readBase, caret, readExponent⟩
  · obtain ⟨readBase, base⟩ := readBase.lift below ends room
    exact ⟨.plain readBase stop, base⟩
  · obtain ⟨readBase, base⟩ := readBase.lift below ends room
    obtain ⟨readExponent, exponent⟩ := below.after ends room base.next readExponent
    exact ⟨.pow readBase caret readExponent, exponent⟩

theorem Unary.lift {t : SourceTree} (below : Below n R R') (ends : c.EndsFile)
    (room : 16 * c.rest.length ≤ n) (read : Unary R c t c') :
    Unary R' c t c' ∧ Shortens 1 c c' := by
  rcases read with ⟨sign, readOperand⟩ | ⟨noSign, readPower⟩
  · have first := shortens_advance ends (TokenKind.ne_eof_of_unaryOp? sign)
    obtain ⟨readOperand, operand⟩ := below.after ends room first readOperand
    exact ⟨.op sign readOperand, operand⟩
  · obtain ⟨readPower, power⟩ := readPower.lift below ends room
    exact ⟨.power noSign readPower, power⟩

theorem Operators.lift {level : Nat} {left t : SourceTree} (below : Below n R R')
    (ends : c.EndsFile) (room : 16 * c.rest.length ≤ n) (read : Operators R level left c t c') :
    Operators R' level left c t c' ∧ Shortens 0 c c' := by
  have signed {op : BinaryOp} (sign : c.current.kind.binaryOp? = some op) :
      Shortens 1 c c.advance :=
    shortens_advance ends (TokenKind.ne_eof_of_binaryOp? sign)
  rcases read with stop | ⟨sign, precedence, group, readRight, readMore⟩ |
    ⟨sign, precedence, group, readRight⟩ | ⟨sign, precedence, group, readRight⟩
  · exact ⟨.done stop, .refl c⟩
  · obtain ⟨readRight, right⟩ := below.after ends room (signed sign) readRight
    obtain ⟨readMore, more⟩ := below.after ends room right readMore
    exact ⟨.left sign precedence group readRight readMore, more.weaken (by omega)⟩
  · obtain ⟨readRight, right⟩ := below.after ends room (signed sign) readRight
    exact ⟨.right sign precedence group readRight, right.weaken (by omega)⟩
  · obtain ⟨readRight, right⟩ := below.after ends room (signed sign) readRight
    exact ⟨.single sign precedence group readRight, right.weaken (by omega)⟩

theorem Ladder.lift {level : Nat} {t : SourceTree} (below : Below n R R') (ends : c.EndsFile)
    (room : 16 * c.rest.length + (11 - level) ≤ n) (read : Ladder R level c t c') :
    Ladder R' level c t c' ∧ Shortens 1 c c' := by
  rcases read with ⟨low, readLeft, readMore⟩ | ⟨high, readUnary⟩
  · have lower : level < 11 := low
    obtain ⟨readLeft, left⟩ := below ends (by simp only [weight, rank]; omega) readLeft
    obtain ⟨readMore, more⟩ := below.after ends (by omega) left readMore
    exact ⟨.binary low readLeft readMore, more⟩
  · obtain ⟨readUnary, unary⟩ := readUnary.lift below ends (by omega)
    exact ⟨.unary high readUnary, unary⟩

theorem MoreNames.lift {cause : Cause} {ts : List SourceTree} (below : Below n R R')
    (ends : c.EndsFile) (room : 16 * c.rest.length ≤ n) (read : MoreNames R cause c ts c') :
    MoreNames R' cause c ts c' ∧ Shortens 0 c c' := by
  rcases read with stop | ⟨comma, readName, readMore⟩
  · exact ⟨.none stop, .refl c⟩
  · have name := readName.after (shortens_advance ends (by simp [comma]))
    obtain ⟨readMore, more⟩ := below.after ends room name readMore
    exact ⟨.some comma readName readMore, more.weaken (by omega)⟩

theorem MoreTargets.lift {ts : List SourceTree} (below : Below n R R') (ends : c.EndsFile)
    (room : 16 * c.rest.length ≤ n) (read : MoreTargets R c ts c') :
    MoreTargets R' c ts c' ∧ Shortens 0 c c' := by
  rcases read with stop | ⟨comma, readTarget, readMore⟩
  · exact ⟨.none stop, .refl c⟩
  · have divided := shortens_advance ends (by simp [comma])
    have shorter := divided.length
    obtain ⟨readTarget, target⟩ := readTarget.lift below (divided.endsFile ends) (by omega)
    obtain ⟨readMore, more⟩ := below.after ends room
      ((divided.trans target).weaken (by omega)) readMore
    exact ⟨.some comma readTarget readMore, more.weaken (by omega)⟩

theorem LocalStatement.lift {t : SourceTree} (below : Below n R R') (ends : c.EndsFile)
    (room : 16 * c.rest.length ≤ n) (start : c.current.kind = .localKw)
    (read : LocalStatement R c t c') : LocalStatement R' c t c' ∧ Shortens 1 c c' := by
  have word := shortens_advance ends (by simp [start])
  rcases read with ⟨start, readName, readBody⟩ | ⟨readName, readMore, stop⟩ |
    ⟨readName, readMore, assign, readValues⟩
  · obtain ⟨readBody, body⟩ := readBody.lift below ends room (readName.after word.next)
    exact ⟨.function start readName readBody, body⟩
  · obtain ⟨readMore, more⟩ := below.after ends room (readName.after word) readMore
    exact ⟨.names readName readMore stop, more⟩
  · obtain ⟨readMore, more⟩ := below.after ends room (readName.after word) readMore
    obtain ⟨readValues, values⟩ := below.after ends room more.next readValues
    exact ⟨.values readName readMore assign readValues, values⟩

theorem DottedName.lift {head t : SourceTree} (below : Below n R R') (ends : c.EndsFile)
    (room : 16 * c.rest.length ≤ n) (read : DottedName R head c t c') :
    DottedName R' head c t c' ∧ Shortens 0 c c' := by
  rcases read with ⟨noDot, noColon⟩ | ⟨start, readName, readMore⟩ | ⟨start, readName⟩
  · exact ⟨.done noDot noColon, .refl c⟩
  · have name := readName.after (shortens_advance ends (by simp [start]))
    obtain ⟨readMore, more⟩ := below.after ends room name readMore
    exact ⟨.dot start readName readMore, more.weaken (by omega)⟩
  · have name := readName.after (shortens_advance ends (by simp [start]))
    exact ⟨.method start readName, name.weaken (by omega)⟩

theorem FunctionStatement.lift {t : SourceTree} (below : Below n R R') (ends : c.EndsFile)
    (room : 16 * c.rest.length ≤ n) (start : c.current.kind = .functionKw)
    (read : FunctionStatement R c t c') : FunctionStatement R' c t c' ∧ Shortens 1 c c' := by
  obtain ⟨readFirst, readName, readBody⟩ := read
  have first := readFirst.after (shortens_advance ends (by simp [start]))
  obtain ⟨readName, name⟩ := below.after ends room first readName
  obtain ⟨readBody, body⟩ := readBody.lift below ends room name
  exact ⟨.intro readFirst readName readBody, body⟩

theorem ReturnStatement.lift {t : SourceTree} (below : Below n R R') (ends : c.EndsFile)
    (room : 16 * c.rest.length ≤ n) (start : c.current.kind = .returnKw)
    (read : ReturnStatement R c t c') : ReturnStatement R' c t c' ∧ Shortens 1 c c' := by
  have word := shortens_advance ends (by simp [start])
  rcases read with stop | ⟨more, readValues⟩
  · exact ⟨.bare stop, word⟩
  · obtain ⟨readValues, values⟩ := below.after ends room word readValues
    exact ⟨.values more readValues, values⟩

theorem DoStatement.lift {t : SourceTree} (below : Below n R R') (ends : c.EndsFile)
    (room : 16 * c.rest.length ≤ n) (start : c.current.kind = .doKw)
    (read : DoStatement R c t c') : DoStatement R' c t c' ∧ Shortens 1 c c' := by
  obtain ⟨readBody, close⟩ := read
  have word := shortens_advance ends (by simp [start])
  obtain ⟨readBody, body⟩ := below.after ends room word readBody
  exact ⟨.intro readBody close, body.next⟩

theorem ElseIfs.lift {ts : List SourceTree} (below : Below n R R') (ends : c.EndsFile)
    (room : 16 * c.rest.length ≤ n) (read : ElseIfs R c ts c') :
    ElseIfs R' c ts c' ∧ Shortens 0 c c' := by
  rcases read with stop | ⟨start, readCondition, thenKw, readBody, readMore⟩
  · exact ⟨.none stop, .refl c⟩
  · have word := shortens_advance ends (by simp [start])
    obtain ⟨readCondition, condition⟩ := below.after ends room word readCondition
    obtain ⟨readBody, body⟩ := below.after ends room condition.next readBody
    obtain ⟨readMore, more⟩ := below.after ends room body readMore
    exact ⟨.some start readCondition thenKw readBody readMore, more.weaken (by omega)⟩

theorem ElseClause.lift {c₁ : Cursor} {t : Option SourceTree} (below : Below n R R')
    (ends : c.EndsFile) (room : 16 * c.rest.length ≤ n) (before : Shortens 1 c c₁)
    (read : ElseClause R c₁ t c') : ElseClause R' c₁ t c' ∧ Shortens 1 c c' := by
  rcases read with stop | ⟨start, readBody⟩
  · exact ⟨.none stop, before⟩
  · obtain ⟨readBody, body⟩ := below.after ends room before.next readBody
    exact ⟨.some start readBody, body⟩

theorem IfStatement.lift {t : SourceTree} (below : Below n R R') (ends : c.EndsFile)
    (room : 16 * c.rest.length ≤ n) (start : c.current.kind = .ifKw)
    (read : IfStatement R c t c') : IfStatement R' c t c' ∧ Shortens 1 c c' := by
  obtain ⟨readCondition, thenKw, readBody, readClauses, readBranch, close⟩ := read
  have word := shortens_advance ends (by simp [start])
  obtain ⟨readCondition, condition⟩ := below.after ends room word readCondition
  obtain ⟨readBody, body⟩ := below.after ends room condition.next readBody
  obtain ⟨readClauses, clauses⟩ := below.after ends room body readClauses
  obtain ⟨readBranch, branch⟩ := readBranch.lift below ends room clauses
  exact ⟨.intro readCondition thenKw readBody readClauses readBranch close, branch.next⟩

theorem WhileStatement.lift {t : SourceTree} (below : Below n R R') (ends : c.EndsFile)
    (room : 16 * c.rest.length ≤ n) (start : c.current.kind = .whileKw)
    (read : WhileStatement R c t c') : WhileStatement R' c t c' ∧ Shortens 1 c c' := by
  obtain ⟨readCondition, doKw, readBody, close⟩ := read
  have word := shortens_advance ends (by simp [start])
  obtain ⟨readCondition, condition⟩ := below.after ends room word readCondition
  obtain ⟨readBody, body⟩ := below.after ends room condition.next readBody
  exact ⟨.intro readCondition doKw readBody close, body.next⟩

theorem RepeatStatement.lift {t : SourceTree} (below : Below n R R') (ends : c.EndsFile)
    (room : 16 * c.rest.length ≤ n) (start : c.current.kind = .repeatKw)
    (read : RepeatStatement R c t c') : RepeatStatement R' c t c' ∧ Shortens 1 c c' := by
  obtain ⟨readBody, untilKw, readCondition⟩ := read
  have word := shortens_advance ends (by simp [start])
  obtain ⟨readBody, body⟩ := below.after ends room word readBody
  obtain ⟨readCondition, condition⟩ := below.after ends room body.next readCondition
  exact ⟨.intro readBody untilKw readCondition, condition⟩

theorem ForBody.lift {c₁ : Cursor} {t : SourceTree} (below : Below n R R') (ends : c.EndsFile)
    (room : 16 * c.rest.length ≤ n) (before : Shortens 1 c c₁) (read : ForBody R c₁ t c') :
    ForBody R' c₁ t c' ∧ Shortens 1 c c' := by
  obtain ⟨doKw, readBody, close⟩ := read
  obtain ⟨readBody, body⟩ := below.after ends room before.next readBody
  exact ⟨.intro doKw readBody close, body.next⟩

theorem ForStep.lift {c₁ : Cursor} {t : Option SourceTree} (below : Below n R R')
    (ends : c.EndsFile) (room : 16 * c.rest.length ≤ n) (before : Shortens 1 c c₁)
    (read : ForStep R c₁ t c') : ForStep R' c₁ t c' ∧ Shortens 1 c c' := by
  rcases read with stop | ⟨comma, readStep⟩
  · exact ⟨.none stop, before⟩
  · obtain ⟨readStep, step⟩ := below.after ends room before.next readStep
    exact ⟨.some comma readStep, step⟩

theorem ForStatement.lift {t : SourceTree} (below : Below n R R') (ends : c.EndsFile)
    (room : 16 * c.rest.length ≤ n) (start : c.current.kind = .forKw)
    (read : ForStatement R c t c') : ForStatement R' c t c' ∧ Shortens 1 c c' := by
  have word := shortens_advance ends (by simp [start])
  rcases read with ⟨assign, readCounter, readStart, comma, readLimit, readStep, readBody⟩ |
    ⟨noAssign, readName, readMore, inKw, readIterators, readBody⟩
  · obtain ⟨readStart, start⟩ := below.after ends room (readCounter.after word).next readStart
    obtain ⟨readLimit, limit⟩ := below.after ends room start.next readLimit
    obtain ⟨readStep, step⟩ := readStep.lift below ends room limit
    obtain ⟨readBody, body⟩ := readBody.lift below ends room step
    exact ⟨.numeric assign readCounter readStart comma readLimit readStep readBody, body⟩
  · obtain ⟨readMore, more⟩ := below.after ends room (readName.after word) readMore
    obtain ⟨readIterators, iterators⟩ := below.after ends room more.next readIterators
    obtain ⟨readBody, body⟩ := readBody.lift below ends room iterators
    exact ⟨.generic noAssign readName readMore inKw readIterators readBody, body⟩

theorem ExpressionStatement.lift {t : SourceTree} (below : Below n R R') (ends : c.EndsFile)
    (room : 16 * c.rest.length ≤ n) (read : ExpressionStatement R c t c') :
    ExpressionStatement R' c t c' ∧ Shortens 1 c c' := by
  rcases read with ⟨readFirst, readMore, assign, assignable, readValues⟩ |
    ⟨readTarget, readMore, noAssign, sign, assignable, readValue⟩ |
    ⟨readExpression, readMore, noAssign, noSign, call⟩
  · obtain ⟨readFirst, first⟩ := readFirst.lift below ends room
    obtain ⟨readMore, more⟩ := below.after ends room first readMore
    obtain ⟨readValues, values⟩ := below.after ends room more.next readValues
    exact ⟨.assignment readFirst readMore assign assignable readValues, values⟩
  · obtain ⟨readTarget, target⟩ := readTarget.lift below ends room
    obtain ⟨readMore, more⟩ := below.after ends room target readMore
    obtain ⟨readValue, value⟩ := below.after ends room more.next readValue
    exact ⟨.compound readTarget readMore noAssign sign assignable readValue, value⟩
  · obtain ⟨readExpression, expression⟩ := readExpression.lift below ends room
    obtain ⟨readMore, more⟩ := below.after ends room expression readMore
    exact ⟨.call readExpression readMore noAssign noSign call, more⟩

theorem Statement.lift {t : SourceTree} (below : Below n R R') (ends : c.EndsFile)
    (room : 16 * c.rest.length ≤ n) (read : Statement R c t c') :
    Statement R' c t c' ∧ Shortens 1 c c' := by
  cases read with
  | localStatement start read =>
    exact (read.lift below ends room start).imp_left (.localStatement start)
  | function start read => exact (read.lift below ends room start).imp_left (.function start)
  | returning start read => exact (read.lift below ends room start).imp_left (.returning start)
  | breaking start => exact ⟨.breaking start, shortens_advance ends (by simp [start])⟩
  | continuing start => exact ⟨.continuing start, shortens_advance ends (by simp [start])⟩
  | doBlock start read => exact (read.lift below ends room start).imp_left (.doBlock start)
  | ifChain start read => exact (read.lift below ends room start).imp_left (.ifChain start)
  | whileLoop start read => exact (read.lift below ends room start).imp_left (.whileLoop start)
  | repeatLoop start read => exact (read.lift below ends room start).imp_left (.repeatLoop start)
  | forLoop start read => exact (read.lift below ends room start).imp_left (.forLoop start)
  | expression start read => exact (read.lift below ends room).imp_left (.expression start)

theorem Statements.lift {ts : List SourceTree} (below : Below n R R') (ends : c.EndsFile)
    (room : 16 * c.rest.length + 1 ≤ n) (read : Statements R c ts c') :
    Statements R' c ts c' ∧ Shortens 0 c c' := by
  rcases read with stop | ⟨start, readStatement, terminal, readMore⟩
  · exact ⟨.none stop, .refl c⟩
  · obtain ⟨readStatement, statement⟩ := below (c := c.afterLeading) ends
      (by simp only [weight, rank, afterLeading]; omega) readStatement
    have ended : Shortens 1 c.afterLeading _ := statement.trans (shortens_skip _ .semicolon)
    obtain ⟨readMore, more⟩ := below.after ends (by omega) ended.comments readMore
    exact ⟨.some start readStatement terminal readMore, more.weaken (by omega)⟩

theorem Block.lift {t : SourceTree} (below : Below n R R') (ends : c.EndsFile)
    (room : 16 * c.rest.length + 2 ≤ n) (read : Block R c t c') :
    Block R' c t c' ∧ Shortens 0 c c' := by
  obtain ⟨readAll⟩ := read
  obtain ⟨readAll, all⟩ := below ends (by simp only [weight, rank]; omega) readAll
  exact ⟨.intro readAll, all.stop, all.length⟩

/-- All calls of a production have a smaller weight than the rule. -/
theorem Step.lift {α : Type} {rule : Rule α} {a : α} (below : Below (weight rule c) R R')
    (ends : c.EndsFile) (read : Step R α rule c a c') :
    Step R' α rule c a c' ∧ Shortens (least rule) c c' := by
  cases rule with
  | block => exact Block.lift below ends (Nat.le_refl _) read
  | statements => exact Statements.lift below ends (Nat.le_refl _) read
  | statement => exact Statement.lift below ends (Nat.le_refl _) read
  | elseIfs => exact ElseIfs.lift below ends (Nat.le_refl _) read
  | moreTargets => exact MoreTargets.lift below ends (Nat.le_refl _) read
  | moreNames cause => exact MoreNames.lift below ends (Nat.le_refl _) read
  | dottedName head => exact DottedName.lift below ends (Nat.le_refl _) read
  | expressions => exact Expressions.lift below ends (Nat.le_refl _) read
  | moreExpressions => exact MoreExpressions.lift below ends (Nat.le_refl _) read
  | expression level => exact Ladder.lift below ends (Nat.le_refl _) read
  | operators level left => exact Operators.lift below ends (Nat.le_refl _) read
  | suffixes head => exact Suffixes.lift below ends (Nat.le_refl _) read
  | fields => exact Fields.lift below ends (Nat.le_refl _) read
  | parameters => exact Parameters.lift below ends (Nat.le_refl _) read

end Lift

/-- Where some depth is enough, any depth above the weight is. -/
theorem reads_of_weight_lt {d e : Nat} {α : Type} {rule : Rule α} {c c' : Cursor} {a : α}
    (ends : c.EndsFile) (enough : weight rule c < e) (read : Reads (rules d) α rule c a c') :
    Reads (rules e) α rule c a c' ∧ Shortens (least rule) c c' := by
  induction d generalizing e α rule c c' a with
  | zero => exact absurd read TokenReader.gives_fail
  | succ d ih =>
    obtain ⟨e, rfl⟩ : ∃ k, e = k + 1 := ⟨e - 1, by omega⟩
    have below : Below (weight rule c) (Reads (rules d)) (Reads (rules e)) := by
      intro β called c₁ c₂ b ends₁ smaller call
      exact ih ends₁ (by omega) call
    obtain ⟨step, shorter⟩ := (step_gives_iff.mp read).lift below ends
    exact ⟨step_gives_iff.mpr step, shorter⟩

/-- What the grammar reads. The depth is just above the weight; any greater one reads the same. -/
def Derives : Reading :=
  fun α rule c a c' => Reads (rules (weight rule c + 1)) α rule c a c'

section Derives

variable {α : Type} {rule : Rule α} {c c' : Cursor} {a : α}

theorem Derives.shortens (ends : c.EndsFile) (read : Derives α rule c a c') :
    Shortens (least rule) c c' :=
  (reads_of_weight_lt ends (Nat.lt_succ_self _) read).2

theorem below_derives (n : Nat) : Below n Derives Derives := by
  intro β called c₁ c₂ b ends₁ smaller call
  exact ⟨call, call.shortens ends₁⟩

/-- The grammar is a fixed point of its productions. -/
theorem derives_iff (ends : c.EndsFile) :
    Derives α rule c a c' ↔ Step Derives α rule c a c' := by
  constructor
  · intro read
    refine ((step_gives_iff.mp read).lift ?_ ends).1
    intro β called c₁ c₂ b ends₁ smaller call
    exact reads_of_weight_lt ends₁ (Nat.lt_succ_self _) call
  · intro step
    refine step_gives_iff.mpr (step.lift ?_ ends).1
    intro β called c₁ c₂ b ends₁ smaller call
    exact reads_of_weight_lt ends₁ smaller call

/-- The grammar is the least fixed point of its productions: what every production preserves
holds of all that is read. -/
theorem Derives.induct {G : Reading}
    (step : ∀ {α : Type} {rule : Rule α} {c c' : Cursor} {a : α}, c.EndsFile →
      Step (fun β called c₁ b c₂ => Derives β called c₁ b c₂ ∧ G β called c₁ b c₂) α rule c a c' →
      G α rule c a c')
    (ends : c.EndsFile) (read : Derives α rule c a c') : G α rule c a c' := by
  generalize size : weight rule c = n
  induction n using Nat.strongRecOn generalizing α rule c c' a with
  | ind n ih =>
    refine step ends (((derives_iff ends).mp read).lift ?_ ends).1
    intro β called c₁ c₂ b ends₁ smaller call
    exact ⟨⟨call, ih _ (size ▸ smaller) ends₁ call rfl⟩, call.shortens ends₁⟩

/-- The same induction where no more needs to be known of what the rules read. -/
theorem Derives.induct_step {G : Reading}
    (step : ∀ {α : Type} {rule : Rule α} {c c' : Cursor} {a : α}, c.EndsFile →
      Step G α rule c a c' → G α rule c a c')
    (ends : c.EndsFile) (read : Derives α rule c a c') : G α rule c a c' := by
  refine Derives.induct (fun ends read => step ends (read.lift ?_ ends).1) ends read
  intro β called c₁ c₂ b ends₁ _ call
  exact ⟨call.2, call.1.shortens ends₁⟩

end Derives

end Grammar

theorem Cursor.endsFile_ofTokens (tokens : List Token) (comments : List Comment) :
    (Cursor.ofTokens tokens comments).EndsFile := by
  simp only [Cursor.EndsFile, Cursor.ofTokens]
  cases found : tokens.find? fun token => token.kind == .eof with
  | none => rfl
  | some token => simpa using List.find?_some found

open Grammar

/-- The depth that `parseTokens` allows is above the weight of every program. -/
theorem parseTokens_ok_iff {tokens : List Token} {comments : List Comment} {t : SourceTree} :
    parseTokens tokens comments = .ok t ↔
      ∃ c', Chunk Derives (Cursor.ofTokens tokens comments) t c' := by
  generalize start : Cursor.ofTokens tokens comments = c
  have ends : c.EndsFile := start ▸ Cursor.endsFile_ofTokens tokens comments
  have run : parseTokens tokens comments = .ok t ↔
      ∃ c', Chunk (Reads (rules (depth c.rest.length))) c t c' := by
    simp only [parseTokens_eq_ok, readTokens, start, ← gives_chunk, TokenReader.Gives, program]
    cases (chunk (rules (depth c.rest.length)) : TokenReader SourceTree).run c <;>
      simp [bind, Except.bind, pure, Except.pure, Prod.ext_iff]
  have room : weight .block c < depth c.rest.length := by
    simp only [weight, rank, depth]
    omega
  rw [run]
  constructor
  · rintro ⟨c', ⟨readBody, stop⟩⟩
    exact ⟨c', .intro (reads_of_weight_lt ends (Nat.lt_succ_self _) readBody).1 stop⟩
  · rintro ⟨c', ⟨readBody, stop⟩⟩
    exact ⟨c', .intro (reads_of_weight_lt ends room readBody).1 stop⟩

end LuaTree
