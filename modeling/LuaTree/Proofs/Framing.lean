import LuaTree.Proofs.FirstToken

/-!
# Reading without what follows

What a rule reads does not depend on the tokens behind it: a file that ends right
there is read in the same way (`derives_framed`). The token in front decides how
far lists, operators and suffixes go, and the end of the file ends all of them.
Expressions and statements do not depend on what stands before them either. Only
suffixes ask where the last token ended, and by then one has been read.

The argument runs backwards: from where the file shall end (`Cursor.Reaches`)
through the last part that a production reads to the first.
-/

namespace LuaTree

namespace Cursor

/-- From `c` the cursor `e` can be reached by reading tokens. -/
structure Reaches (c e : Cursor) : Prop where
  rest : e.rest <:+ c.rest
  stop : e.stop = c.stop
  ends : e.EndsFile

/-- The cursor with a file that ends where `e` stands, behind a token with the given span. -/
def clip (c e : Cursor) (last : Span) : Cursor where
  rest := c.rest.take (c.rest.length - e.rest.length)
  stop := ⟨.eof, "", e.current.span⟩
  last := last
  comments := c.comments

/-- The cursor with a file that ends where `e` stands. -/
abbrev upTo (c e : Cursor) : Cursor :=
  c.clip e c.last

theorem endsFile_clip (c e : Cursor) (last : Span) : (c.clip e last).EndsFile := rfl

namespace Reaches

variable {c c₁ e : Cursor} {last : Span} {kind : TokenKind}

theorem refl (ends : c.EndsFile) : c.Reaches c :=
  ⟨List.suffix_refl _, rfl, ends⟩

theorem trans (first : c.Reaches c₁) (second : c₁.Reaches e) : c.Reaches e :=
  ⟨second.rest.trans first.rest, second.stop.trans first.stop, second.ends⟩

theorem exists_clip (reach : c.Reaches e) : ∃ own, c.rest = own ++ e.rest ∧
    ∀ last, c.clip e last = ⟨own, ⟨.eof, "", e.current.span⟩, last, c.comments⟩ := by
  obtain ⟨own, rest⟩ := reach.rest
  refine ⟨own, rest.symm, fun last => ?_⟩
  rw [clip, ← rest, List.length_append, Nat.add_sub_cancel, List.take_left]

/-- The token in front is the same, unless the file ends there. -/
theorem current_clip (reach : c.Reaches e) (last : Span) :
    (c.clip e last).current = c.current ∨ (c.clip e last).current.kind = .eof := by
  obtain ⟨own, rest, clip⟩ := reach.exists_clip
  simp only [clip, current, rest]
  cases own with
  | nil => exact .inr rfl
  | cons token own => exact .inl rfl

theorem following_clip (reach : c.Reaches e) (last : Span) :
    (c.clip e last).following = c.following ∨ (c.clip e last).following.kind = .eof := by
  obtain ⟨own, rest, clip⟩ := reach.exists_clip
  simp only [clip, following, rest]
  match own with
  | [] => exact .inr rfl
  | [_] => exact .inr rfl
  | _ :: _ :: _ => exact .inl rfl

/-- The end of the file stands where the next token did. -/
theorem span_clip (reach : c.Reaches e) (last : Span) :
    (c.clip e last).current.span = c.current.span := by
  obtain ⟨own, rest, clip⟩ := reach.exists_clip
  simp only [clip, current, rest]
  cases own with
  | nil =>
    rw [← reach.stop]
    rfl
  | cons token own => rfl

/-- What is true of the end of the file stays true of what is in front. -/
theorem kind_clip (reach : c.Reaches e) {p : TokenKind → Prop} (here : p c.current.kind)
    (atEnd : p .eof) : p (c.clip e last).current.kind := by
  obtain same | eof := reach.current_clip last
  · rwa [same]
  · rwa [eof]

/-- What is not in front is not in front of the shorter file. -/
theorem ne (reach : c.Reaches e) (other : c.current.kind ≠ kind) (notEnd : kind ≠ .eof) :
    (c.clip e last).current.kind ≠ kind :=
  reach.kind_clip (p := (· ≠ kind)) other notEnd.symm

/-- Where something is left to read, the token in front is the same. -/
theorem current_eq (reach : c.Reaches e) (some : (c.clip e last).rest ≠ []) :
    (c.clip e last).current = c.current := by
  obtain ⟨own, rest, clip⟩ := reach.exists_clip
  rw [clip] at some ⊢
  simp only [current, rest]
  cases own with
  | nil => exact absurd rfl some
  | cons token own => rfl

/-- One token back, with any span before that token. -/
theorem back (reach : c.advance.Reaches e) (more : c.current.kind ≠ .eof) :
    c.Reaches e ∧ ∀ last, (c.clip e last).current = c.current ∧
      (c.clip e last).advance = c.advance.upTo e := by
  obtain ⟨rest, stop, old, comments⟩ := c
  cases rest with
  | nil =>
    -- without a token left, the one in front is the end of the file
    have ends := reach.ends
    rw [EndsFile, reach.stop] at ends
    exact absurd ends more
  | cons token rest =>
    have longer : Reaches ⟨token :: rest, stop, old, comments⟩ e :=
      ⟨reach.rest.trans (List.suffix_cons _ _), reach.stop, reach.ends⟩
    refine ⟨longer, fun last => ?_⟩
    obtain ⟨own, split, clip⟩ := longer.exists_clip
    obtain ⟨own', split', clip'⟩ := reach.exists_clip
    obtain rfl : own = token :: own' := by
      refine List.append_cancel_right (split.symm.trans ?_)
      rw [List.cons_append, ← split']
      rfl
    rw [clip, upTo, clip']
    exact ⟨rfl, rfl⟩

theorem backUpTo (reach : c.advance.Reaches e) (more : c.current.kind ≠ .eof) :
    c.Reaches e ∧ (c.upTo e).current = c.current ∧ (c.upTo e).advance = c.advance.upTo e :=
  (reach.back more).imp_right fun same => same c.last

/-- Two tokens back. -/
theorem backTwice (reach : c.advance.advance.Reaches e) (some : c.current.kind ≠ .eof)
    (more : c.following.kind ≠ .eof) :
    c.Reaches e ∧ (c.upTo e).current = c.current ∧ (c.upTo e).following = c.following ∧
      (c.upTo e).advance.advance = c.advance.advance.upTo e := by
  obtain ⟨reach, second, behind⟩ := reach.backUpTo (by rwa [current_advance])
  obtain ⟨reach, first, next⟩ := reach.backUpTo some
  refine ⟨reach, first, ?_, ?_⟩
  · rw [← current_advance, next, second, current_advance]
  · rw [next, behind]

/-- Comments are not tokens. -/
theorem comments {pending left : List Comment}
    (reach : { c with comments := pending }.Reaches e) : { c with comments := left }.Reaches e :=
  ⟨reach.rest, reach.stop, reach.ends⟩

theorem isBefore_upTo (reach : c.Reaches e) : (c.upTo e).isBefore = c.isBefore := by
  funext comment
  rw [isBefore, isBefore, reach.span_clip]

theorem leading_upTo (reach : c.Reaches e) : (c.upTo e).leading = c.leading := by
  rw [leading, leading, reach.isBefore_upTo]
  rfl

theorem afterLeading_upTo (reach : c.Reaches e) :
    (c.upTo e).afterLeading = c.afterLeading.upTo e := by
  rw [afterLeading, reach.isBefore_upTo]
  rfl

theorem trails_upTo (reach : c.Reaches e) : (c.upTo e).trails = c.trails := by
  funext comment
  rw [trails, trails, reach.isBefore_upTo]
  rfl

theorem trailing_upTo (reach : c.Reaches e) : (c.upTo e).trailing = c.trailing := by
  rw [trailing, trailing, reach.trails_upTo]
  rfl

theorem afterTrailing_upTo (reach : c.Reaches e) :
    (c.upTo e).afterTrailing = c.afterTrailing.upTo e := by
  rw [afterTrailing, reach.trails_upTo]
  rfl

theorem breaksLine_upTo (reach : c.Reaches e) : (c.upTo e).breaksLine = c.breaksLine := by
  rw [breaksLine, breaksLine, reach.span_clip]
  rfl

theorem skip_upTo (reach : (c.skip kind).Reaches e) (notEnd : kind ≠ .eof) :
    c.Reaches e ∧ (c.upTo e).skip kind = (c.skip kind).upTo e := by
  by_cases front : c.current.kind = kind
  · have step : c.skip kind = c.advance := if_pos front
    rw [step] at reach ⊢
    obtain ⟨reach, current, next⟩ := reach.backUpTo (front ▸ notEnd)
    refine ⟨reach, ?_⟩
    rw [skip, current, if_pos front, next]
  · have stay : c.skip kind = c := if_neg front
    rw [stay] at reach ⊢
    exact ⟨reach, if_neg (reach.ne front notEnd)⟩

end Reaches

end Cursor

namespace Grammar

open Cursor

/-- One call or access behind `head`. -/
inductive Suffix (R : Reading) (head : SourceTree) (c : Cursor) : SourceTree → Cursor → Prop
  | call {args : List SourceTree} {c₁ : Cursor} (start : c.current.kind = .lParen)
      (sameLine : c.breaksLine = false) (readArgs : Enclosed R .expressions c.advance args c₁) :
      Suffix R head c (c₁.close head.span (.functionCall head args)) c₁
  | index {key : SourceTree} {c₁ : Cursor} (start : c.current.kind = .lBracket)
      (sameLine : c.breaksLine = false) (readKey : R _ (.expression 1) c.advance key c₁)
      (close : c₁.current.kind = .rBracket) :
      Suffix R head c (c₁.advance.close head.span (.access .bracket head key)) c₁.advance
  | dot {key : SourceTree} {c₁ : Cursor} (start : c.current.kind = .dot)
      (readName : Name c.advance key c₁) :
      Suffix R head c (c₁.close head.span (.access .dot head key)) c₁
  | method {name : SourceTree} {args : List SourceTree} {c₁ c₂ : Cursor}
      (start : c.current.kind = .colon) (readName : Name c.advance name c₁)
      (parens : c₁.current.kind = .lParen) (readArgs : Enclosed R .expressions c₁.advance args c₂) :
      Suffix R head c (c₂.close head.span (.methodCall head name args)) c₂

section Suffix

variable {R : Reading} {head next t : SourceTree} {c c₁ c' : Cursor}

theorem Suffix.followed (suffix : Suffix R head c next c₁)
    (readMore : R _ (.suffixes next) c₁ t c') : Suffixes R head c t c' := by
  cases suffix with
  | call start sameLine readArgs => exact .call start sameLine readArgs readMore
  | index start sameLine readKey close => exact .index start sameLine readKey close readMore
  | dot start readName => exact .dot start readName readMore
  | method start readName parens readArgs => exact .method start readName parens readArgs readMore

/-- There is no suffix in front, or one and then more. -/
theorem Suffixes.split (read : Suffixes R head c t c') :
    EndsSuffixes c ∧ t = head ∧ c' = c ∨
      ∃ next c₁, Suffix R head c next c₁ ∧ R _ (.suffixes next) c₁ t c' := by
  cases read with
  | done stop => exact .inl ⟨stop, rfl, rfl⟩
  | call start sameLine readArgs readMore =>
    exact .inr ⟨_, _, .call start sameLine readArgs, readMore⟩
  | index start sameLine readKey close readMore =>
    exact .inr ⟨_, _, .index start sameLine readKey close, readMore⟩
  | dot start readName readMore => exact .inr ⟨_, _, .dot start readName, readMore⟩
  | method start readName parens readArgs readMore =>
    exact .inr ⟨_, _, .method start readName parens readArgs, readMore⟩

end Suffix

/-- Expressions and statements, which may stand behind any token. -/
def isFree : {α : Type} → Rule α → Bool
  | _, .expression _ => true
  | _, .statement => true
  | _, _ => false

/-- What is read up to a cursor is read as well when the file ends behind it. -/
def Framed : Reading := fun _ rule c a c' => ∀ e, c'.Reaches e →
  c.Reaches e ∧ ∀ last, isFree rule = true ∨ last = c.last →
    Derives _ rule (c.clip e last) a (c'.upTo e)

/-- All that the rules read is framed. -/
def Frames (R : Reading) : Prop :=
  ∀ {α : Type} {rule : Rule α} {c c' : Cursor} {a : α}, R α rule c a c' → Framed α rule c a c'

section Frames

variable {R : Reading} {α : Type} {rule : Rule α} {c c' e : Cursor} {a : α}

theorem Frames.upTo (frames : Frames R) (read : R α rule c a c') (reach : c'.Reaches e) :
    c.Reaches e ∧ Derives _ rule (c.upTo e) a (c'.upTo e) :=
  (frames read _ reach).imp_right fun anywhere => anywhere c.last (.inr rfl)

theorem Frames.anywhere (frames : Frames R) {level : Nat} {t : SourceTree}
    (read : R _ (.expression level) c t c') (reach : c'.Reaches e) :
    c.Reaches e ∧ ∀ last, Derives _ (.expression level) (c.clip e last) t (c'.upTo e) :=
  (frames read _ reach).imp_right fun anywhere last => anywhere last (.inl rfl)

/-- A rule that reads at least one token finds it in front. -/
theorem current_of_derives {last : Span} (reach : c.Reaches e)
    (read : Derives α rule (c.clip e last) a c') (some : least rule = 1) :
    (c.clip e last).current = c.current := by
  refine reach.current_eq fun none => ?_
  have shorter := (read.shortens (endsFile_clip _ _ _)).length
  rw [none, some] at shorter
  exact absurd shorter (Nat.not_succ_le_zero _)

end Frames

section Expressions

variable {R : Reading} (frames : Frames R) {c c' e : Cursor} {t : SourceTree}
  {ts : List SourceTree} (reach : c'.Reaches e)

include reach in
theorem Name.framed (read : Name c t c') :
    c.Reaches e ∧ ∀ last, Name (c.clip e last) t (c'.upTo e) := by
  obtain ⟨kind⟩ := read
  obtain ⟨reach, same⟩ := reach.back (by simp [kind])
  refine ⟨reach, fun last => ?_⟩
  obtain ⟨current, next⟩ := same last
  have read : Name (c.clip e last) _ _ := .intro (by rwa [current])
  rwa [leaf, current, next] at read

include reach in
theorem Name.upTo (read : Name c t c') : c.Reaches e ∧ Name (c.upTo e) t (c'.upTo e) :=
  (read.framed reach).imp_right fun name => name c.last

include frames reach

theorem Expressions.framed (read : Expressions R c ts c') :
    c.Reaches e ∧ Expressions Derives (c.upTo e) ts (c'.upTo e) := by
  obtain ⟨readFirst, readMore⟩ := read
  obtain ⟨reach, more⟩ := frames.upTo readMore reach
  obtain ⟨reach, first⟩ := frames.upTo readFirst reach
  exact ⟨reach, .intro first more⟩

theorem MoreExpressions.framed (read : MoreExpressions R c ts c') :
    c.Reaches e ∧ MoreExpressions Derives (c.upTo e) ts (c'.upTo e) := by
  rcases read with stop | ⟨comma, readList⟩
  · exact ⟨reach, .none (reach.ne stop (by decide))⟩
  · obtain ⟨reach, list⟩ := frames.upTo readList reach
    obtain ⟨reach, current, next⟩ := reach.backUpTo (by simp [comma])
    rw [← next] at list
    exact ⟨reach, .some (by rwa [current]) list⟩

/-- Behind the opening parenthesis. -/
theorem Enclosed.framed {rule : Rule (List SourceTree)} (read : Enclosed R rule c ts c') :
    c.Reaches e ∧ Enclosed Derives rule (c.upTo e) ts (c'.upTo e) := by
  rcases read with close | ⟨start, readList, close⟩
  · obtain ⟨reach, current, next⟩ := reach.backUpTo (by simp [close])
    rw [← next]
    exact ⟨reach, .none (by rwa [current])⟩
  · obtain ⟨reach, current, next⟩ := reach.backUpTo (by simp [close])
    obtain ⟨reach, list⟩ := frames.upTo readList reach
    rw [← next]
    exact ⟨reach, .some (reach.ne start (by decide)) list (by rwa [current])⟩

theorem Parameters.framed (read : Parameters R c ts c') :
    c.Reaches e ∧ Parameters Derives (c.upTo e) ts (c'.upTo e) := by
  rcases read with kind | ⟨readName, stop⟩ | ⟨readName, comma, readMore⟩
  · obtain ⟨reach, current, next⟩ := reach.backUpTo (by simp [kind])
    have read : Parameters Derives (c.upTo e) _ _ := .varArg (by rwa [current])
    rw [leaf, current, next] at read
    exact ⟨reach, read⟩
  · obtain ⟨before, name⟩ := readName.upTo reach
    exact ⟨before, .last name (reach.ne stop (by decide))⟩
  · obtain ⟨reach, more⟩ := frames.upTo readMore reach
    obtain ⟨reach, current, next⟩ := reach.backUpTo (by simp [comma])
    obtain ⟨reach, name⟩ := readName.upTo reach
    rw [← next] at more
    exact ⟨reach, .more name (by rwa [current]) more⟩

theorem FunctionBody.framed {params : List SourceTree} {body : SourceTree}
    (read : FunctionBody R c params body c') :
    c.Reaches e ∧ FunctionBody Derives (c.upTo e) params body (c'.upTo e) := by
  obtain ⟨start, readParams, readBody, close⟩ := read
  obtain ⟨reach, ending, behind⟩ := reach.backUpTo (by simp [close])
  obtain ⟨reach, body⟩ := frames.upTo readBody reach
  obtain ⟨reach, params⟩ := readParams.framed frames reach
  obtain ⟨reach, current, next⟩ := reach.backUpTo (by simp [start])
  rw [← next] at params
  rw [← behind]
  exact ⟨reach, .intro (by rwa [current]) params body (by rwa [ending])⟩

/-- A field begins with the token in front. -/
theorem Field.framed (read : Field R c t c') :
    c.Reaches e ∧ (c.upTo e).current = c.current ∧ Field Derives (c.upTo e) t (c'.upTo e) := by
  rcases read with ⟨start, readKey, close, assign, readValue⟩ | ⟨readName, assign, readValue⟩ |
    ⟨noKey, noName, readValue⟩
  · obtain ⟨reach, value⟩ := frames.upTo readValue reach
    rw [current_advance] at assign
    obtain ⟨reach, ending, sign, behind⟩ := reach.backTwice (by simp [close]) (by simp [assign])
    obtain ⟨reach, key⟩ := frames.upTo readKey reach
    obtain ⟨reach, current, next⟩ := reach.backUpTo (by simp [start])
    rw [← behind] at value
    rw [← next] at key
    have read := Field.bracketed (by rwa [current]) key (by rwa [ending])
      (by rwa [current_advance, sign]) value
    rw [current] at read
    exact ⟨reach, current, read⟩
  · obtain ⟨reach, value⟩ := frames.upTo readValue reach
    obtain ⟨kind⟩ := readName
    obtain ⟨reach, current, sign, behind⟩ := reach.backTwice (by simp [kind]) (by simp [assign])
    rw [← behind] at value
    have read := Field.named (.intro (by rwa [current])) (by rwa [sign]) value
    rw [leaf, current] at read
    exact ⟨reach, current, read⟩
  · obtain ⟨reach, value⟩ := frames.upTo readValue reach
    have current := current_of_derives reach value rfl
    refine ⟨reach, current, ?_⟩
    -- the sign that would name the field is not there, and the end of the file is none
    have unnamed : ¬ ((c.upTo e).current.kind = .identifier ∧
        (c.upTo e).following.kind = .assign) := by
      rintro ⟨kind, assign⟩
      obtain same | eof := reach.following_clip c.last
      · rw [current] at kind
        rw [same] at assign
        exact noName ⟨kind, assign⟩
      · rw [eof] at assign
        cases assign
    have read := Field.positional (by rwa [current]) unnamed value
    rwa [current] at read

theorem Fields.framed (read : Fields R c ts c') :
    c.Reaches e ∧ Fields Derives (c.upTo e) ts (c'.upTo e) := by
  rcases read with stop | ⟨start, readField, stop⟩ | ⟨start, readField, divider, readMore⟩
  · exact ⟨reach, .none (reach.kind_clip (p := fun kind => kind = .rBrace ∨ kind = .eof) stop
      (.inr rfl))⟩
  · obtain ⟨before, current, field⟩ := readField.framed frames reach
    refine ⟨before, .last (by rwa [current]) field ?_⟩
    rw [not_or] at stop ⊢
    exact ⟨reach.ne stop.1 (by decide), reach.ne stop.2 (by decide)⟩
  · obtain ⟨reach, more⟩ := frames.upTo readMore reach
    obtain ⟨reach, divided, behind⟩ := reach.backUpTo (by rcases divider with h | h <;> simp [h])
    obtain ⟨reach, current, field⟩ := readField.framed frames reach
    rw [← behind] at more
    exact ⟨reach, .more (by rwa [current]) field (by rwa [divided]) more⟩

theorem Primary.framed (read : Primary R c t c') :
    c.Reaches e ∧ ∀ last, Primary Derives (c.clip e last) t (c'.upTo e) := by
  rcases read with token | readName | kind | ⟨start, readFields, close⟩ | ⟨start, readBody⟩ |
    ⟨start, readInner, close⟩
  · obtain ⟨reach, same⟩ := reach.back (literal?_ne_eof token)
    refine ⟨reach, fun last => ?_⟩
    obtain ⟨current, next⟩ := same last
    have read : Primary Derives (c.clip e last) _ _ := .literal (by rwa [current])
    rwa [leaf, current, next] at read
  · obtain ⟨reach, name⟩ := readName.framed reach
    exact ⟨reach, fun last => .name (name last)⟩
  · obtain ⟨reach, same⟩ := reach.back (by simp [kind])
    refine ⟨reach, fun last => ?_⟩
    obtain ⟨current, next⟩ := same last
    have read : Primary Derives (c.clip e last) _ _ := .varArg (by rwa [current])
    rwa [leaf, current, next] at read
  · obtain ⟨reach, ending, behind⟩ := reach.backUpTo (by simp [close])
    obtain ⟨reach, fields⟩ := frames.upTo readFields reach
    obtain ⟨reach, same⟩ := reach.back (by simp [start])
    refine ⟨reach, fun last => ?_⟩
    obtain ⟨current, next⟩ := same last
    rw [← next] at fields
    have read := Primary.table (by rwa [current]) fields (by rwa [ending])
    rwa [behind, current] at read
  · obtain ⟨reach, body⟩ := readBody.framed frames reach
    obtain ⟨reach, same⟩ := reach.back (by simp [start])
    refine ⟨reach, fun last => ?_⟩
    obtain ⟨current, next⟩ := same last
    rw [← next] at body
    have read := Primary.function (by rwa [current]) body
    rwa [current] at read
  · obtain ⟨reach, ending, behind⟩ := reach.backUpTo (by simp [close])
    obtain ⟨reach, inner⟩ := frames.upTo readInner reach
    obtain ⟨reach, same⟩ := reach.back (by simp [start])
    refine ⟨reach, fun last => ?_⟩
    obtain ⟨current, next⟩ := same last
    rw [← next] at inner
    have read := Primary.paren (by rwa [current]) inner (by rwa [ending])
    rwa [behind, current] at read

omit frames in
theorem EndsSuffixes.framed (stop : EndsSuffixes c') : EndsSuffixes (c'.upTo e) := by
  refine ⟨reach.ne stop.noDot (by decide), reach.ne stop.noColon (by decide), fun opener => ?_⟩
  rw [reach.breaksLine_upTo]
  obtain same | eof := reach.current_clip c'.last
  · rw [same] at opener
    exact stop.lineBreak opener
  · rw [eof] at opener
    exact absurd opener (by decide)

theorem Suffix.framed {head : SourceTree} (read : Suffix R head c t c') :
    c.Reaches e ∧ Suffix Derives head (c.upTo e) t (c'.upTo e) := by
  rcases read with ⟨start, sameLine, readArgs⟩ | ⟨start, sameLine, readKey, close⟩ |
    ⟨start, readName⟩ | ⟨start, readName, parens, readArgs⟩
  · obtain ⟨reach, args⟩ := readArgs.framed frames reach
    obtain ⟨reach, current, next⟩ := reach.backUpTo (by simp [start])
    rw [← next] at args
    exact ⟨reach, .call (by rwa [current]) (by rwa [reach.breaksLine_upTo]) args⟩
  · obtain ⟨reach, ending, behind⟩ := reach.backUpTo (by simp [close])
    obtain ⟨reach, key⟩ := frames.upTo readKey reach
    obtain ⟨reach, current, next⟩ := reach.backUpTo (by simp [start])
    rw [← next] at key
    have read : Suffix Derives head (c.upTo e) _ _ :=
      .index (by rwa [current]) (by rwa [reach.breaksLine_upTo]) key (by rwa [ending])
    rw [behind] at read
    exact ⟨reach, read⟩
  · obtain ⟨reach, name⟩ := readName.upTo reach
    obtain ⟨reach, current, next⟩ := reach.backUpTo (by simp [start])
    rw [← next] at name
    exact ⟨reach, .dot (by rwa [current]) name⟩
  · obtain ⟨reach, args⟩ := readArgs.framed frames reach
    obtain ⟨reach, opening, inside⟩ := reach.backUpTo (by simp [parens])
    obtain ⟨reach, name⟩ := readName.upTo reach
    obtain ⟨reach, current, next⟩ := reach.backUpTo (by simp [start])
    rw [← next] at name
    rw [← inside] at args
    exact ⟨reach, .method (by rwa [current]) name (by rwa [opening]) args⟩

theorem Suffixes.framed {head : SourceTree} (read : Suffixes R head c t c') :
    c.Reaches e ∧ Suffixes Derives head (c.upTo e) t (c'.upTo e) := by
  obtain ⟨stop, rfl, rfl⟩ | ⟨next, c₁, suffix, readMore⟩ := read.split
  · exact ⟨reach, .done (stop.framed reach)⟩
  · obtain ⟨reach, more⟩ := frames.upTo readMore reach
    obtain ⟨reach, suffix⟩ := suffix.framed frames reach
    exact ⟨reach, suffix.followed more⟩

theorem PrefixExpression.framed (read : PrefixExpression R c t c') :
    c.Reaches e ∧ ∀ last, PrefixExpression Derives (c.clip e last) t (c'.upTo e) := by
  obtain ⟨readHead, readMore⟩ := read
  obtain ⟨reach, more⟩ := frames.upTo readMore reach
  obtain ⟨reach, head⟩ := readHead.framed frames reach
  exact ⟨reach, fun last => .intro (head last) more⟩

theorem PrefixExpression.upTo (read : PrefixExpression R c t c') :
    c.Reaches e ∧ PrefixExpression Derives (c.upTo e) t (c'.upTo e) :=
  (read.framed frames reach).imp_right fun anywhere => anywhere c.last

theorem Power.framed (read : Power R c t c') :
    c.Reaches e ∧ ∀ last, Power Derives (c.clip e last) t (c'.upTo e) := by
  rcases read with ⟨readBase, stop⟩ | ⟨readBase, caret, readExponent⟩
  · obtain ⟨before, base⟩ := readBase.framed frames reach
    exact ⟨before, fun last => .plain (base last) (reach.ne stop (by decide))⟩
  · obtain ⟨reach, exponent⟩ := frames.upTo readExponent reach
    obtain ⟨reach, sign, behind⟩ := reach.backUpTo (by simp [caret])
    obtain ⟨reach, base⟩ := readBase.framed frames reach
    rw [← behind] at exponent
    exact ⟨reach, fun last => .pow (base last) (by rwa [sign]) exponent⟩

theorem Unary.framed (read : Unary R c t c') :
    c.Reaches e ∧ ∀ last, Unary Derives (c.clip e last) t (c'.upTo e) := by
  rcases read with ⟨sign, readOperand⟩ | ⟨noSign, readPower⟩
  · obtain ⟨reach, operand⟩ := frames.upTo readOperand reach
    obtain ⟨reach, same⟩ := reach.back (TokenKind.ne_eof_of_unaryOp? sign)
    refine ⟨reach, fun last => ?_⟩
    obtain ⟨current, next⟩ := same last
    rw [← next] at operand
    have read := Unary.op (by rwa [current]) operand
    rwa [current] at read
  · obtain ⟨reach, power⟩ := readPower.framed frames reach
    exact ⟨reach, fun last =>
      .power (reach.kind_clip (p := (·.unaryOp? = none)) noSign rfl) (power last)⟩

theorem Operators.framed {level : Nat} {left : SourceTree} (read : Operators R level left c t c') :
    c.Reaches e ∧ Operators Derives level left (c.upTo e) t (c'.upTo e) := by
  rcases read with stop | ⟨sign, precedence, group, readRight, readMore⟩ |
    ⟨sign, precedence, group, readRight⟩ | ⟨sign, precedence, group, readRight⟩
  · -- the end of the file is no operator
    refine ⟨reach, .done fun op sign => ?_⟩
    obtain same | eof := reach.current_clip c.last
    · rw [same] at sign
      exact stop op sign
    · exact absurd eof (TokenKind.ne_eof_of_binaryOp? sign)
  · obtain ⟨reach, more⟩ := frames.upTo readMore reach
    obtain ⟨reach, right⟩ := frames.upTo readRight reach
    obtain ⟨reach, current, next⟩ := reach.backUpTo (TokenKind.ne_eof_of_binaryOp? sign)
    rw [← next] at right
    exact ⟨reach, .left (by rwa [current]) precedence group right more⟩
  · obtain ⟨reach, right⟩ := frames.upTo readRight reach
    obtain ⟨reach, current, next⟩ := reach.backUpTo (TokenKind.ne_eof_of_binaryOp? sign)
    rw [← next] at right
    exact ⟨reach, .right (by rwa [current]) precedence group right⟩
  · obtain ⟨reach, right⟩ := frames.upTo readRight reach
    obtain ⟨reach, current, next⟩ := reach.backUpTo (TokenKind.ne_eof_of_binaryOp? sign)
    rw [← next] at right
    exact ⟨reach, .single (by rwa [current]) precedence group right⟩

theorem Ladder.framed {level : Nat} (read : Ladder R level c t c') :
    c.Reaches e ∧ ∀ last, Ladder Derives level (c.clip e last) t (c'.upTo e) := by
  rcases read with ⟨low, readLeft, readMore⟩ | ⟨high, readUnary⟩
  · obtain ⟨reach, more⟩ := frames.upTo readMore reach
    obtain ⟨reach, left⟩ := frames.anywhere readLeft reach
    exact ⟨reach, fun last => .binary low (left last) more⟩
  · obtain ⟨reach, unary⟩ := readUnary.framed frames reach
    exact ⟨reach, fun last => .unary high (unary last)⟩

end Expressions

section Statements

variable {R : Reading} {c c' e : Cursor} {t : SourceTree} {ts : List SourceTree}
  (frames : Frames R) (reach : c'.Reaches e)

include frames reach

theorem MoreNames.framed {cause : Cause} (read : MoreNames R cause c ts c') :
    c.Reaches e ∧ MoreNames Derives cause (c.upTo e) ts (c'.upTo e) := by
  rcases read with stop | ⟨comma, readName, readMore⟩
  · exact ⟨reach, .none (reach.ne stop (by decide))⟩
  · obtain ⟨reach, more⟩ := frames.upTo readMore reach
    obtain ⟨reach, name⟩ := readName.upTo reach
    obtain ⟨reach, current, next⟩ := reach.backUpTo (by simp [comma])
    rw [← next] at name
    exact ⟨reach, .some (by rwa [current]) name more⟩

theorem MoreTargets.framed (read : MoreTargets R c ts c') :
    c.Reaches e ∧ MoreTargets Derives (c.upTo e) ts (c'.upTo e) := by
  rcases read with stop | ⟨comma, readTarget, readMore⟩
  · exact ⟨reach, .none (reach.ne stop (by decide))⟩
  · obtain ⟨reach, more⟩ := frames.upTo readMore reach
    obtain ⟨reach, target⟩ := readTarget.upTo frames reach
    obtain ⟨reach, current, next⟩ := reach.backUpTo (by simp [comma])
    rw [← next] at target
    exact ⟨reach, .some (by rwa [current]) target more⟩

theorem LocalStatement.framed (some : c.current.kind ≠ .eof) (read : LocalStatement R c t c') :
    c.Reaches e ∧ ∀ last, (c.clip e last).current = c.current ∧
      LocalStatement Derives (c.clip e last) t (c'.upTo e) := by
  rcases read with ⟨start, readName, readBody⟩ | ⟨readName, readMore, stop⟩ |
    ⟨readName, readMore, assign, readValues⟩
  · obtain ⟨reach, body⟩ := readBody.framed frames reach
    obtain ⟨reach, name⟩ := readName.upTo reach
    obtain ⟨reach, second, behind⟩ := reach.backUpTo (by simp [start])
    obtain ⟨reach, same⟩ := reach.back some
    refine ⟨reach, fun last => ?_⟩
    obtain ⟨current, next⟩ := same last
    refine ⟨current, ?_⟩
    rw [← behind, ← next] at name
    rw [← next] at second
    have read := LocalStatement.function (by rwa [second]) name body
    rwa [current] at read
  · obtain ⟨before, more⟩ := frames.upTo readMore reach
    obtain ⟨before, name⟩ := readName.upTo before
    obtain ⟨before, same⟩ := before.back some
    refine ⟨before, fun last => ?_⟩
    obtain ⟨current, next⟩ := same last
    refine ⟨current, ?_⟩
    rw [← next] at name
    have read := LocalStatement.names name more (reach.ne stop (by decide))
    rwa [current] at read
  · obtain ⟨reach, values⟩ := frames.upTo readValues reach
    obtain ⟨reach, sign, behind⟩ := reach.backUpTo (by simp [assign])
    obtain ⟨reach, more⟩ := frames.upTo readMore reach
    obtain ⟨reach, name⟩ := readName.upTo reach
    obtain ⟨reach, same⟩ := reach.back some
    refine ⟨reach, fun last => ?_⟩
    obtain ⟨current, next⟩ := same last
    refine ⟨current, ?_⟩
    rw [← next] at name
    rw [← behind] at values
    have read := LocalStatement.values name more (by rwa [sign]) values
    rwa [current] at read

theorem DottedName.framed {head : SourceTree} (read : DottedName R head c t c') :
    c.Reaches e ∧ DottedName Derives head (c.upTo e) t (c'.upTo e) := by
  rcases read with ⟨noDot, noColon⟩ | ⟨start, readName, readMore⟩ | ⟨start, readName⟩
  · exact ⟨reach, .done (reach.ne noDot (by decide)) (reach.ne noColon (by decide))⟩
  · obtain ⟨reach, more⟩ := frames.upTo readMore reach
    obtain ⟨reach, name⟩ := readName.upTo reach
    obtain ⟨reach, current, next⟩ := reach.backUpTo (by simp [start])
    rw [← next] at name
    exact ⟨reach, .dot (by rwa [current]) name more⟩
  · obtain ⟨reach, name⟩ := readName.upTo reach
    obtain ⟨reach, current, next⟩ := reach.backUpTo (by simp [start])
    rw [← next] at name
    exact ⟨reach, .method (by rwa [current]) name⟩

theorem FunctionStatement.framed (some : c.current.kind ≠ .eof)
    (read : FunctionStatement R c t c') :
    c.Reaches e ∧ ∀ last, (c.clip e last).current = c.current ∧
      FunctionStatement Derives (c.clip e last) t (c'.upTo e) := by
  obtain ⟨readFirst, readName, readBody⟩ := read
  obtain ⟨reach, body⟩ := readBody.framed frames reach
  obtain ⟨reach, name⟩ := frames.upTo readName reach
  obtain ⟨reach, first⟩ := readFirst.upTo reach
  obtain ⟨reach, same⟩ := reach.back some
  refine ⟨reach, fun last => ?_⟩
  obtain ⟨current, next⟩ := same last
  refine ⟨current, ?_⟩
  rw [← next] at first
  have read := FunctionStatement.intro first name body
  rwa [current] at read

theorem ReturnStatement.framed (some : c.current.kind ≠ .eof) (read : ReturnStatement R c t c') :
    c.Reaches e ∧ ∀ last, (c.clip e last).current = c.current ∧
      ReturnStatement Derives (c.clip e last) t (c'.upTo e) := by
  rcases read with stop | ⟨start, readValues⟩
  · have stop : (c.advance.upTo e).endsReturn :=
      reach.kind_clip (p := fun kind => kind = .semicolon ∨ kind.endsBlock = true) stop (.inr rfl)
    obtain ⟨reach, same⟩ := reach.back some
    refine ⟨reach, fun last => ?_⟩
    obtain ⟨current, next⟩ := same last
    refine ⟨current, ?_⟩
    have read := ReturnStatement.bare (R := Derives) (c := c.clip e last) (by rwa [next])
    rwa [current, next] at read
  · -- the first value is kept, so something stands behind the word
    obtain ⟨reach, values⟩ := frames.upTo readValues reach
    have first := current_of_derives reach values rfl
    obtain ⟨reach, same⟩ := reach.back some
    refine ⟨reach, fun last => ?_⟩
    obtain ⟨current, next⟩ := same last
    refine ⟨current, ?_⟩
    have start : ¬ (c.advance.upTo e).endsReturn := by rwa [endsReturn, first]
    rw [← next] at start values
    have read := ReturnStatement.values start values
    rwa [current] at read

theorem DoStatement.framed (some : c.current.kind ≠ .eof) (read : DoStatement R c t c') :
    c.Reaches e ∧ ∀ last, (c.clip e last).current = c.current ∧
      DoStatement Derives (c.clip e last) t (c'.upTo e) := by
  obtain ⟨readBody, close⟩ := read
  obtain ⟨reach, ending, behind⟩ := reach.backUpTo (by simp [close])
  obtain ⟨reach, body⟩ := frames.upTo readBody reach
  obtain ⟨reach, same⟩ := reach.back some
  refine ⟨reach, fun last => ?_⟩
  obtain ⟨current, next⟩ := same last
  refine ⟨current, ?_⟩
  rw [← next] at body
  have read := DoStatement.intro body (by rwa [ending])
  rwa [current, behind] at read

theorem ElseIfs.framed (read : ElseIfs R c ts c') :
    c.Reaches e ∧ ElseIfs Derives (c.upTo e) ts (c'.upTo e) := by
  rcases read with stop | ⟨start, readCondition, thenKw, readBody, readMore⟩
  · exact ⟨reach, .none (reach.ne stop (by decide))⟩
  · obtain ⟨reach, more⟩ := frames.upTo readMore reach
    obtain ⟨reach, body⟩ := frames.upTo readBody reach
    obtain ⟨reach, word, behind⟩ := reach.backUpTo (by simp [thenKw])
    obtain ⟨reach, condition⟩ := frames.upTo readCondition reach
    obtain ⟨reach, current, next⟩ := reach.backUpTo (by simp [start])
    rw [← behind] at body
    rw [← next] at condition
    have read := ElseIfs.some (by rwa [current]) condition (by rwa [word]) body more
    rw [current] at read
    exact ⟨reach, read⟩

theorem ElseClause.framed {branch : Option SourceTree} (read : ElseClause R c branch c') :
    c.Reaches e ∧ ElseClause Derives (c.upTo e) branch (c'.upTo e) := by
  rcases read with stop | ⟨start, readBody⟩
  · exact ⟨reach, .none (reach.ne stop (by decide))⟩
  · obtain ⟨reach, body⟩ := frames.upTo readBody reach
    obtain ⟨reach, current, next⟩ := reach.backUpTo (by simp [start])
    rw [← next] at body
    have read := ElseClause.some (by rwa [current]) body
    rw [current] at read
    exact ⟨reach, read⟩

theorem IfStatement.framed (some : c.current.kind ≠ .eof) (read : IfStatement R c t c') :
    c.Reaches e ∧ ∀ last, (c.clip e last).current = c.current ∧
      IfStatement Derives (c.clip e last) t (c'.upTo e) := by
  obtain ⟨readCondition, thenKw, readBody, readClauses, readBranch, close⟩ := read
  obtain ⟨reach, ending, behind⟩ := reach.backUpTo (by simp [close])
  obtain ⟨reach, branch⟩ := readBranch.framed frames reach
  obtain ⟨reach, clauses⟩ := frames.upTo readClauses reach
  obtain ⟨reach, body⟩ := frames.upTo readBody reach
  obtain ⟨reach, word, inside⟩ := reach.backUpTo (by simp [thenKw])
  obtain ⟨reach, condition⟩ := frames.upTo readCondition reach
  obtain ⟨reach, same⟩ := reach.back some
  refine ⟨reach, fun last => ?_⟩
  obtain ⟨current, next⟩ := same last
  refine ⟨current, ?_⟩
  rw [← inside] at body
  rw [← next] at condition
  have read := IfStatement.intro condition (by rwa [word]) body clauses branch (by rwa [ending])
  rwa [current, behind] at read

theorem WhileStatement.framed (some : c.current.kind ≠ .eof) (read : WhileStatement R c t c') :
    c.Reaches e ∧ ∀ last, (c.clip e last).current = c.current ∧
      WhileStatement Derives (c.clip e last) t (c'.upTo e) := by
  obtain ⟨readCondition, doKw, readBody, close⟩ := read
  obtain ⟨reach, ending, behind⟩ := reach.backUpTo (by simp [close])
  obtain ⟨reach, body⟩ := frames.upTo readBody reach
  obtain ⟨reach, word, inside⟩ := reach.backUpTo (by simp [doKw])
  obtain ⟨reach, condition⟩ := frames.upTo readCondition reach
  obtain ⟨reach, same⟩ := reach.back some
  refine ⟨reach, fun last => ?_⟩
  obtain ⟨current, next⟩ := same last
  refine ⟨current, ?_⟩
  rw [← inside] at body
  rw [← next] at condition
  have read := WhileStatement.intro condition (by rwa [word]) body (by rwa [ending])
  rwa [current, behind] at read

theorem RepeatStatement.framed (some : c.current.kind ≠ .eof) (read : RepeatStatement R c t c') :
    c.Reaches e ∧ ∀ last, (c.clip e last).current = c.current ∧
      RepeatStatement Derives (c.clip e last) t (c'.upTo e) := by
  obtain ⟨readBody, untilKw, readCondition⟩ := read
  obtain ⟨reach, condition⟩ := frames.upTo readCondition reach
  obtain ⟨reach, word, behind⟩ := reach.backUpTo (by simp [untilKw])
  obtain ⟨reach, body⟩ := frames.upTo readBody reach
  obtain ⟨reach, same⟩ := reach.back some
  refine ⟨reach, fun last => ?_⟩
  obtain ⟨current, next⟩ := same last
  refine ⟨current, ?_⟩
  rw [← behind] at condition
  rw [← next] at body
  have read := RepeatStatement.intro body (by rwa [word]) condition
  rwa [current] at read

theorem ForBody.framed (read : ForBody R c t c') :
    c.Reaches e ∧ ForBody Derives (c.upTo e) t (c'.upTo e) := by
  obtain ⟨doKw, readBody, close⟩ := read
  obtain ⟨reach, ending, behind⟩ := reach.backUpTo (by simp [close])
  obtain ⟨reach, body⟩ := frames.upTo readBody reach
  obtain ⟨reach, word, inside⟩ := reach.backUpTo (by simp [doKw])
  rw [← inside] at body
  rw [← behind]
  exact ⟨reach, .intro (by rwa [word]) body (by rwa [ending])⟩

theorem ForStep.framed {step : Option SourceTree} (read : ForStep R c step c') :
    c.Reaches e ∧ ForStep Derives (c.upTo e) step (c'.upTo e) := by
  rcases read with stop | ⟨comma, readStep⟩
  · exact ⟨reach, .none (reach.ne stop (by decide))⟩
  · obtain ⟨reach, step⟩ := frames.upTo readStep reach
    obtain ⟨reach, current, next⟩ := reach.backUpTo (by simp [comma])
    rw [← next] at step
    exact ⟨reach, .some (by rwa [current]) step⟩

theorem ForStatement.framed (some : c.current.kind ≠ .eof) (read : ForStatement R c t c') :
    c.Reaches e ∧ ∀ last, (c.clip e last).current = c.current ∧
      ForStatement Derives (c.clip e last) t (c'.upTo e) := by
  rcases read with ⟨assign, readCounter, readStart, comma, readLimit, readStep, readBody⟩ |
    ⟨noAssign, readName, readMore, inKw, readIterators, readBody⟩
  · obtain ⟨reach, body⟩ := readBody.framed frames reach
    obtain ⟨reach, step⟩ := readStep.framed frames reach
    obtain ⟨reach, limit⟩ := frames.upTo readLimit reach
    obtain ⟨reach, divider, behind⟩ := reach.backUpTo (by simp [comma])
    obtain ⟨reach, start⟩ := frames.upTo readStart reach
    obtain ⟨kind⟩ := readCounter
    obtain ⟨reach, named, sign, signed⟩ := reach.backTwice (by simp [kind]) (by simp [assign])
    obtain ⟨reach, same⟩ := reach.back some
    refine ⟨reach, fun last => ?_⟩
    obtain ⟨current, next⟩ := same last
    refine ⟨current, ?_⟩
    rw [← signed, ← next] at start
    rw [← behind] at limit
    rw [← next] at named sign
    have read := ForStatement.numeric (by rwa [sign]) (.intro (by rwa [named])) start
      (by rwa [divider]) limit step body
    rwa [leaf, named, current] at read
  · obtain ⟨reach, body⟩ := readBody.framed frames reach
    obtain ⟨reach, iterators⟩ := frames.upTo readIterators reach
    obtain ⟨reach, word, behind⟩ := reach.backUpTo (by simp [inKw])
    obtain ⟨reach, more⟩ := frames.upTo readMore reach
    obtain ⟨reach, name⟩ := readName.upTo reach
    have noAssign : (c.advance.upTo e).following.kind ≠ .assign := by
      obtain same | eof := reach.following_clip c.advance.last
      · rwa [same]
      · rw [eof]
        decide
    obtain ⟨reach, same⟩ := reach.back some
    refine ⟨reach, fun last => ?_⟩
    obtain ⟨current, next⟩ := same last
    refine ⟨current, ?_⟩
    rw [← next] at noAssign name
    rw [← behind] at iterators
    have read := ForStatement.generic noAssign name more (by rwa [word]) iterators body
    rwa [current] at read

theorem ExpressionStatement.framed (read : ExpressionStatement R c t c') :
    c.Reaches e ∧ ∀ last, ExpressionStatement Derives (c.clip e last) t (c'.upTo e) := by
  rcases read with ⟨readFirst, readMore, assign, assignable, readValues⟩ |
    ⟨readTarget, readMore, noAssign, sign, assignable, readValue⟩ |
    ⟨readCall, readMore, noAssign, noSign, call⟩
  · obtain ⟨reach, values⟩ := frames.upTo readValues reach
    obtain ⟨reach, found, behind⟩ := reach.backUpTo (by simp [assign])
    obtain ⟨reach, more⟩ := frames.upTo readMore reach
    obtain ⟨reach, first⟩ := readFirst.framed frames reach
    refine ⟨reach, fun last => ?_⟩
    rw [← behind] at values
    have read := ExpressionStatement.assignment (first last) more (by rwa [found]) assignable values
    rwa [reach.span_clip] at read
  · obtain ⟨reach, value⟩ := frames.upTo readValue reach
    obtain ⟨reach, found, behind⟩ := reach.backUpTo (TokenKind.ne_eof_of_assignOp? sign)
    obtain ⟨reach, more⟩ := frames.upTo readMore reach
    obtain ⟨reach, target⟩ := readTarget.framed frames reach
    refine ⟨reach, fun last => ?_⟩
    rw [← behind] at value
    have read := ExpressionStatement.compound (target last) more (by rwa [found]) (by rwa [found])
      assignable value
    rwa [reach.span_clip] at read
  · obtain ⟨before, more⟩ := frames.upTo readMore reach
    obtain ⟨before, expression⟩ := readCall.framed frames before
    refine ⟨before, fun last => ?_⟩
    have read := ExpressionStatement.call (expression last) more (reach.ne noAssign (by decide))
      (reach.kind_clip (p := (·.assignOp? = none)) noSign rfl) call
    rwa [before.span_clip] at read

theorem Statement.framed (read : Statement R c t c') :
    c.Reaches e ∧ ∀ last, Statement Derives (c.clip e last) t (c'.upTo e) := by
  cases read with
  | localStatement start read =>
    obtain ⟨reach, all⟩ := read.framed frames reach (by simp [start])
    exact ⟨reach, fun last => .localStatement (by rw [(all last).1, start]) (all last).2⟩
  | function start read =>
    obtain ⟨reach, all⟩ := read.framed frames reach (by simp [start])
    exact ⟨reach, fun last => .function (by rw [(all last).1, start]) (all last).2⟩
  | returning start read =>
    obtain ⟨reach, all⟩ := read.framed frames reach (by simp [start])
    exact ⟨reach, fun last => .returning (by rw [(all last).1, start]) (all last).2⟩
  | doBlock start read =>
    obtain ⟨reach, all⟩ := read.framed frames reach (by simp [start])
    exact ⟨reach, fun last => .doBlock (by rw [(all last).1, start]) (all last).2⟩
  | ifChain start read =>
    obtain ⟨reach, all⟩ := read.framed frames reach (by simp [start])
    exact ⟨reach, fun last => .ifChain (by rw [(all last).1, start]) (all last).2⟩
  | whileLoop start read =>
    obtain ⟨reach, all⟩ := read.framed frames reach (by simp [start])
    exact ⟨reach, fun last => .whileLoop (by rw [(all last).1, start]) (all last).2⟩
  | repeatLoop start read =>
    obtain ⟨reach, all⟩ := read.framed frames reach (by simp [start])
    exact ⟨reach, fun last => .repeatLoop (by rw [(all last).1, start]) (all last).2⟩
  | forLoop start read =>
    obtain ⟨reach, all⟩ := read.framed frames reach (by simp [start])
    exact ⟨reach, fun last => .forLoop (by rw [(all last).1, start]) (all last).2⟩
  | expression start read =>
    obtain ⟨reach, all⟩ := read.framed frames reach
    exact ⟨reach, fun last =>
      .expression (reach.kind_clip (p := (· ∉ statementWords)) start (by decide)) (all last)⟩
  | breaking start =>
    obtain ⟨reach, same⟩ := reach.back (by simp [start])
    refine ⟨reach, fun last => ?_⟩
    obtain ⟨current, next⟩ := same last
    have read : Statement Derives (c.clip e last) _ _ := .breaking (by rwa [current])
    rwa [leaf, current, next] at read
  | continuing start =>
    obtain ⟨reach, same⟩ := reach.back (by simp [start])
    refine ⟨reach, fun last => ?_⟩
    obtain ⟨current, next⟩ := same last
    have read : Statement Derives (c.clip e last) _ _ := .continuing (by rwa [current])
    rwa [leaf, current, next] at read

theorem Statements.framed (read : Statements R c ts c') :
    c.Reaches e ∧ Statements Derives (c.upTo e) ts (c'.upTo e) := by
  rcases read with stop | @⟨_, _, c₁, _, start, readStatement, terminal, readMore⟩
  · exact ⟨reach, .none (reach.kind_clip (p := (·.endsBlock = true)) stop rfl)⟩
  · -- comments are given to a statement by offsets, and the end of the shorter file has the
    -- offsets of the token that it replaces
    obtain ⟨reach, more⟩ := frames.upTo readMore reach
    have reach : (c₁.skip .semicolon).Reaches e := reach.comments
    have trailing := reach.trailing_upTo
    have final (ends) : ((c₁.skip .semicolon).upTo e).current.kind.endsBlock = true :=
      reach.kind_clip (p := (·.endsBlock = true)) (terminal ends) rfl
    rw [← reach.afterTrailing_upTo] at more
    obtain ⟨reach, skipped⟩ := reach.skip_upTo (by decide)
    obtain ⟨reach, statement⟩ := frames.upTo readStatement reach
    have first := current_of_derives reach statement rfl
    have reach : c.Reaches e := reach.comments
    rw [← skipped] at more trailing final
    rw [← reach.afterLeading_upTo] at statement
    have start : (c.upTo e).current.kind.endsBlock = false := by
      rw [show (c.upTo e).current = c.current from first, start]
    have read := Statements.some start statement final more
    rw [reach.leading_upTo, trailing] at read
    exact ⟨reach, read⟩

theorem Block.framed (read : Block R c t c') :
    c.Reaches e ∧ Block Derives (c.upTo e) t (c'.upTo e) := by
  obtain @⟨_, c₁, readAll⟩ := read
  have reach : c₁.Reaches e := reach.comments
  obtain ⟨before, all⟩ := frames.upTo readAll reach
  have read := Block.intro all
  rw [before.span_clip, reach.leading_upTo, reach.afterLeading_upTo] at read
  exact ⟨before, read⟩

end Statements

/-- For a rule that may depend on the token before it. -/
theorem framed_of_step {α : Type} {rule : Rule α} {c c' e : Cursor} {a : α}
    (bound : isFree rule = false)
    (framed : c.Reaches e ∧ Step Derives α rule (c.upTo e) a (c'.upTo e)) :
    c.Reaches e ∧ ∀ last, isFree rule = true ∨ last = c.last →
      Derives _ rule (c.clip e last) a (c'.upTo e) := by
  refine ⟨framed.1, fun last place => ?_⟩
  obtain rfl : last = c.last := place.resolve_left (by simp [bound])
  exact (derives_iff (endsFile_clip c e _)).mpr framed.2

/-- Each production keeps it. -/
theorem Step.framed {R : Reading} {α : Type} {rule : Rule α} {c c' : Cursor} {a : α}
    (frames : Frames R) (read : Step R α rule c a c') : Framed α rule c a c' := by
  intro e reach
  cases rule with
  | expression level =>
    obtain ⟨reach, all⟩ := Ladder.framed frames reach read
    exact ⟨reach, fun last _ => (derives_iff (endsFile_clip c e last)).mpr (all last)⟩
  | statement =>
    obtain ⟨reach, all⟩ := Statement.framed frames reach read
    exact ⟨reach, fun last _ => (derives_iff (endsFile_clip c e last)).mpr (all last)⟩
  | block => exact framed_of_step rfl (Block.framed frames reach read)
  | statements => exact framed_of_step rfl (Statements.framed frames reach read)
  | elseIfs => exact framed_of_step rfl (ElseIfs.framed frames reach read)
  | moreTargets => exact framed_of_step rfl (MoreTargets.framed frames reach read)
  | moreNames => exact framed_of_step rfl (MoreNames.framed frames reach read)
  | dottedName => exact framed_of_step rfl (DottedName.framed frames reach read)
  | expressions => exact framed_of_step rfl (Expressions.framed frames reach read)
  | moreExpressions => exact framed_of_step rfl (MoreExpressions.framed frames reach read)
  | operators => exact framed_of_step rfl (Operators.framed frames reach read)
  | suffixes => exact framed_of_step rfl (Suffixes.framed frames reach read)
  | fields => exact framed_of_step rfl (Fields.framed frames reach read)
  | parameters => exact framed_of_step rfl (Parameters.framed frames reach read)

/-- What a rule reads does not depend on what follows, and expressions and statements do not depend
on what stands before them. -/
theorem derives_framed {α : Type} {rule : Rule α} {c c' : Cursor} {a : α} (ends : c.EndsFile)
    (read : Derives α rule c a c') : Framed α rule c a c' := by
  refine Derives.induct ?_ ends read
  intro α rule c c' a ends step
  exact Step.framed (fun read => read.2) step

end Grammar

end LuaTree
