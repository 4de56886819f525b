import LuaTree.Proofs.Excerpts
import LuaTree.Proofs.Samples

/-!
# What a reader has seen

A reader goes by the tokens that it has read and the one in front of it. Whether
it yields a value or fails, it does the same before every file that begins with
these tokens, and at every depth that is large enough. `Decided` says so of a
reader at a cursor, with the rules that it uses as a parameter; there is one
lemma for each way to put readers together.

The statements behind which a block must end are followed along. If a file goes
on behind such a statement with a semicolon and then with anything that does not
end a block, reading fails right there (`Trapped`).
-/

namespace LuaTree

/-- The spans of the statements in a tree behind which their blocks must end. -/
def Tree.terminals (t : SourceTree) : List Span :=
  (t.nodes.filter fun node => node.2.isTerminal).map fun node => node.1.span

theorem Tree.terminals_node (m : Origin) (kind : Kind SourceTree) :
    terminals (.node m kind) =
      (if kind.isTerminal then [m.span] else []) ++ kind.children.flatMap terminals := by
  have below (ts : List SourceTree) :
      ((ts.flatMap nodes).filter fun node => node.2.isTerminal).map (fun node => node.1.span) =
        ts.flatMap terminals := by
    rw [List.filter_flatMap, List.map_flatMap]
    rfl
  rw [terminals, nodes_node, List.filter_cons, Kind.isTerminal_map]
  split
  · rw [List.map_cons, below]
    rfl
  · rw [below]
    rfl

/-- The same below the root. -/
def Tree.innerTerminals (t : SourceTree) : List Span :=
  t.children.flatMap terminals

theorem Tree.terminals_eq (t : SourceTree) :
    t.terminals = (if t.kind.isTerminal then [t.span] else []) ++ t.innerTerminals := by
  obtain ⟨m, kind⟩ := t
  exact terminals_node m kind

theorem Tree.terminals_withComments (t : SourceTree) (leading trailing : List Comment) :
    (t.withComments leading trailing).terminals = t.terminals := by
  obtain ⟨m, kind⟩ := t
  rw [withComments, terminals_node, terminals_node]
  rfl

namespace Cursor

/-- What stands before `d` is as it is for `c`, and the tokens `seen` are in front of it. -/
structure Shows (c : Cursor) (seen : List Token) (d : Cursor) : Prop where
  proper : d.Proper
  last : d.last = c.last
  comments : d.comments = c.comments
  tokens : seen <+: d.tokens

/-- The cursor `c'`, moved to the place behind the tokens `own` of `d`. -/
def behind (d : Cursor) (own : List Token) (c' : Cursor) : Cursor :=
  { c' with rest := d.rest.drop own.length, stop := d.stop }

theorem behind_nil (d : Cursor) (c' : Cursor) :
    d.behind [] c' = { c' with rest := d.rest, stop := d.stop } := rfl

theorem behind_behind (d : Cursor) (own more : List Token) (c₁ c₂ : Cursor) :
    (d.behind own c₁).behind more c₂ = d.behind (own ++ more) c₂ := by
  simp only [behind, List.drop_drop, List.length_append]

theorem Consumes.behind {c c' : Cursor} {own : List Token} (consumes : Consumes c own c') :
    c.behind own c' = c' := by
  obtain ⟨rest', stop', last', comments'⟩ := c'
  obtain rfl : stop' = c.stop := consumes.stop
  simp only [Cursor.behind, consumes.rest, List.drop_left]

/-- The token in front is the first of those that are left. -/
theorem front_isPrefix (c : Cursor) : [c.current] <+: c.tokens := by
  obtain ⟨later, tokens⟩ := c.exists_tokens_eq
  rw [tokens]
  exact ⟨later, rfl⟩

theorem following_of_isPrefix {c : Cursor} {first second : Token} {more : List Token}
    (front : first :: second :: more <+: c.tokens) : c.following = second := by
  obtain ⟨rest, stop, last, comments⟩ := c
  obtain ⟨later, tokens⟩ := front
  match rest with
  | [] => exact absurd tokens (by simp [Cursor.tokens])
  | [token] =>
    simp only [Cursor.tokens, List.cons_append, List.nil_append, List.cons.injEq] at tokens
    exact tokens.2.1.symm
  | token :: next :: rest =>
    simp only [Cursor.tokens, List.cons_append, List.cons.injEq] at tokens
    exact tokens.2.1.symm

/-- What is read and the token behind it were in front. -/
theorem Consumes.seen {c c' : Cursor} {own : List Token} (consumes : Consumes c own c') :
    own ++ [c'.current] <+: c.tokens := by
  rw [consumes.tokens]
  exact (List.prefix_append_right_inj own).mpr c'.front_isPrefix

/-- What is read and the token behind it begin with the token in front. -/
theorem front_prefix_of_consumes {c c' : Cursor} {own : List Token} (consumes : Consumes c own c') :
    [c.current] <+: own ++ [c'.current] :=
  List.prefix_of_prefix_length_le c.front_isPrefix consumes.seen (by simp)

/-- What is left of a proper file is proper. -/
theorem Proper.of_suffix {c c' : Cursor} (proper : c.Proper) (rest : c'.rest <:+ c.rest)
    (stop : c'.stop = c.stop) : c'.Proper where
  ends := by
    rw [EndsFile, stop]
    exact proper.ends
  inside token member := proper.inside token (rest.subset member)

theorem Proper.advance {c : Cursor} (proper : c.Proper) : c.advance.Proper :=
  have reach := reaches_advance proper.ends
  proper.of_suffix reach.rest reach.stop

theorem consumes_advance {c : Cursor} (ends : c.EndsFile) (some : c.current.kind ≠ .eof) :
    Consumes c [c.current] c.advance := by
  obtain ⟨rest, stop, last, comments⟩ := c
  cases rest with
  | nil => exact absurd ends some
  | cons token rest => exact ⟨rfl, rfl, rfl⟩

namespace Shows

variable {c c' d : Cursor} {own seen : List Token} {t : Token}

theorem refl (proper : c.Proper) (tokens : seen <+: c.tokens) : c.Shows seen c :=
  ⟨proper, rfl, rfl, tokens⟩

theorem of_isPrefix {fewer : List Token} (view : c.Shows seen d) (part : fewer <+: seen) :
    c.Shows fewer d :=
  ⟨view.proper, view.last, view.comments, part.trans view.tokens⟩

theorem current (view : c.Shows (t :: seen) d) : d.current = t := by
  obtain ⟨later, tokens⟩ := d.exists_tokens_eq
  have start := view.tokens
  rw [tokens] at start
  exact (List.cons_prefix_cons.mp start).1.symm

/-- The same tokens are in front as long as some were seen. -/
theorem current_eq (view : c.Shows seen d) (front : [c.current] <+: seen) :
    d.current = c.current :=
  (view.of_isPrefix front).current

/-- Reading goes on behind what was read. -/
theorem behind (view : c.Shows (own ++ t :: seen) d) (c' : Cursor) :
    c'.Shows (t :: seen) (d.behind own c') := by
  obtain ⟨later, whole⟩ := view.tokens
  have size := congrArg List.length whole
  simp only [Cursor.tokens, List.length_append, List.length_cons, List.length_nil] at size
  have less : own.length ≤ d.rest.length := by omega
  refine ⟨view.proper.of_suffix (List.drop_suffix _ _) rfl, rfl, rfl, later, ?_⟩
  have rest := congrArg (List.drop own.length) whole
  rw [List.append_assoc, List.drop_left, Cursor.tokens, List.drop_append_of_le_length less] at rest
  exact rest

/-- One token further. -/
theorem advance_eq (view : c.Shows (c.current :: seen) d) (ends : c.EndsFile)
    (some : c.current.kind ≠ .eof) : d.advance = d.behind [c.current] c.advance := by
  have front := view.current
  have file := view.proper.ends
  have last := view.last
  have comments := view.comments
  obtain ⟨rest, stop, place, pending⟩ := d
  cases rest with
  | nil => exact absurd file (by rwa [← front] at some)
  | cons token rest =>
    obtain rfl : token = c.current := front
    obtain ⟨rest', stop', place', pending'⟩ := c
    cases rest' with
    | nil => exact absurd ends some
    | cons token' rest' =>
      obtain rfl : pending = pending' := comments
      rfl

end Shows

end Cursor

namespace TokenReader

variable {kind : TokenKind} {cause : Cause} {c : Cursor}

theorem run_bind_of_ok {α β : Type} {x : TokenReader α} {f : α → TokenReader β} {a : α}
    {c' : Cursor} (run : x.run c = .ok (a, c')) : (x >>= f).run c = (f a).run c' := by
  rw [StateT.run_bind, run]
  rfl

theorem run_bind_of_error {α β : Type} {x : TokenReader α} {f : α → TokenReader β} {e : Failure}
    (run : x.run c = .error e) : (x >>= f).run c = .error e := by
  rw [StateT.run_bind, run]
  rfl

theorem run_accept_of_eq (front : c.current.kind = kind) :
    (accept kind : TokenReader Bool).run c = .ok (true, c.advance) := by
  change (if c.current.kind = kind then do let _ ← next; return true
    else return false : TokenReader Bool).run c = _
  rw [if_pos front]
  rfl

theorem run_accept_of_ne (front : c.current.kind ≠ kind) :
    (accept kind : TokenReader Bool).run c = .ok (false, c) := by
  change (if c.current.kind = kind then do let _ ← next; return true
    else return false : TokenReader Bool).run c = _
  rw [if_neg front]
  rfl

theorem run_expect_of_eq (front : c.current.kind = kind) :
    (expect kind cause : TokenReader Token).run c = .ok (c.current, c.advance) := by
  change (if c.current.kind = kind then next else fail cause : TokenReader Token).run c = _
  rw [if_pos front]
  rfl

theorem run_expect_of_ne (front : c.current.kind ≠ kind) :
    (expect kind cause : TokenReader Token).run c =
      .error ⟨⟨cause, c.current.kind, c.current.span.start⟩, c⟩ := by
  change (if c.current.kind = kind then next else fail cause : TokenReader Token).run c = _
  rw [if_neg front]
  rfl

theorem run_kindOf (t : SourceTree) (c : Cursor) :
    (kindOf t : TokenReader (Kind SourceTree)).run c = .ok (t.kind, c) := rfl

theorem run_attach (t : SourceTree) (leading trailing : List Comment) (c : Cursor) :
    (attach t leading trailing : TokenReader SourceTree).run c =
      .ok (t.withComments leading trailing, c) := rfl

theorem run_atBlockEnd (c : Cursor) :
    (atBlockEnd : TokenReader Bool).run c = .ok (c.current.kind.endsBlock, c) := by
  have front : (peekKind : TokenReader TokenKind).run c = .ok (c.current.kind, c) := rfl
  unfold atBlockEnd
  refine (run_bind_of_ok front).trans ?_
  cases c.current.kind <;> rfl

end TokenReader

namespace Grammar

open Cursor TokenReader

variable {α β : Type}

/-- The outcome at every depth that is large enough. -/
def Finally (x : Rules → TokenReader α) (c : Cursor) (outcome : Except Failure (α × Cursor)) :
    Prop :=
  ∃ enough, ∀ depth ≥ enough, (x (rules depth)).run c = outcome

section Finally

variable {x y : Rules → TokenReader α} {f : Rules → α → TokenReader β} {c c' : Cursor} {a : α}
  {outcome : Except Failure (α × Cursor)}

theorem Finally.of_run (run : ∀ depth, (x (rules depth)).run c = outcome) : Finally x c outcome :=
  ⟨0, fun depth _ => run depth⟩

theorem Finally.bind {result : Except Failure (β × Cursor)} (first : Finally x c (.ok (a, c')))
    (second : Finally (fun r => f r a) c' result) : Finally (fun r => x r >>= f r) c result := by
  obtain ⟨enough, first⟩ := first
  obtain ⟨more, second⟩ := second
  refine ⟨max enough more, fun depth large => ?_⟩
  exact (run_bind_of_ok (first depth (by omega))).trans (second depth (by omega))

theorem Finally.bind_error {e : Failure} (first : Finally x c (.error e)) :
    Finally (fun r => x r >>= f r) c (.error e) := by
  obtain ⟨enough, first⟩ := first
  exact ⟨enough, fun depth large => run_bind_of_error (first depth large)⟩

/-- The last outcome is one. -/
theorem Finally.unique {other : Except Failure (α × Cursor)} (one : Finally x c outcome)
    (two : Finally x c other) : outcome = other := by
  obtain ⟨enough, one⟩ := one
  obtain ⟨more, two⟩ := two
  exact (one _ (Nat.le_max_left _ _)).symm.trans (two _ (Nat.le_max_right _ _))

/-- A rule does what its production does one level deeper. -/
theorem Finally.of_step {rule : Rule α} (last : Finally (fun r => step r α rule) c outcome) :
    Finally (fun r => r α rule) c outcome := by
  obtain ⟨enough, last⟩ := last
  refine ⟨enough + 1, fun depth large => ?_⟩
  obtain ⟨depth, rfl⟩ : ∃ k, depth = k + 1 := ⟨depth - 1, by omega⟩
  exact last depth (by omega)

theorem Derives.finally {rule : Rule α} (ends : c.EndsFile) (read : Derives α rule c a c') :
    Finally (fun r => r α rule) c (.ok (a, c')) :=
  ⟨weight rule c + 1, fun _ large => (reads_of_weight_lt ends large read).1⟩

theorem Finally.derives {rule : Rule α} (ends : c.EndsFile)
    (last : Finally (fun r => r α rule) c (.ok (a, c'))) : Derives α rule c a c' := by
  obtain ⟨enough, last⟩ := last
  exact (reads_of_weight_lt ends (Nat.lt_succ_self _) (last enough (Nat.le_refl _))).1

end Finally

/-- The reader yields a value behind the tokens `own`, whatever follows the token in front then. -/
structure Yields (x : Rules → TokenReader α) (c : Cursor) (own : List Token) (a : α)
    (c' : Cursor) : Prop where
  consumes : Consumes c own c'
  always : ∀ d, c.Shows (own ++ [c'.current]) d → Finally x d (.ok (a, d.behind own c'))

/-- The reader fails behind the tokens `own` and names the token in front there, whatever follows
it. -/
structure Refuses (x : Rules → TokenReader α) (c : Cursor) (own : List Token) (e : Failure) :
    Prop where
  consumes : Consumes c own e.cursor
  cause : e.error.cause ≠ .nesting
  token : e.error.token = e.cursor.current.kind
  position : e.error.position = e.cursor.current.span.start
  always : ∀ d, c.Shows (own ++ [e.cursor.current]) d →
    Finally x d (.error ⟨e.error, d.behind own e.cursor⟩)

/-- If a semicolon stands behind the tokens `own`, which end where the span does, then the reader
fails at the token behind the semicolon, unless that ends a block. -/
structure Trapped (x : Rules → TokenReader α) (c : Cursor) (own : List Token) (span : Span) :
    Prop where
  tokens : own <+: c.rest
  ends : ∃ last ∈ own.getLast?, last.span.endOffset = span.endOffset
  always : ∀ semicolon u d, semicolon.kind = .semicolon → u.kind.endsBlock = false →
    c.Shows (own ++ [semicolon, u]) d →
      ∃ d', Finally x d (.error ⟨⟨.afterTerminal, u.kind, u.span.start⟩, d'⟩)

/-- A statement behind which its block must end is read in the same way with a semicolon behind
it. -/
def EndsSoftly : Prop :=
  ∀ {c d c' : Cursor} {own : List Token} {semicolon : Token} {t : SourceTree}, c.Proper →
    Derives _ .statement c t c' → t.kind.isTerminal = true → Consumes c own c' →
    semicolon.kind = .semicolon → c.Shows (own ++ [semicolon]) d →
    Derives _ .statement d t (d.behind own c')

/-- What a reader does at a cursor is decided by what it has seen, and it has read at least `fewest`
tokens by then. Statements behind which a block must end are known or trapped. -/
inductive Decided (R : Rules) (fewest : Nat) (known : List Span) (found : α → List Span)
    (x : Rules → TokenReader α) (c : Cursor) : Prop where
  | ok {own : List Token} {a : α} {c' : Cursor} (run : (x R).run c = .ok (a, c'))
      (enough : fewest ≤ own.length) (yields : Yields x c own a c')
      (trapped : EndsSoftly → ∀ span ∈ found a,
        span ∈ known ∨ ∃ own, fewest ≤ own.length ∧ Trapped x c own span)
  | error {own : List Token} {e : Failure} (run : (x R).run c = .error e)
      (enough : fewest ≤ own.length) (refuses : Refuses x c own e)

section Bind

variable {R : Rules} {fewest n : Nat} {known : List Span} {found : α → List Span}
  {found' : β → List Span} {x y : Rules → TokenReader α} {f : Rules → α → TokenReader β}
  {c c₁ c₂ : Cursor} {own own' : List Token} {a : α} {b : β} {e : Failure} {span : Span}

theorem Yields.shows {d : Cursor} {seen : List Token} (yields : Yields x c own a c₁)
    (front : [c₁.current] <+: seen) (view : c.Shows (own ++ seen) d) :
    Finally x d (.ok (a, d.behind own c₁)) ∧ c₁.Shows seen (d.behind own c₁) := by
  refine ⟨yields.always d (view.of_isPrefix ((List.prefix_append_right_inj own).mpr front)), ?_⟩
  cases seen with
  | nil => exact absurd front (by simp)
  | cons t seen => exact view.behind c₁

theorem Yields.bind (first : Yields x c own a c₁) (second : Yields (fun r => f r a) c₁ own' b c₂) :
    Yields (fun r => x r >>= f r) c (own ++ own') b c₂ := by
  refine ⟨first.consumes.append second.consumes, fun d view => ?_⟩
  rw [List.append_assoc] at view
  obtain ⟨begins, view⟩ := first.shows (front_prefix_of_consumes second.consumes) view
  rw [← behind_behind]
  exact begins.bind (second.always _ view)

theorem Refuses.bind (refuses : Refuses x c own e) : Refuses (fun r => x r >>= f r) c own e :=
  ⟨refuses.consumes, refuses.cause, refuses.token, refuses.position,
    fun d view => (refuses.always d view).bind_error⟩

theorem Yields.refuses (first : Yields x c own a c₁)
    (second : Refuses (fun r => f r a) c₁ own' e) :
    Refuses (fun r => x r >>= f r) c (own ++ own') e := by
  refine ⟨first.consumes.append second.consumes, second.cause, second.token, second.position,
    fun d view => ?_⟩
  rw [List.append_assoc] at view
  obtain ⟨begins, view⟩ := first.shows (front_prefix_of_consumes second.consumes) view
  rw [← behind_behind]
  exact begins.bind (second.always _ view)

theorem Trapped.bind (trapped : Trapped x c own span) :
    Trapped (fun r => x r >>= f r) c own span :=
  ⟨trapped.tokens, trapped.ends, fun semicolon u d kind goesOn view =>
    (trapped.always semicolon u d kind goesOn view).imp fun _ => Finally.bind_error⟩

/-- The tokens of a statement begin with the one in front. -/
theorem Trapped.front (trapped : Trapped x c own span) : [c.current] <+: own := by
  have some : own ≠ [] := by
    obtain ⟨last, member, -⟩ := trapped.ends
    rintro rfl
    cases member
  exact List.prefix_of_prefix_length_le c.front_isPrefix
    (trapped.tokens.trans (List.prefix_append _ _)) (List.length_pos_iff.mpr some)

theorem Yields.trapped (first : Yields x c own a c₁)
    (second : Trapped (fun r => f r a) c₁ own' span) :
    Trapped (fun r => x r >>= f r) c (own ++ own') span := by
  obtain ⟨last, member, ends⟩ := second.ends
  refine ⟨?_, ⟨last, ?_, ends⟩, fun semicolon u d kind goesOn view => ?_⟩
  · rw [first.consumes.rest]
    exact (List.prefix_append_right_inj own).mpr second.tokens
  · rw [List.getLast?_append, Option.mem_def.mp member]
    rfl
  · rw [List.append_assoc] at view
    obtain ⟨begins, view⟩ := first.shows (second.front.trans (List.prefix_append _ _)) view
    exact (second.always semicolon u _ kind goesOn view).imp fun _ => begins.bind

theorem Yields.length_le (yields : Yields x c own a c₁) : c₁.rest.length ≤ c.rest.length := by
  rw [yields.consumes.rest, List.length_append]
  omega

theorem Yields.proper (yields : Yields x c own a c₁) (proper : c.Proper) : c₁.Proper :=
  proper.of_suffix (yields.consumes.rest ▸ List.suffix_append _ _) yields.consumes.stop

/-- A reader that has yielded a value, and what is done with it. -/
theorem Yields.followed (run : (x R).run c = .ok (a, c₁))
    (yields : Yields x c own a c₁)
    (further : Decided R (fewest - own.length) known found' (fun r => f r a) c₁) :
    Decided R fewest known found' (fun r => x r >>= f r) c := by
  cases further with
  | error run' enough refuses =>
    refine .error ((run_bind_of_ok run).trans run') ?_ (yields.refuses refuses)
    rw [List.length_append]
    omega
  | ok run' enough yields' trapped =>
    refine .ok ((run_bind_of_ok run).trans run') ?_ (yields.bind yields')
      fun softly span member => ?_
    · rw [List.length_append]
      omega
    · obtain is | ⟨own, enough, traps⟩ := trapped softly span member
      · exact .inl is
      · refine .inr ⟨_, ?_, yields.trapped traps⟩
        rw [List.length_append]
        omega

/-- Statements that are trapped need not be known. -/
theorem Decided.forget (more : List Span) (decided : Decided R fewest (known ++ more) found x c)
    (trapped : EndsSoftly → ∀ span ∈ more,
      span ∈ known ∨ ∃ own, fewest ≤ own.length ∧ Trapped x c own span) :
    Decided R fewest known found x c := by
  cases decided with
  | error run enough refuses => exact .error run enough refuses
  | ok run enough yields others =>
    refine .ok run enough yields fun softly span member => ?_
    obtain is | traps := others softly span member
    · exact (List.mem_append.mp is).elim .inl (trapped softly span)
    · exact .inr traps

/-- One reader and then another one. -/
theorem Decided.bind (first : Decided R fewest known found x c)
    (further : ∀ own a c₁, (x R).run c = .ok (a, c₁) → Yields x c own a c₁ →
      Decided R 0 (known ++ found a) found' (fun r => f r a) c₁) :
    Decided R fewest known found' (fun r => x r >>= f r) c := by
  cases first with
  | error run enough refuses =>
    exact .error (run_bind_of_error run) enough refuses.bind
  | @ok own a c₁ run enough yields trapped =>
    have later := further own a c₁ run yields
    rw [← Nat.sub_eq_zero_of_le enough] at later
    refine (yields.followed run later).forget _ fun softly span member => ?_
    obtain is | ⟨own, enough, traps⟩ := trapped softly span member
    · exact .inl is
    · exact .inr ⟨own, enough, traps.bind⟩

/-- What is done now is done at every depth that is large enough. -/
theorem Decided.finally (decided : Decided R fewest known found x c) (proper : c.Proper) :
    Finally x c ((x R).run c) := by
  cases decided with
  | error run enough refuses =>
    have last := refuses.always c (.refl proper refuses.consumes.seen)
    rw [refuses.consumes.behind] at last
    rw [run]
    exact last
  | ok run enough yields trapped =>
    have last := yields.always c (.refl proper yields.consumes.seen)
    rw [yields.consumes.behind] at last
    rw [run]
    exact last

/-- Readers that do the same wherever enough of the same tokens are in front. -/
theorem Decided.congr (decided : Decided R fewest known found x c)
    (here : ∀ r, (y r).run c = (x r).run c)
    (there : ∀ r d seen, fewest < seen.length → seen <+: c.tokens → c.Shows seen d →
      (y r).run d = (x r).run d)
    (trap : ∀ r d own semicolon, fewest ≤ own.length → [c.current] <+: own → own <+: c.tokens →
      semicolon.kind = .semicolon → c.Shows (own ++ [semicolon]) d → (y r).run d = (x r).run d) :
    Decided R fewest known found y c := by
  have transfer {d : Cursor} {outcome : Except Failure (α × Cursor)}
      (same : ∀ r, (y r).run d = (x r).run d) (last : Finally x d outcome) :
      Finally y d outcome := by
    obtain ⟨enough, last⟩ := last
    exact ⟨enough, fun depth large => (same _).trans (last depth large)⟩
  cases decided with
  | error run enough refuses =>
    refine .error ((here _).trans run) enough { refuses with always := fun d view => ?_ }
    refine transfer (fun r => there r d _ ?_ refuses.consumes.seen view) (refuses.always d view)
    simpa using Nat.lt_succ_of_le enough
  | ok run enough yields trapped =>
    refine .ok ((here _).trans run) enough { yields with always := fun d view => ?_ }
      fun softly span member => ?_
    · refine transfer (fun r => there r d _ ?_ yields.consumes.seen view) (yields.always d view)
      simpa using Nat.lt_succ_of_le enough
    · refine (trapped softly span member).imp_right fun ⟨own, enough, traps⟩ => ⟨own, enough, ?_⟩
      refine { traps with always := fun semicolon u d kind goesOn view => ?_ }
      refine (traps.always semicolon u d kind goesOn view).imp fun _ => transfer fun r => ?_
      refine trap r d own semicolon enough traps.front ?_ kind (view.of_isPrefix ?_)
      · exact traps.tokens.trans (List.prefix_append _ _)
      · exact (List.prefix_append_right_inj own).mpr ⟨[u], rfl⟩

theorem Decided.fewer {less : Nat} (decided : Decided R fewest known found x c)
    (smaller : less ≤ fewest) : Decided R less known found x c := by
  cases decided with
  | error run enough refuses => exact .error run (smaller.trans enough) refuses
  | ok run enough yields trapped =>
    refine .ok run (smaller.trans enough) yields fun softly span member => ?_
    exact (trapped softly span member).imp_right
      fun ⟨own, enough, traps⟩ => ⟨own, smaller.trans enough, traps⟩

theorem Decided.ite {p : Prop} [Decidable p] (yes : p → Decided R fewest known found x c)
    (no : ¬ p → Decided R fewest known found y c) :
    Decided R fewest known found (fun r => if p then x r else y r) c := by
  by_cases holds : p
  · simp only [if_pos holds]
    exact yes holds
  · simp only [if_neg holds]
    exact no holds

end Bind

section Steps

variable {R : Rules} {fewest n : Nat} {known : List Span} {found : α → List Span}
  {f : Rules → β → TokenReader α} {x y : Rules → TokenReader α} {c c₁ : Cursor} {a : α}

/-- A step that reads nothing, with what it yields and what it leaves pending. -/
theorem decided_step {z : TokenReader β} {b : β} (run : z.run c = .ok (b, c₁))
    (rest : c₁.rest = c.rest) (stop : c₁.stop = c.stop) (last : c₁.last = c.last)
    (same : ∀ d, c.Shows [c.current] d → z.run d = .ok (b, d.behind [] c₁))
    (further : Decided R fewest known found (fun r => f r b) c₁) :
    Decided R fewest known found (fun r => z >>= f r) c := by
  have front : c₁.current = c.current := by
    rw [current, current, rest, stop]
  have yields : Yields (fun _ => z) c [] b c₁ := by
    refine ⟨⟨rest.symm, stop, last⟩, fun d view => .of_run fun _ => same d ?_⟩
    rwa [List.nil_append, front] at view
  exact yields.followed run further

theorem decided_pure (all : ∀ span ∈ found a, span ∈ known) :
    Decided R 0 known found (fun _ => pure a) c := by
  have yields : Yields (fun _ => pure a) c [] a c := by
    refine ⟨⟨rfl, rfl, rfl⟩, fun d view => .of_run fun _ => ?_⟩
    rw [behind_nil, ← view.last, ← view.comments]
    rfl
  exact .ok rfl (Nat.zero_le _) yields fun _ span member => .inl (all span member)

theorem decided_fail {cause : Cause} (cause_ne : cause ≠ .nesting) :
    Decided R 0 known found (fun _ => fail cause) c := by
  have refuses : Refuses (fun _ => (fail cause : TokenReader α)) c []
      ⟨⟨cause, c.current.kind, c.current.span.start⟩, c⟩ := by
    refine ⟨⟨rfl, rfl, rfl⟩, cause_ne, rfl, rfl, fun d view => .of_run fun _ => ?_⟩
    rw [behind_nil, ← view.current, ← view.last, ← view.comments]
    rfl
  exact .error rfl (Nat.zero_le _) refuses

theorem bind_fail {cause : Cause} (cause_ne : cause ≠ .nesting) :
    Decided R 0 known found (fun r => fail cause >>= f r) c := by
  have fails : Decided R 0 known (fun _ : β => []) (fun _ => fail cause) c :=
    decided_fail cause_ne
  exact fails.bind fun _ _ _ run _ => absurd run gives_fail

theorem bind_peek {f : Rules → Token → TokenReader α}
    (further : Decided R fewest known found (fun r => f r c.current) c) :
    Decided R fewest known found (fun r => peek >>= f r) c := by
  refine decided_step rfl rfl rfl rfl (fun d view => ?_) further
  rw [behind_nil, ← view.last, ← view.comments, ← view.current]
  rfl

theorem bind_peekKind {f : Rules → TokenKind → TokenReader α}
    (further : Decided R fewest known found (fun r => f r c.current.kind) c) :
    Decided R fewest known found (fun r => peekKind >>= f r) c := by
  refine decided_step rfl rfl rfl rfl (fun d view => ?_) further
  rw [behind_nil, ← view.last, ← view.comments, ← view.current]
  rfl

/-- A reader that looks at nothing but the token in front and the line before it. -/
theorem bind_getThe {f : Rules → Cursor → TokenReader α}
    (same : ∀ r d, d.current = c.current → d.last = c.last → f r d = f r c)
    (further : Decided R fewest known found (fun r => f r c) c) :
    Decided R fewest known found (fun r => getThe Cursor >>= f r) c := by
  have replaced (r : Rules) {d : Cursor} {seen : List Token} (front : [c.current] <+: seen)
      (view : c.Shows seen d) : (getThe Cursor >>= f r : TokenReader α).run d = (f r c).run d := by
    rw [← same r d (view.current_eq front) view.last]
    rfl
  refine further.congr (fun _ => rfl) (fun r d seen enough tokens => replaced r ?_)
    fun r d own semicolon enough front tokens kind => replaced r ?_
  · exact List.prefix_of_prefix_length_le c.front_isPrefix tokens (Nat.zero_lt_of_lt enough)
  · exact front.trans (List.prefix_append _ _)

/-- A reader that looks at the token behind the one in front, and is never decided before it has
read the one in front. If it is decided by then, it takes a semicolon for the token behind. -/
theorem bind_followingKind {f : Rules → TokenKind → TokenReader α} (some : 1 ≤ fewest)
    (semicolon : fewest = 1 → ∀ r, f r .semicolon = f r c.following.kind)
    (further : Decided R fewest known found (fun r => f r c.following.kind) c) :
    Decided R fewest known found (fun r => followingKind >>= f r) c := by
  have replaced (r : Rules) {d : Cursor} (same : f r d.following.kind = f r c.following.kind) :
      (followingKind >>= f r).run d = (f r c.following.kind).run d := by
    rw [← same]
    rfl
  refine further.congr (fun _ => rfl) (fun r d seen enough tokens view => ?_)
    fun r d own token enough front tokens kind view => replaced r ?_
  · match seen, enough with
    | first :: second :: seen, _ =>
      rw [replaced r]
      rw [following_of_isPrefix tokens, following_of_isPrefix view.tokens]
    | [], enough => exact absurd enough (by simp)
    | [_], enough => exact absurd enough (Nat.not_lt.mpr some)
  · match own, enough, front with
    | first :: second :: own, _, _ =>
      rw [following_of_isPrefix tokens, following_of_isPrefix view.tokens]
    | [first], enough, _ =>
      rw [following_of_isPrefix view.tokens, kind]
      exact semicolon (Nat.le_antisymm enough some) r
    | [], _, front => exact absurd front (by simp)

theorem bind_atBlockEnd {f : Rules → Bool → TokenReader α}
    (further : Decided R fewest known found (fun r => f r c.current.kind.endsBlock) c) :
    Decided R fewest known found (fun r => atBlockEnd >>= f r) c := by
  refine decided_step (run_atBlockEnd c) rfl rfl rfl (fun d view => ?_) further
  rw [behind_nil, ← view.last, ← view.comments, run_atBlockEnd, ← view.current]

theorem decided_make {origin : Origin} {kind : Kind SourceTree} {found : SourceTree → List Span}
    (all : ∀ span ∈ found (.node origin kind), span ∈ known) :
    Decided R 0 known found (fun _ => make origin kind) c :=
  decided_pure all

theorem bind_spanOf {t : SourceTree} {f : Rules → Span → TokenReader α}
    (further : Decided R fewest known found (fun r => f r t.span) c) :
    Decided R fewest known found (fun r => spanOf t >>= f r) c :=
  further

theorem bind_kindOf {t : SourceTree} {f : Rules → Kind SourceTree → TokenReader α}
    (further : Decided R fewest known found (fun r => f r t.kind) c) :
    Decided R fewest known found (fun r => kindOf t >>= f r) c :=
  further

theorem bind_attach {t : SourceTree} {leading trailing : List Comment}
    {f : Rules → SourceTree → TokenReader α}
    (further : Decided R fewest known found (fun r => f r (t.withComments leading trailing)) c) :
    Decided R fewest known found (fun r => attach t leading trailing >>= f r) c :=
  further

theorem decided_nodeFrom {start : Span} {kind : Kind SourceTree} {found : SourceTree → List Span}
    (all : ∀ span ∈ found (c.close start kind), span ∈ known) :
    Decided R 0 known found (fun _ => nodeFrom start kind) c := by
  have yields : Yields (fun _ => nodeFrom start kind) c [] (c.close start kind) c := by
    refine ⟨⟨rfl, rfl, rfl⟩, fun d view => .of_run fun _ => ?_⟩
    rw [behind_nil, close, ← view.last, ← view.comments]
    rfl
  exact .ok rfl (Nat.zero_le _) yields fun _ span member => .inl (all span member)

theorem bind_nodeFrom {start : Span} {kind : Kind SourceTree}
    {f : Rules → SourceTree → TokenReader α}
    (further : Decided R fewest known found (fun r => f r (c.close start kind)) c) :
    Decided R fewest known found (fun r => nodeFrom start kind >>= f r) c := by
  refine decided_step rfl rfl rfl rfl (fun d view => ?_) further
  rw [behind_nil, ← view.last, ← view.comments]
  rfl

theorem bind_takeLeading {f : Rules → List Comment → TokenReader α}
    (further : Decided R fewest known found (fun r => f r c.leading) c.afterLeading) :
    Decided R fewest known found (fun r => takeLeading >>= f r) c := by
  refine decided_step rfl rfl rfl rfl (fun d view => ?_) further
  have before : d.isBefore = c.isBefore := by
    funext comment
    rw [isBefore, isBefore, view.current]
  change Except.ok (d.leading, d.afterLeading) = _
  rw [behind_nil, leading, afterLeading, before, view.comments, view.last]
  rfl

theorem bind_takeTrailing {f : Rules → List Comment → TokenReader α}
    (further : Decided R fewest known found (fun r => f r c.trailing) c.afterTrailing) :
    Decided R fewest known found (fun r => takeTrailing >>= f r) c := by
  refine decided_step rfl rfl rfl rfl (fun d view => ?_) further
  have inside : d.isInside = c.isInside := by
    funext comment
    rw [isInside, isInside, view.last]
  have trails : d.trails = c.trails := by
    funext comment
    rw [Cursor.trails, Cursor.trails, isBefore, isBefore, view.current, view.last]
  change Except.ok (d.trailing, d.afterTrailing) = _
  rw [behind_nil, trailing, afterTrailing, inside, trails, view.comments, view.last]
  rfl

end Steps

/-- A place before which at least one token of a production's own is to be read. -/
structure Ready (n : Nat) (c : Cursor) : Prop where
  proper : c.Proper
  room : 16 * c.rest.length ≤ n

/-- A place from which any rule may be called. -/
structure Roomy (n : Nat) (c : Cursor) : Prop where
  proper : c.Proper
  room : 16 * c.rest.length + 12 ≤ n

/-- What a rule needs to be given: the statements in the tree that it goes on with are known, and
the cause that it names is one of the grammar. -/
def Admits : {α : Type} → Rule α → List Span → Prop
  | _, .moreNames cause, _ => cause ≠ .nesting
  | _, .dottedName head, known => head.terminals ⊆ known
  | _, .operators _ left, known => left.terminals ⊆ known
  | _, .suffixes head, known => head.terminals ⊆ known
  | _, _, _ => True

/-- The statements in what a rule yields behind which a block must end; the rule for a statement
does not see yet where its block ends. -/
def terminalsOf : {α : Type} → Rule α → α → List Span
  | _, .block, t => t.terminals
  | _, .statements, ts => ts.flatMap Tree.terminals
  | _, .statement, t => t.innerTerminals
  | _, .elseIfs, ts => ts.flatMap Tree.terminals
  | _, .moreTargets, ts => ts.flatMap Tree.terminals
  | _, .moreNames _, ts => ts.flatMap Tree.terminals
  | _, .dottedName _, t => t.terminals
  | _, .expressions, ts => ts.flatMap Tree.terminals
  | _, .moreExpressions, ts => ts.flatMap Tree.terminals
  | _, .expression _, t => t.terminals
  | _, .operators _ _, t => t.terminals
  | _, .suffixes _, t => t.terminals
  | _, .fields, ts => ts.flatMap Tree.terminals
  | _, .parameters, ts => ts.flatMap Tree.terminals

/-- Below a weight, what the rules do is decided. They read what the grammar reads. -/
structure Calls (R : Rules) (n : Nat) : Prop where
  decided : ∀ {α : Type} {rule : Rule α} {known : List Span} {c : Cursor}, c.Proper →
    weight rule c < n → Admits rule known →
    Decided R 0 known (terminalsOf rule) (fun r => r α rule) c
  derives : ∀ {α : Type} {rule : Rule α} {c c' : Cursor} {a : α}, c.EndsFile →
    (R α rule).Gives c a c' → Derives α rule c a c'

section Tokens

variable {R : Rules} {fewest n : Nat} {known : List Span} {found : α → List Span}
  {f : Rules → β → TokenReader α} {x y : Rules → TokenReader α} {c : Cursor}

theorem Roomy.ready (roomy : Roomy n c) : Ready n c :=
  ⟨roomy.proper, by have := roomy.room; omega⟩

theorem Roomy.after {c₁ : Cursor} (roomy : Roomy n c) (proper : c₁.Proper)
    (shorter : c₁.rest.length ≤ c.rest.length) : Roomy n c₁ := by
  have := roomy.room
  exact ⟨proper, by omega⟩

theorem Ready.after {c₁ : Cursor} (ready : Ready n c) (proper : c₁.Proper)
    (shorter : Shortens 1 c c₁) : Roomy n c₁ := by
  have := ready.room
  have := shorter.length
  exact ⟨proper, by omega⟩

theorem Ready.advance (ready : Ready n c) (some : c.current.kind ≠ .eof) : Roomy n c.advance :=
  ready.after ready.proper.advance (shortens_advance ready.proper.ends some)

theorem Roomy.skip (roomy : Roomy n c) (kind : TokenKind) : Roomy n (c.skip kind) := by
  unfold Cursor.skip
  split
  · exact roomy.after roomy.proper.advance (shortens_advance_any c).length
  · exact roomy

/-- Comments are not tokens. -/
theorem Ready.comments (ready : Ready n c) (pending : List Comment) :
    Ready n { c with comments := pending } :=
  ⟨⟨ready.proper.ends, ready.proper.inside⟩, ready.room⟩

theorem Roomy.comments (roomy : Roomy n c) (pending : List Comment) :
    Roomy n { c with comments := pending } :=
  ⟨⟨roomy.proper.ends, roomy.proper.inside⟩, roomy.room⟩

/-- Behind a token. -/
theorem decided_advance {z : TokenReader β} {b : β} (ready : Ready n c)
    (some : c.current.kind ≠ .eof) (run : z.run c = .ok (b, c.advance))
    (same : ∀ d, d.current = c.current → z.run d = .ok (b, d.advance))
    (further : Roomy n c.advance →
      Decided R (fewest - 1) known found (fun r => f r b) c.advance) :
    Decided R fewest known found (fun r => z >>= f r) c := by
  have yields : Yields (fun _ => z) c [c.current] b c.advance := by
    refine ⟨consumes_advance ready.proper.ends some, fun d view => ?_⟩
    refine .of_run fun _ => ?_
    rw [same d view.current, view.advance_eq ready.proper.ends some]
  exact yields.followed run (further (ready.advance some))

theorem bind_next {f : Rules → Token → TokenReader α} (ready : Ready n c)
    (some : c.current.kind ≠ .eof)
    (further : Roomy n c.advance →
      Decided R (fewest - 1) known found (fun r => f r c.current) c.advance) :
    Decided R fewest known found (fun r => next >>= f r) c :=
  decided_advance ready some rfl (fun d front => by rw [← front]; rfl) further

theorem bind_accept {kind : TokenKind} (ready : Ready n c) (notEnd : kind ≠ .eof)
    (yes : c.current.kind = kind → Roomy n c.advance →
      Decided R (fewest - 1) known found x c.advance)
    (no : c.current.kind ≠ kind → Decided R fewest known found y c) :
    Decided R fewest known found
      (fun r => accept kind >>= fun found => if found then x r else y r) c := by
  by_cases front : c.current.kind = kind
  · refine decided_advance ready (front ▸ notEnd) (run_accept_of_eq front) (fun d same => ?_)
      fun roomy => ?_
    · exact run_accept_of_eq (same ▸ front)
    · simpa only [if_true] using yes front roomy
  · refine decided_step (run_accept_of_ne front) rfl rfl rfl (fun d view => ?_) ?_
    · rw [run_accept_of_ne (view.current ▸ front), behind_nil, ← view.last, ← view.comments]
    · simpa only [Bool.false_eq_true, if_false] using no front

/-- A token that may be left out. -/
theorem bind_skip (kind : TokenKind) (ready : Ready n c) (notEnd : kind ≠ .eof)
    (further : Decided R 0 known found x (c.skip kind)) :
    Decided R 0 known found (fun r => accept kind >>= fun _ => x r) c := by
  by_cases front : c.current.kind = kind
  · rw [skip, if_pos front] at further
    exact decided_advance ready (front ▸ notEnd) (run_accept_of_eq front)
      (fun d same => run_accept_of_eq (same ▸ front)) fun _ => further
  · rw [skip, if_neg front] at further
    refine decided_step (run_accept_of_ne front) rfl rfl rfl (fun d view => ?_) further
    rw [run_accept_of_ne (view.current ▸ front), behind_nil, ← view.last, ← view.comments]

theorem bind_expect {kind : TokenKind} {cause : Cause} {f : Rules → Token → TokenReader α}
    (ready : Ready n c) (notEnd : kind ≠ .eof) (cause_ne : cause ≠ .nesting)
    (further : c.current.kind = kind → Roomy n c.advance →
      Decided R 0 known found (fun r => f r c.current) c.advance) :
    Decided R 0 known found (fun r => expect kind cause >>= f r) c := by
  by_cases front : c.current.kind = kind
  · refine decided_advance ready (front ▸ notEnd) ?_ (fun d same => ?_) (further front)
    · exact run_expect_of_eq front
    · rw [run_expect_of_eq (same ▸ front), same]
  · have refuses : Refuses (fun _ => (expect kind cause : TokenReader Token)) c []
        ⟨⟨cause, c.current.kind, c.current.span.start⟩, c⟩ := by
      refine ⟨⟨rfl, rfl, rfl⟩, cause_ne, rfl, rfl, fun d view => .of_run fun _ => ?_⟩
      rw [run_expect_of_ne (view.current ▸ front), behind_nil, ← view.last, ← view.comments,
        view.current]
    exact .error (run_bind_of_error (run_expect_of_ne front)) (Nat.zero_le _) refuses.bind

theorem bind_name {cause : Cause} {f : Rules → SourceTree → TokenReader α} (ready : Ready n c)
    (cause_ne : cause ≠ .nesting)
    (further : Roomy n c.advance →
      Decided R 0 known found (fun r => f r (c.leaf (.identifier c.current.lexeme))) c.advance) :
    Decided R 0 known found (fun r => name cause >>= f r) c := by
  simp only [name, bind_assoc]
  exact bind_expect ready (by decide) cause_ne fun _ roomy => further roomy

/-- A name that is known to be there. -/
theorem bind_name_of_eq {cause : Cause} {f : Rules → SourceTree → TokenReader α} (ready : Ready n c)
    (front : c.current.kind = .identifier)
    (further : Roomy n c.advance → Decided R (fewest - 1) known found
      (fun r => f r (c.leaf (.identifier c.current.lexeme))) c.advance) :
    Decided R fewest known found (fun r => name cause >>= f r) c := by
  simp only [name, bind_assoc]
  refine decided_advance (b := c.current) ready (by simp [front]) ?_ (fun d same => ?_) further
  · exact run_expect_of_eq front
  · rw [run_expect_of_eq (same ▸ front), same]

/-- A part of a production that reads at least one token. -/
theorem Decided.first {x : Rules → TokenReader β} {found' : β → List Span}
    (first : Decided R 0 known found' x c) (ready : Ready n c)
    (progress : ∀ b c₁, (x R).Gives c b c₁ → Shortens 1 c c₁)
    (further : ∀ b c₁, Roomy n c₁ →
      Decided R 0 (known ++ found' b) found (fun r => f r b) c₁) :
    Decided R 0 known found (fun r => x r >>= f r) c :=
  first.bind fun _ b c₁ run yields =>
    further b c₁ (ready.after (yields.proper ready.proper) (progress b c₁ run))

/-- A part of a production behind its first token. -/
theorem Decided.later {x : Rules → TokenReader β} {found' : β → List Span}
    (first : Decided R 0 known found' x c) (roomy : Roomy n c)
    (further : ∀ b c₁, Roomy n c₁ →
      Decided R 0 (known ++ found' b) found (fun r => f r b) c₁) :
    Decided R 0 known found (fun r => x r >>= f r) c :=
  first.bind fun _ b c₁ _ yields =>
    further b c₁ (roomy.after (yields.proper roomy.proper) yields.length_le)

variable {rule : Rule β}

/-- A rule that is called before anything is read, and that reads at least one token. -/
theorem Calls.first (calls : Calls R n) (ready : Ready n c) (below : weight rule c < n)
    (progress : least rule = 1) (admits : Admits rule known)
    (further : ∀ b c₁, Roomy n c₁ →
      Decided R 0 (known ++ terminalsOf rule b) found (fun r => f r b) c₁) :
    Decided R 0 known found (fun r => r β rule >>= f r) c := by
  refine (calls.decided ready.proper below admits).first ready (fun b c₁ given => ?_) further
  rw [← progress]
  exact (calls.derives ready.proper.ends given).shortens ready.proper.ends

/-- What the rules read, they go forward. -/
theorem Calls.below (calls : Calls R n) (m : Nat) : Below m (Reads R) Derives :=
  fun ends _ read => ⟨calls.derives ends read, (calls.derives ends read).shortens ends⟩

theorem Roomy.below (roomy : Roomy n c) (rule : Rule β) : weight rule c < n := by
  have small := rank_le rule
  have room := roomy.room
  rw [weight]
  omega

/-- A rule that is called behind a token. -/
theorem Calls.later (calls : Calls R n) (roomy : Roomy n c) (admits : Admits rule known)
    (further : ∀ b c₁, Roomy n c₁ →
      Decided R 0 (known ++ terminalsOf rule b) found (fun r => f r b) c₁) :
    Decided R 0 known found (fun r => r β rule >>= f r) c :=
  (calls.decided roomy.proper (roomy.below rule) admits).later roomy further

/-- A rule that is the last part of a production. -/
theorem Calls.last (calls : Calls R n) (rule : Rule α) (roomy : Roomy n c)
    (admits : Admits rule known) :
    Decided R 0 known (terminalsOf rule) (fun r => r α rule) c :=
  calls.decided roomy.proper (roomy.below rule) admits

end Tokens

end Grammar

end LuaTree
