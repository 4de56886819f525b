import LuaTree.Proofs.Building
import LuaTree.Proofs.Decided

/-!
# Parsing is total

Parsing a list of tokens ends with a program or with an error of the grammar,
whatever the tokens are. The rules are given a bound on their depth so that they
are plain functions; `Grammar.parser` is what they do without one, and it
satisfies their equations (`run_parser_eq`).

A cursor stands at a place of the list, never behind the first end of the file
(`Cursor.At`). Every rule keeps it there, and statements and expressions move it
forward. All that is looked up around it and all comments taken from those that
are pending are therefore in range. An arena that is filled on the way refuses
nothing (`buildTokens_eq`).
-/

namespace LuaTree

theorem beforeQuote_isPrefix (quote : Char) (escaped : Bool) (text : List Char) :
    beforeQuote quote escaped text <+: text := by
  induction text generalizing escaped with
  | nil => exact List.prefix_refl _
  | cons c rest ih =>
    unfold beforeQuote
    split
    · exact List.cons_prefix_cons.mpr ⟨rfl, ih false⟩
    · split
      · exact List.cons_prefix_cons.mpr ⟨rfl, ih true⟩
      · split
        · exact List.nil_prefix
        · exact List.cons_prefix_cons.mpr ⟨rfl, ih false⟩

/-- The contents of a token are a part of its text, from the start or from the opening quote on. -/
theorem Token.exists_contents_eq (token : Token) : ∃ first count,
    first + count ≤ token.lexeme.length ∧
      token.contents.toList = (token.lexeme.toList.drop first).take count := by
  have whole : ∃ first count, first + count ≤ token.lexeme.length ∧
      token.lexeme.toList = (token.lexeme.toList.drop first).take count :=
    ⟨0, token.lexeme.length, by simp, by simp [← String.length_toList]⟩
  unfold contents
  split
  · rename_i quote rest text
    split
    · have part := beforeQuote_isPrefix quote false rest
      refine ⟨1, (beforeQuote quote false rest).length, ?_, ?_⟩
      · have size := part.length_le
        rw [← String.length_toList, text, List.length_cons]
        omega
      · rw [text, String.toList_ofList]
        exact List.prefix_iff_eq_take.mp part
    · exact whole
  · exact whole

/-- The tokens that are parsed: a list that does not end with an end of the file gets one. -/
def Token.closed (tokens : List Token) : List Token :=
  if (tokens.getLast?.map Token.kind) = some .eof then tokens
  else tokens ++ [⟨.eof, "", ((tokens.getLast?.map Token.span).getD default).atEnd⟩]

namespace Cursor

/-- The cursor stands before the token with the given index. -/
structure At (tokens : List Token) (i : Nat) (c : Cursor) : Prop where
  proper : c.Proper
  /-- The tokens in front are those from the place on. -/
  front : c.tokens <+: tokens.drop i
  /-- No end of the file has been passed. -/
  before : ∀ t ∈ tokens.take i, t.kind ≠ .eof
  /-- What was just read is the token before the place; before the first token it is that one. -/
  previous : tokens[i - 1]?.map Token.span = some c.last

namespace At

variable {tokens : List Token} {i : Nat} {c c' : Cursor}

theorem current (here : c.At tokens i) : tokens[i]? = some c.current := by
  obtain ⟨later, front⟩ := c.front_isPrefix.trans here.front
  have first := congrArg List.head? front
  rw [List.head?_drop] at first
  exact first.symm

/-- Behind some tokens that were read. -/
theorem consumes {own : List Token} (here : c.At tokens i) (consumes : Consumes c own c') :
    c'.At tokens (i + own.length) := by
  obtain ⟨later, front⟩ := here.front
  rw [consumes.tokens, List.append_assoc] at front
  refine ⟨?_, ?_, ?_, ?_⟩
  · exact here.proper.of_suffix (consumes.rest ▸ List.suffix_append _ _) consumes.stop
  · rw [← List.drop_drop, ← front, List.drop_left]
    exact List.prefix_append _ _
  · rw [List.take_add, ← front, List.take_left]
    refine List.forall_mem_append.mpr ⟨here.before, fun t member => ?_⟩
    exact here.proper.inside t (consumes.rest ▸ List.mem_append_left _ member)
  · rw [consumes.last]
    obtain rfl | ⟨init, t, rfl⟩ := List.eq_nil_or_concat own
    · exact here.previous
    · have place : i + (init.concat t).length - 1 = i + init.length := by
        rw [List.length_concat]
        omega
      have there : tokens[i + init.length]? = some t := by
        rw [← List.getElem?_drop, ← front]
        simp
      rw [place, there]
      simp

theorem next (here : c.At tokens i) (more : c.current.kind ≠ .eof) :
    c.advance.At tokens (i + 1) :=
  here.consumes (consumes_advance here.proper.ends more)

theorem following (here : c.At tokens i) (more : c.current.kind ≠ .eof) :
    tokens[i + 1]? = some c.following := by
  rw [← current_advance]
  exact (here.next more).current

theorem comments (here : c.At tokens i) (pending : List Comment) :
    Cursor.At tokens i { c with comments := pending } :=
  ⟨⟨here.proper.ends, here.proper.inside⟩, here.front, here.before, here.previous⟩

/-- The end of the file is never passed. -/
theorem advance_eq (here : c.At tokens i) (eof : c.current.kind = .eof) : c.advance = c := by
  obtain ⟨rest, stop, last, comments⟩ := c
  cases rest with
  | nil => rfl
  | cons token rest => exact absurd eof (here.proper.inside token List.mem_cons_self)

end At

/-- The tokens before the first end of the file, with it. -/
theorem tokens_ofTokens_isPrefix (tokens : List Token) (comments : List Comment) :
    (ofTokens tokens comments).tokens <+: Token.closed tokens := by
  cases found : tokens.find? fun token => token.kind == .eof with
  | some stop =>
    obtain ⟨eof, before, after, rfl, none⟩ := List.find?_eq_some_iff_append.mp found
    have start : (before ++ stop :: after).takeWhile (fun t => t.kind != .eof) = before := by
      have goesOn : ∀ t ∈ before, (t.kind != .eof) = true := none
      rw [List.takeWhile_append_of_pos goesOn, List.takeWhile_cons_of_neg (by simpa using eof),
        List.append_nil]
    have all : (ofTokens (before ++ stop :: after) comments).tokens = before ++ [stop] := by
      simp only [ofTokens, Cursor.tokens, found, start, Option.getD_some]
    have part : before ++ [stop] <+: before ++ stop :: after :=
      (List.prefix_append_right_inj before).mpr ⟨after, rfl⟩
    rw [all, Token.closed]
    split
    · exact part
    · exact part.trans (List.prefix_append _ _)
  | none =>
    have goesOn : ∀ t ∈ tokens, (t.kind != .eof) = true := by
      simpa using List.find?_eq_none.mp found
    have open' : (tokens.getLast?.map Token.kind) ≠ some .eof := by
      intro last
      obtain ⟨t, final, eof⟩ := Option.map_eq_some_iff.mp last
      simpa [eof] using goesOn t (List.mem_of_getLast? final)
    simp only [ofTokens, Cursor.tokens, found, Token.closed, if_neg open', Option.getD_none,
      List.takeWhile_eq_self_iff.mpr goesOn]
    exact List.prefix_refl _

theorem at_ofTokens (tokens : List Token) (comments : List Comment) :
    (ofTokens tokens comments).At (Token.closed tokens) 0 := by
  have front := tokens_ofTokens_isPrefix tokens comments
  refine ⟨proper_ofTokens tokens comments, front, by simp, ?_⟩
  have first : [(ofTokens tokens comments).current] <+: Token.closed tokens :=
    (front_isPrefix _).trans front
  obtain ⟨later, whole⟩ := first
  rw [← whole]
  rfl

/-- Tokens behind the first end of the file do not count. -/
theorem ofTokens_append {tokens : List Token} (more : List Token) (comments : List Comment)
    (ends : ∃ t ∈ tokens, t.kind = .eof) :
    ofTokens (tokens ++ more) comments = ofTokens tokens comments := by
  obtain ⟨t, member, eof⟩ := ends
  cases found : tokens.find? fun token => token.kind == .eof with
  | none => exact absurd (beq_iff_eq.mpr eof) (List.find?_eq_none.mp found t member)
  | some stop =>
    have rest : (tokens ++ more).takeWhile (fun t => t.kind != .eof) =
        tokens.takeWhile fun t => t.kind != .eof := by
      obtain ⟨stops, before, after, rfl, goesOn⟩ := List.find?_eq_some_iff_append.mp found
      have start (later : List Token) :
          (before ++ stop :: later).takeWhile (fun t => t.kind != .eof) = before := by
        have pass : ∀ t ∈ before, (t.kind != .eof) = true := goesOn
        rw [List.takeWhile_append_of_pos pass, List.takeWhile_cons_of_neg (by simpa using stops),
          List.append_nil]
      rw [List.append_assoc, List.cons_append, start, start]
    simp only [ofTokens, rest, List.find?_append, found, Option.some_or, Option.getD_some]

/-- Leading comments are the first of those that are pending. -/
theorem exists_leading_eq_take (c : Cursor) : ∃ count ≤ c.comments.length,
    c.leading = c.comments.take count ∧ c.afterLeading.comments = c.comments.drop count :=
  ⟨_, List.findIdx_le_length, List.takeWhile_eq_take_findIdx_not,
    List.dropWhile_eq_drop_findIdx_not⟩

/-- Trailing comments stand side by side among those that are pending. -/
theorem exists_trailing_eq_take (c : Cursor) : ∃ first count, first + count ≤ c.comments.length ∧
    c.trailing = (c.comments.drop first).take count ∧
    c.afterTrailing.comments = c.comments.take first ++ c.comments.drop (first + count) := by
  have inside : c.comments.takeWhile c.isInside = _ := List.takeWhile_eq_take_findIdx_not
  have behind : c.comments.dropWhile c.isInside = _ := List.dropWhile_eq_drop_findIdx_not
  have place : c.comments.findIdx (fun x => !c.isInside x) ≤ c.comments.length :=
    List.findIdx_le_length
  generalize c.comments.findIdx (fun x => !c.isInside x) = first at inside behind place
  have taken : (c.comments.drop first).takeWhile c.trails = _ := List.takeWhile_eq_take_findIdx_not
  have kept : (c.comments.drop first).dropWhile c.trails = _ := List.dropWhile_eq_drop_findIdx_not
  have count : (c.comments.drop first).findIdx (fun x => !c.trails x) ≤ _ := List.findIdx_le_length
  generalize (c.comments.drop first).findIdx (fun x => !c.trails x) = number at taken kept count
  rw [List.length_drop] at count
  refine ⟨first, number, by omega, ?_, ?_⟩
  · rw [trailing, behind, taken]
  · rw [afterTrailing, inside, behind, kept, List.drop_drop]

end Cursor

namespace Grammar

open Cursor TokenReader

/-- Each rule at a depth just above its weight. -/
def parser : Rules := fun α rule => do
  rules (weight rule (← get) + 1) α rule

section Parser

variable {α : Type} {rule : Rule α} {known : List Span} {c : Cursor}

theorem parser_calls (n : Nat) : Calls parser n := by
  refine ⟨fun {α rule known c} proper below admits => ?_, fun ends given => given⟩
  cases (calls_rules (weight rule c + 1)).decided proper (Nat.lt_succ_self _) admits with
  | ok run enough yields trapped => exact .ok run enough yields trapped
  | error run enough refuses => exact .error run enough refuses

/-- The rules satisfy their equations: no bound is needed to define them. -/
theorem run_parser_eq (proper : c.Proper) (admits : Admits rule known) :
    (parser α rule).run c = (step parser α rule).run c := by
  have one := ((parser_calls _).decided proper (Nat.lt_succ_self (weight rule c)) admits).finally
    proper
  have two := (decided_step_of_calls (parser_calls _) proper admits).finally proper
  exact one.unique two.of_step

theorem decided_parser_chunk (proper : c.Proper) :
    Decided parser 0 [] Tree.terminals chunk c :=
  decided_chunk (parser_calls _) proper (Nat.lt_succ_self (weight .block c))

theorem run_chunk {depth : Nat} (proper : c.Proper) (enough : weight .block c < depth) :
    (chunk (rules depth) : TokenReader SourceTree).run c = (chunk parser).run c := by
  have one := (decided_chunk (calls_rules depth) proper enough).finally proper
  have two := (decided_parser_chunk proper).finally proper
  exact one.unique two

end Parser

/-- The cause that a rule is given to name is one of the grammar. -/
def NamesCause : {α : Type} → Rule α → Prop
  | _, .moreNames cause => cause ≠ .nesting
  | _, _ => True

/-- From the place `i` of the tokens on, a reader ends at a place at least `fewest` tokens further,
or at some place with an error of the grammar that names the token there. -/
inductive Lands {α : Type} (tokens : List Token) (i fewest : Nat) :
    Except Failure (α × Cursor) → Prop where
  | ok {a : α} {c : Cursor} {j : Nat} (further : i + fewest ≤ j) (there : c.At tokens j) :
      Lands tokens i fewest (.ok (a, c))
  | error {e : Failure} {j : Nat} (further : i ≤ j) (there : e.cursor.At tokens j)
      (cause : e.error.cause ≠ .nesting) (token : e.error.token = e.cursor.current.kind)
      (position : e.error.position = e.cursor.current.span.start) : Lands tokens i fewest (.error e)

section Lands

variable {α : Type} {rule : Rule α} {known : List Span} {c : Cursor} {tokens : List Token} {i : Nat}

theorem exists_admits (names : NamesCause rule) : ∃ known, Admits rule known := by
  cases rule with
  | moreNames cause => exact ⟨[], names⟩
  | dottedName head => exact ⟨head.terminals, List.Subset.refl _⟩
  | operators level left => exact ⟨left.terminals, List.Subset.refl _⟩
  | suffixes head => exact ⟨head.terminals, List.Subset.refl _⟩
  | _ => exact ⟨[], trivial⟩

/-- What is decided lands somewhere. -/
theorem Decided.lands {R : Rules} {least fewest : Nat} {found : α → List Span}
    {x : Rules → TokenReader α} (decided : Decided R least known found x c)
    (progress : ∀ own a c', (x R).Gives c a c' → Consumes c own c' → fewest ≤ own.length)
    (here : c.At tokens i) : Lands tokens i fewest ((x R).run c) := by
  cases decided with
  | @ok own a c' run _ yields _ =>
    rw [run]
    have enough := progress own a c' run yields.consumes
    exact .ok (by omega) (here.consumes yields.consumes)
  | @error own e run _ refuses =>
    rw [run]
    exact .error (Nat.le_add_right _ _) (here.consumes refuses.consumes) refuses.cause
      refuses.token refuses.position

theorem parser_lands (rule : Rule α) (here : c.At tokens i) (names : NamesCause rule) :
    Lands tokens i (least rule) ((parser α rule).run c) := by
  obtain ⟨known, admits⟩ := exists_admits names
  have decided := (parser_calls _).decided here.proper (Nat.lt_succ_self (weight rule c)) admits
  refine decided.lands (fun own a c' given consumes => ?_) here
  have derives := (parser_calls 0).derives here.proper.ends given
  have shorter := (derives.shortens here.proper.ends).length
  rw [consumes.rest, List.length_append] at shorter
  omega

theorem lands_chunk (here : c.At tokens i) : Lands tokens i 0 ((chunk parser).run c) :=
  (decided_parser_chunk here.proper).lands (fun _ _ _ _ _ => Nat.zero_le _) here

end Lands

end Grammar

open Grammar

/-- The tokens given with the comments between them are parsed, with the given outcome. No bound on
the depth of the rules is needed for it, nothing that is looked up on the way is out of range, and
all nodes can be added to an arena. -/
structure ParsedInRange (given : List Token) (comments : List Comment)
    (outcome : Except ParseError SourceTree) : Prop where
  unbounded : outcome =
    (Prod.fst <$> (chunk parser).run (.ofTokens given comments)).mapError Failure.error
  /-- Wherever a cursor can be, the rules without a bound are solutions of their equations. -/
  equations : ∀ {α : Type} {rule : Rule α} {c : Cursor} {i : Nat}, NamesCause rule →
    c.At (Token.closed given) i → (parser α rule).run c = (step parser α rule).run c
  starts : (Cursor.ofTokens given comments).At (Token.closed given) 0
  ends : Lands (Token.closed given) 0 0 ((chunk parser).run (.ofTokens given comments))
  lands : ∀ {α : Type} {rule : Rule α} {c : Cursor} {i : Nat}, NamesCause rule →
    c.At (Token.closed given) i → Lands (Token.closed given) i (least rule) ((parser α rule).run c)
  statement : ∀ {c c' : Cursor} {i : Nat} {t : SourceTree}, c.At (Token.closed given) i →
    (parser _ .statement).run c = .ok (t, c') → ∃ j > i, c'.At (Token.closed given) j
  expression : ∀ {c c' : Cursor} {i level : Nat} {t : SourceTree}, c.At (Token.closed given) i →
    (parser _ (.expression level)).run c = .ok (t, c') → ∃ j > i, c'.At (Token.closed given) j
  current : ∀ {c : Cursor} {i : Nat}, c.At (Token.closed given) i →
    (Token.closed given)[i]? = some c.current
  following : ∀ {c : Cursor} {i : Nat}, c.At (Token.closed given) i → c.current.kind ≠ .eof →
    (Token.closed given)[i + 1]? = some c.following ∧ c.advance.At (Token.closed given) (i + 1)
  stays : ∀ {c : Cursor} {i : Nat}, c.At (Token.closed given) i → c.current.kind = .eof →
    c.advance = c
  /-- The comments that lead a statement are the first of those that are pending. -/
  leading : ∀ {c : Cursor} {i : Nat}, c.At (Token.closed given) i →
    c.afterLeading.At (Token.closed given) i ∧ ∃ count ≤ c.comments.length,
      c.leading = c.comments.take count ∧ c.afterLeading.comments = c.comments.drop count
  /-- Those that trail one stand side by side. -/
  trailing : ∀ {c : Cursor} {i : Nat}, c.At (Token.closed given) i →
    c.afterTrailing.At (Token.closed given) i ∧
      ∃ first count, first + count ≤ c.comments.length ∧
        c.trailing = (c.comments.drop first).take count ∧
        c.afterTrailing.comments = c.comments.take first ++ c.comments.drop (first + count)
  contents : ∀ token ∈ Token.closed given, ∃ first count, first + count ≤ token.lexeme.length ∧
    token.contents.toList = (token.lexeme.toList.drop first).take count
  /-- Whether the tokens are a program or not, the arena that is filled on the way refuses nothing:
  no node names a child twice, and none that is named or looked up is missing. -/
  added : ∃ built, buildTokens given comments = .ok built ∧
    built.mapError Failure.error = outcome.map Arena.ofTree
  /-- Tokens behind an end of the file do not count. -/
  behind : ∀ more : List Token, (∃ t ∈ given, t.kind = .eof) →
    parseTokens (given ++ more) comments = outcome

section

variable (tokens : List Token) (comments : List Comment)

theorem readTokens_eq_run :
    readTokens tokens comments = Prod.fst <$> (chunk parser).run (.ofTokens tokens comments) := by
  have enough : weight .block (Cursor.ofTokens tokens comments) <
      depth (Cursor.ofTokens tokens comments).rest.length := by
    simp only [weight, rank, depth]
    omega
  rw [← run_chunk (Cursor.proper_ofTokens tokens comments) enough]
  rfl

/-- Rules that read at least one token. -/
theorem Grammar.Lands.exists_gt {α : Type} {i : Nat} {a : α} {c' : Cursor}
    (lands : Lands tokens i 1 (.ok (a, c'))) : ∃ j > i, c'.At tokens j := by
  cases lands with
  | ok further there => exact ⟨_, further, there⟩

theorem parsedInRange : ParsedInRange tokens comments (parseTokens tokens comments) where
  unbounded := by rw [parseTokens, readTokens_eq_run]
  equations names here := by
    obtain ⟨known, admits⟩ := exists_admits names
    exact run_parser_eq here.proper admits
  starts := Cursor.at_ofTokens tokens comments
  ends := lands_chunk (Cursor.at_ofTokens tokens comments)
  lands names here := parser_lands _ here names
  statement here run := by
    have lands := parser_lands .statement here trivial
    rw [run] at lands
    exact lands.exists_gt
  expression {c c' i level t} here run := by
    have lands := parser_lands (.expression level) here trivial
    rw [run] at lands
    exact lands.exists_gt
  current here := here.current
  following here more := ⟨here.following more, here.next more⟩
  stays here eof := here.advance_eq eof
  leading {c i} here := ⟨here.comments _, c.exists_leading_eq_take⟩
  trailing {c i} here := ⟨here.comments _, c.exists_trailing_eq_take⟩
  contents token _ := token.exists_contents_eq
  added := by
    refine ⟨_, buildTokens_eq tokens comments, ?_⟩
    rw [parseTokens]
    cases readTokens tokens comments <;> rfl
  behind more ends := by
    simp only [parseTokens, readTokens, Cursor.ofTokens_append more comments ends]

end

/-- Whatever is given to be parsed, tokens or a text, the outcome is a program or an error of the
grammar, and nothing on the way is out of range. -/
theorem parsing_total :
    (∀ (tokens : List Token) (comments : List Comment),
      ParsedInRange tokens comments (parseTokens tokens comments)) ∧
    ∀ source : String, ParsedInRange (Scan.ofSource source).tokens (Scan.ofSource source).comments
      (parse source) :=
  ⟨parsedInRange, fun source =>
    parsedInRange (Scan.ofSource source).tokens (Scan.ofSource source).comments⟩

end LuaTree
