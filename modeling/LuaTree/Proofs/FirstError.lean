import LuaTree.Proofs.Totality

/-!
# Errors are decided by what comes before them

Parsing fails at the place where the cursor stands then (`failureIndex?`), and
the error names the token there. What is behind that token has not been looked
at: all lists that agree up to it fail at the same place in the same way.
-/

namespace LuaTree

/-- The error with which parsing stops. -/
def failure? (tokens : List Token) : Option ParseError :=
  match parseTokens tokens [] with
  | .ok _ => none
  | .error e => some e

theorem failure?_eq_some {tokens : List Token} {e : ParseError} :
    failure? tokens = some e ↔ parseTokens tokens [] = .error e := by
  unfold failure?
  cases parseTokens tokens [] <;> simp

/-- The index of the token before which the cursor stands when parsing stops with an error: so many
tokens have been read. -/
def failureIndex? (tokens : List Token) : Option Nat :=
  match readTokens tokens [] with
  | .ok _ => none
  | .error e => some ((Cursor.ofTokens tokens []).rest.length - e.cursor.rest.length)

/-- What a cursor has in front of it at the start are the first tokens of the list. -/
theorem ofTokens_isPrefix {tokens : List Token} (comments : List Comment)
    (ends : tokens.getLast?.map Token.kind = some .eof) :
    (Cursor.ofTokens tokens comments).tokens <+: tokens := by
  have part := Cursor.tokens_ofTokens_isPrefix tokens comments
  rwa [Token.closed, if_pos ends] at part

theorem Cursor.prefix_tokens_ofTokens {own tokens : List Token} {t : Token}
    (comments : List Comment) (part : own ++ [t] <+: tokens) (inside : ∀ u ∈ own, u.kind ≠ .eof) :
    own ++ [t] <+: (ofTokens tokens comments).tokens := by
  obtain ⟨later, rfl⟩ := part
  have goesOn : ∀ u ∈ own, (u.kind != .eof) = true := fun u member => by simpa using inside u member
  have past : ∀ u ∈ own, ¬ (u.kind == .eof) = true := fun u member => by simpa using inside u member
  by_cases eof : t.kind = .eof
  · have found : (own ++ [t] ++ later).find? (fun u => u.kind == .eof) = some t := by
      rw [List.append_assoc, List.find?_append, List.find?_eq_none.mpr past]
      simp [eof]
    have start : (own ++ [t] ++ later).takeWhile (fun u => u.kind != .eof) = own := by
      rw [List.append_assoc, List.takeWhile_append_of_pos goesOn]
      simp [eof]
    simp only [ofTokens, Cursor.tokens, found, start, Option.getD_some]
    exact List.prefix_refl _
  · have start : (own ++ [t] ++ later).takeWhile (fun u => u.kind != .eof) =
        own ++ [t] ++ later.takeWhile fun u => u.kind != .eof := by
      rw [List.takeWhile_append_of_pos]
      intro u member
      obtain before | here := List.mem_append.mp member
      · exact goesOn u before
      · obtain rfl := List.mem_singleton.mp here
        simpa using eof
    rw [Cursor.tokens, ofTokens, start, List.append_assoc (own ++ [t])]
    exact List.prefix_append _ _

/-- Before the first token, that token counts as just read. -/
theorem Cursor.last_ofTokens_eq {seen tokens others : List Token} {comments more : List Comment}
    (here : seen <+: (ofTokens tokens comments).tokens)
    (there : seen <+: (ofTokens others more).tokens) (nonempty : seen ≠ []) :
    (ofTokens tokens comments).last = (ofTokens others more).last := by
  have first {c : Cursor} (begins : seen <+: c.tokens) : seen.head? = some c.current := by
    have short : [c.current].length ≤ seen.length := List.length_pos_iff.mpr nonempty
    obtain ⟨later, whole⟩ := List.prefix_of_prefix_length_le c.front_isPrefix begins short
    rw [← whole]
    rfl
  have same := Option.some.inj ((first here).symm.trans (first there))
  exact congrArg Token.span same

theorem exists_refuses {tokens : List Token} {comments : List Comment} {e : Failure}
    (fails : readTokens tokens comments = .error e) : ∃ own,
      Grammar.Refuses Grammar.chunk (.ofTokens tokens comments) own e := by
  rw [readTokens_eq_run] at fails
  cases Grammar.decided_parser_chunk (Cursor.proper_ofTokens tokens comments) with
  | ok run _ _ _ =>
    rw [run] at fails
    cases fails
  | @error own e' run _ refuses =>
    rw [run] at fails
    obtain rfl : e' = e := Except.error.inj fails
    exact ⟨own, refuses⟩

theorem readTokens_of_finally {tokens : List Token} {comments : List Comment} {e : Failure}
    (last : Grammar.Finally Grammar.chunk (.ofTokens tokens comments) (.error e)) :
    readTokens tokens comments = .error e := by
  have proper := Cursor.proper_ofTokens tokens comments
  have same := ((Grammar.decided_parser_chunk proper).finally proper).unique last
  rw [readTokens_eq_run, same]
  rfl

section Refuses

variable {tokens others own : List Token} {comments : List Comment} {e : Failure}
  (refuses : Grammar.Refuses Grammar.chunk (.ofTokens tokens comments) own e)

include refuses

/-- What is read before an error is not the end of the file. -/
theorem Grammar.Refuses.inside : ∀ u ∈ own, u.kind ≠ .eof := by
  have before : own <+: (Cursor.ofTokens tokens comments).rest := ⟨_, refuses.consumes.rest.symm⟩
  exact fun u member => (Cursor.proper_ofTokens tokens comments).inside u (before.subset member)

/-- All lists that begin with the tokens up to the one that an error names fail in the same way. -/
theorem readTokens_eq_of_refuses (part : own ++ [e.cursor.current] <+: others) :
    readTokens others comments =
      .error ⟨e.error, (Cursor.ofTokens others comments).behind own e.cursor⟩ := by
  have front := Cursor.prefix_tokens_ofTokens comments part refuses.inside
  have last := Cursor.last_ofTokens_eq front refuses.consumes.seen (by simp)
  exact readTokens_of_finally (refuses.always _ ⟨Cursor.proper_ofTokens _ _, last, rfl, front⟩)

end Refuses

/-- Where so many tokens have been read, the cursor stands before the one with that index. -/
theorem failureIndex?_of_behind {tokens own : List Token} {t : Token} {c : Cursor} {e : ParseError}
    (part : own ++ [t] <+: (Cursor.ofTokens tokens []).tokens)
    (fails : readTokens tokens [] = .error ⟨e, (Cursor.ofTokens tokens []).behind own c⟩) :
    failureIndex? tokens = some own.length := by
  have size := part.length_le
  simp only [Cursor.tokens, List.length_append, List.length_singleton] at size
  simp only [failureIndex?, fails, Cursor.behind, List.length_drop, Option.some.injEq]
  omega

/-- Where parsing fails, and how, is decided by the tokens up to the one in front of which it
stops. -/
theorem error_decided_by_beginning {tokens : List Token} {e : ParseError}
    (ends : tokens.getLast?.map Token.kind = some .eof) (fails : parseTokens tokens [] = .error e) :
    ∃ k t, failureIndex? tokens = some k ∧ tokens[k]? = some t ∧
      e.token = t.kind ∧ e.position = t.span.start ∧
      ∀ others : List Token, others.getLast?.map Token.kind = some .eof →
        others.take (k + 1) = tokens.take (k + 1) →
        parseTokens others [] = .error e ∧ failureIndex? others = some k := by
  obtain ⟨c, run⟩ := parseTokens_eq_error.mp fails
  obtain ⟨own, refuses⟩ := exists_refuses run
  have seen : own ++ [c.current] <+: tokens :=
    refuses.consumes.seen.trans (ofTokens_isPrefix [] ends)
  have start : own ++ [c.current] = tokens.take (own.length + 1) := by
    simpa using List.prefix_iff_eq_take.mp seen
  have stops {list : List Token} (part : own ++ [c.current] <+: list) :
      parseTokens list [] = .error e ∧ failureIndex? list = some own.length := by
    have again := readTokens_eq_of_refuses refuses part
    have front := Cursor.prefix_tokens_ofTokens [] part refuses.inside
    exact ⟨parseTokens_eq_error.mpr ⟨_, again⟩, failureIndex?_of_behind front again⟩
  refine ⟨own.length, c.current, (stops seen).2, ?_, refuses.token, refuses.position,
    fun others _ agree => stops ?_⟩
  · rw [← List.getElem?_take_of_lt (Nat.lt_succ_self own.length), ← start]
    simp
  · rw [start, ← agree]
    exact List.take_prefix _ _

/-- A call cannot be assigned to, which shows at the `=` behind all targets. -/
theorem error_decided_by_beginning_call :
    failureIndex? (tokenize "f(), x = 1 end end") = some 5 ∧
      parseTokens (tokenize "f(), x = 1 end end") [] = .error ⟨.assignTarget, .assign, ⟨1, 8⟩⟩ ∧
      parseTokens (tokenize "f(), x = )") [] = .error ⟨.assignTarget, .assign, ⟨1, 8⟩⟩ := by
  have fails : parseTokens (tokenize "f(), x = 1 end end") [] =
      .error ⟨.assignTarget, .assign, ⟨1, 8⟩⟩ := failure?_eq_some.mp (by decide +kernel)
  have place : failureIndex? (tokenize "f(), x = 1 end end") = some 5 := by decide +kernel
  obtain ⟨k, t, index, -, -, -, same⟩ := error_decided_by_beginning (by decide +kernel) fails
  obtain rfl : k = 5 := Option.some.inj (index.symm.trans place)
  exact ⟨place, fails, (same (tokenize "f(), x = )") (by decide +kernel) (by decide +kernel)).1⟩

end LuaTree
