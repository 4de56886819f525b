import LuaTree.Proofs.FirstError
import LuaTree.Proofs.Insertion

/-!
# Nothing follows a statement behind which its block must end

Let a program go on behind some `return`, `break` or `continue` of it with a
semicolon and then with another program. However deep the statement stands, the
text fails at the first token of the other program, and it fails because of the
rule for such statements and not because of the grammar
(`Arena.isGrammarRule_behind_terminal`).

The tokens up to the statement are read as before, whatever encloses them:
`Grammar.Trapped` says so of lists of tokens, and `Piece.cut_append` gives the
tokens of the text.
-/

namespace LuaTree

open Cursor

theorem aligned_refl (span : Span) (tokens : List Token) :
    Aligned .clear span span tokens tokens := by
  induction tokens generalizing span with
  | nil => exact .nil
  | cons t tokens ih =>
    exact .cons ⟨rfl, fun _ => rfl, rfl, rfl, rfl⟩ (fun _ => Iff.rfl) (ih t.span)

/-- Which comments stand between the tokens has no bearing on an error. -/
theorem parseTokens_error_comments {tokens : List Token} (comments : List Comment) {e : ParseError}
    (fails : parseTokens tokens comments = .error e) (others : List Comment) :
    parseTokens tokens others = .error e := by
  have abreast : (ofTokens tokens comments).Abreast .clear
      ((ofTokens tokens comments).tokens.zip (ofTokens tokens comments).tokens)
      (ofTokens tokens others) :=
    ⟨endsFile_ofTokens _ _, endsFile_ofTokens _ _, aligned_refl _ _, List.suffix_refl _,
      ⟨rfl, rfl⟩, ⟨rfl, rfl⟩⟩
  obtain ⟨t, u, good, -⟩ | ⟨cause, ⟨x, y⟩, member, -, left, right⟩ := parseTokens_matched abreast
  · exact absurd (good.symm.trans fails) (by simp)
  · obtain rfl : x = y := by
      obtain ⟨i, found⟩ := List.mem_iff_getElem?.mp member
      obtain ⟨first, second⟩ := List.getElem?_zip_eq_some.mp found
      exact Option.some.inj (first.symm.trans second)
    exact right.trans (left.symm.trans fails)

section Inserted

open Piece

variable {source text : String}

/-- The pieces of a text that goes on behind a closed token with a semicolon, a line feed and
another text, up to a token of that text. -/
theorem exists_cut_insertAt {front back lead others : List Piece} {kind kind' : TokenKind}
    {lexeme lexeme' : List Char} (split : cut source.toList = front ++ .token kind lexeme :: back)
    (closed : (token kind lexeme).isTerminated = true)
    (split' : cut text.toList = lead ++ .token kind' lexeme' :: others) : ∃ lexeme'' more,
      cut (insertAt source (String.utf8Len (textOf (front ++ [.token kind lexeme])))
        (";\n" ++ text ++ "\n")).toList =
        front ++ [.token kind lexeme, .token .semicolon [';'], .blank '\n'] ++
          lead ++ .token kind' lexeme'' :: more := by
  have whole : source.toList = textOf (front ++ [.token kind lexeme]) ++ textOf back := by
    rw [← textOf_cut source.toList, split, List.append_cons, textOf_append]
  obtain ⟨lexeme'', more, inner⟩ := exists_cut_append isDivider_newline split' (textOf back)
  refine ⟨lexeme'', more, ?_⟩
  have solid : TokenKind.semicolon ∈ solid := by decide
  have semicolon (rest : List Char) : cut (';' :: rest) = .token .semicolon [';'] :: cut rest :=
    fits_solid solid rest
  have newline (rest : List Char) : cut ('\n' :: rest) = .blank '\n' :: cut rest :=
    fits_blank (by decide) rest
  have combined : textOf (front ++ [.token kind lexeme]) ++ (";\n" ++ text ++ "\n").toList ++
      textOf back = textOf (front ++ [.token kind lexeme]) ++
        ';' :: '\n' :: (text.toList ++ '\n' :: textOf back) := by
    simp
  rw [toList_insertAt _ whole, combined, cut_append isDivider_semicolon split rfl closed, semicolon,
    newline, inner]
  simp

/-- The tokens of such a text: those up to the closed one, the semicolon, and the first token of the
other text. -/
theorem exists_tokens_insertAt {own behind others : List Token} {last first : Token}
    (here : (ofSource source).rest = own ++ last :: behind)
    (closed : (Piece.token last.kind last.lexeme.toList).isTerminated = true)
    (there : (ofSource text).rest = first :: others) : ∃ semicolon token later,
      tokenize (insertAt source last.span.endOffset (";\n" ++ text ++ "\n")) =
        own ++ last :: semicolon :: token :: later ∧ semicolon.kind = .semicolon ∧
      token.kind = first.kind ∧
      token.span.startOffset = last.span.endOffset + 2 + first.span.startOffset := by
  rw [rest_ofSource] at here there
  obtain ⟨front, lexeme, back, split, rfl, same, span⟩ := exists_token_piece here
  rw [← List.nil_append (first :: others)] at there
  obtain ⟨lead, lexeme', others, split', none, -, span'⟩ := exists_token_piece there
  rw [same, String.toList_ofList] at closed
  have offset : last.span.endOffset =
      String.utf8Len (textOf (front ++ [.token last.kind lexeme])) := by
    rw [span, Span.between]
    simp [Place.offset_after, textOf_append, chars, Place.start]
  obtain ⟨lexeme'', more, pieces⟩ := exists_cut_insertAt split closed split'
  rw [← offset] at pieces
  have blank : ∀ piece ∈ lead, piece.isToken = false := filterMap_token?_eq_nil_iff.mp none
  have tokens : tokenize (insertAt source last.span.endOffset (";\n" ++ text ++ "\n")) = _ :=
    Scan.tokens_ofSource _
  rw [pieces, located_append, located_append, located_append, List.filterMap_append,
    List.filterMap_append, List.filterMap_append, filterMap_token?_eq_nil_iff.mpr blank,
    List.append_nil, List.append_assoc, List.append_assoc] at tokens
  generalize place : Place.start.after (textOf front) = p at tokens span
  have final : (⟨last.kind, String.ofList lexeme, .between p (p.after lexeme)⟩ : Token) = last := by
    rw [← same, ← span]
  have parts :
      (located p [.token last.kind lexeme, .token .semicolon [';'], .blank '\n']).filterMap token? =
        [last, ⟨.semicolon, ";", .between (p.after lexeme) ((p.after lexeme).after [';'])⟩] :=
    congrArg (· :: _) final
  rw [parts] at tokens
  refine ⟨_, _, _, tokens, rfl, rfl, ?_⟩
  rw [offset, span']
  simp only [Span.between, Place.offset_after, textOf_append, textOf_cons, textOf_nil, chars,
    String.utf8Len_append, List.append_nil]
  have semicolon : String.utf8Len [';'] = 1 := by decide
  have newline : String.utf8Len ['\n'] = 1 := by decide
  have start : Place.start.offset = 0 := rfl
  omega

end Inserted

theorem Tree.mem_terminals_of_kind {t : SourceTree} (terminal : t.kind.isTerminal = true) :
    t.span ∈ t.terminals := by
  rw [terminals_eq, if_pos terminal]
  exact List.mem_append_left _ (List.mem_singleton.mpr rfl)

theorem Arena.mem_terminals {t : SourceTree} {id : NodeId}
    (present : (ofTree t).contains id = true)
    (terminal : ((ofTree t).kind id).isTerminal = true) : (ofTree t).span id ∈ t.terminals := by
  have sound := sound_ofTree t
  have below : ((ofTree t).tree id).terminals ⊆ t.terminals := by
    refine forall_tree (motive := fun u => u.terminals ⊆ t.terminals) (List.Subset.refl _) ?_ id
      (contains_iff.mp present)
    intro m k inside c child span member
    refine inside ?_
    rw [Tree.terminals_node]
    exact List.mem_append_right _ (List.mem_flatMap.mpr ⟨c, child, member⟩)
  rw [← sound.span_tree]
  refine below (Tree.mem_terminals_of_kind ?_)
  rw [sound.tree_eq]
  exact (Kind.isTerminal_map _ _).trans terminal

theorem Arena.Sound.topLevel_eq_nil {a : Arena} (sound : a.Sound) {r : NodeId} {m n : Origin}
    (tree : a.tree r = .node m (.chunk (.node n (.block [])))) : a.topLevel r = [] := by
  have chunk := sound.map_tree tree
  cases root : a.kind r with
  | chunk b =>
    rw [root] at chunk
    have block := sound.map_tree (Kind.chunk.inj chunk)
    cases body : a.kind b with
    | block statements =>
      rw [body] at block
      rw [topLevel, root]
      simp only [body]
      exact List.map_eq_nil_iff.mp (Kind.block.inj block)
    | _ =>
      rw [body] at block
      cases block
  | _ =>
    rw [root] at chunk
    cases chunk

/-- A program with a statement begins with a token that ends no block. -/
theorem exists_first_token {text : String} {u : SourceTree} {r : NodeId}
    (program : parse text = .ok u) (root : (Arena.ofTree u).root = some r)
    (some : (Arena.ofTree u).topLevel r ≠ []) : ∃ first others,
      (ofSource text).rest = first :: others ∧ first.kind.endsBlock = false := by
  obtain ⟨c', readChunk⟩ := parseTokens_ok_iff.mp program
  have ends : (ofSource text).EndsFile := endsFile_ofTokens _ _
  obtain @⟨body, _, readBody, -⟩ := readChunk
  obtain @⟨statements, _, readAll⟩ := (Grammar.derives_iff ends).mp readBody
  rw [Arena.root_ofTree] at root
  obtain rfl := Option.some.inj root
  rcases (Grammar.derives_iff ends).mp readAll with stop | ⟨start, -, -, -⟩
  · exact absurd ((Arena.sound_ofTree _).topLevel_eq_nil (Arena.tree_ofTree _)) some
  · have start : (ofSource text).current.kind.endsBlock = false := start
    cases rest : (ofSource text).rest with
    | nil =>
      rw [current, rest, List.headD_nil, show (ofSource text).stop.kind = .eof from ends] at start
      cases start
    | cons first others =>
      rw [current, rest] at start
      exact ⟨first, others, rfl, start⟩

/-- Every statement of a program behind which its block must end is trapped. -/
theorem exists_trapped {source : String} {t : SourceTree} {span : Span}
    (parsed : parse source = .ok t) (member : span ∈ t.terminals) :
    ∃ own, Grammar.Trapped Grammar.chunk (ofSource source) own span := by
  have run : (Prod.fst <$> (Grammar.chunk Grammar.parser).run (ofSource source)) = .ok t :=
    (readTokens_eq_run _ _).symm.trans (parseTokens_eq_ok.mp parsed)
  cases Grammar.decided_parser_chunk (c := ofSource source) (proper_ofTokens _ _) with
  | error failed _ _ =>
    rw [failed] at run
    cases run
  | @ok own a c' given _ _ trapped =>
    rw [given] at run
    obtain rfl : a = t := Except.ok.inj run
    obtain known | ⟨own, -, traps⟩ := trapped Grammar.endsSoftly span member
    · cases known
    · exact ⟨own, traps⟩

/-- Every list that goes on behind a trapped statement with a semicolon fails there. -/
theorem parseTokens_of_trapped {own tokens others : List Token} {span : Span}
    {semicolon u : Token} {comments : List Comment}
    (traps : Grammar.Trapped Grammar.chunk (ofTokens tokens comments) own span)
    (divides : semicolon.kind = .semicolon) (goesOn : u.kind.endsBlock = false)
    (part : own ++ [semicolon] ++ [u] <+: others) (more : List Comment) :
    parseTokens others more = .error ⟨.afterTerminal, u.kind, u.span.start⟩ := by
  refine parseTokens_error_comments comments ?_ more
  have inside : ∀ x ∈ own ++ [semicolon], x.kind ≠ .eof := by
    intro x member
    obtain before | here := List.mem_append.mp member
    · exact (proper_ofTokens _ _).inside x (traps.tokens.subset before)
    · rw [List.mem_singleton.mp here, divides]
      decide
  have front := prefix_tokens_ofTokens comments part inside
  rw [List.append_assoc] at front
  have some : own ≠ [] := by
    rintro rfl
    obtain ⟨last, final, -⟩ := traps.ends
    cases final
  have last := last_ofTokens_eq ((List.prefix_append _ _).trans front)
    (traps.tokens.trans (List.prefix_append _ _)) some
  obtain ⟨d, fails⟩ := traps.always semicolon u _ divides goesOn
    ⟨proper_ofTokens _ _, last, rfl, front⟩
  exact parseTokens_eq_error.mpr ⟨d, readTokens_of_finally fails⟩

namespace Arena

/-- Behind a statement that ends its block, a semicolon and another program break the rule for such
statements, at the first token of that program. -/
theorem isGrammarRule_behind_terminal {source text : String} {t u : SourceTree} {id r : NodeId}
    (parsed : parse source = .ok t) (present : (ofTree t).contains id = true)
    (terminal : ((ofTree t).kind id).isTerminal = true)
    (closed : ∀ token ∈ tokenize source,
      token.span.endOffset = ((ofTree t).span id).endOffset →
      (Piece.token token.kind token.lexeme.toList).isTerminated = true)
    (program : parse text = .ok u) (root : (ofTree u).root = some r)
    (some : (ofTree u).topLevel r ≠ []) : ∃ first token e,
      first ∈ (tokenize text).head? ∧
      token ∈ tokenize (insertAt source ((ofTree t).span id).endOffset (";\n" ++ text ++ "\n")) ∧
      token.kind = first.kind ∧
      token.span.startOffset = ((ofTree t).span id).endOffset + 2 + first.span.startOffset ∧
      parse (insertAt source ((ofTree t).span id).endOffset (";\n" ++ text ++ "\n")) = .error e ∧
      e.isGrammarRule = true ∧ e.token = token.kind ∧ e.position = token.span.start := by
  obtain ⟨first, others, there, goesOn⟩ := exists_first_token program root some
  have member := mem_terminals present terminal
  obtain ⟨own, traps⟩ := exists_trapped parsed member
  obtain ⟨last, final, same⟩ := traps.ends
  obtain ⟨init, rfl⟩ := List.getLast?_eq_some_iff.mp final
  obtain ⟨behind, here⟩ := traps.tokens
  rw [← same] at closed ⊢
  have here : (ofSource source).rest = init ++ last :: behind := by
    rw [List.append_cons]
    exact here.symm
  have listed : last ∈ tokenize source := by
    rw [← tokens_ofSource, here]
    simp
  obtain ⟨semicolon, token, later, tokens, divides, kind, offset⟩ :=
    exists_tokens_insertAt here (closed last listed rfl) there
  refine ⟨first, token, ⟨.afterTerminal, token.kind, token.span.start⟩, ?_, ?_, kind, offset, ?_,
    rfl, rfl, rfl⟩
  · rw [← tokens_ofSource, there]
    rfl
  · rw [tokens]
    simp
  · have part : init ++ [last] ++ [semicolon] ++ [token] <+: tokenize _ :=
      ⟨later, by rw [tokens]; simp⟩
    exact parseTokens_of_trapped traps divides (kind ▸ goesOn) part _

/-- A value that is returned two blocks deep, and a program that begins with a comment. -/
theorem isGrammarRule_behind_terminal_nested : ∃ t u,
    parse "while x do if y then return 'a' end end" = .ok t ∧ parse "-- b\nf()" = .ok u ∧
    ∃ first token e, first ∈ (tokenize "-- b\nf()").head? ∧
      token ∈ tokenize "while x do if y then return 'a';\n-- b\nf()\n end end" ∧
      token.kind = first.kind ∧ token.span.startOffset = 31 + 2 + first.span.startOffset ∧
      parse "while x do if y then return 'a';\n-- b\nf()\n end end" = .error e ∧
      e.isGrammarRule = true ∧ e.token = token.kind ∧ e.position = token.span.start := by
  obtain ⟨t, parsed⟩ : ∃ t, parse "while x do if y then return 'a' end end" = .ok t :=
    exists_parse (by decide +kernel)
  obtain ⟨u, program⟩ : ∃ u, parse "-- b\nf()" = .ok u := exists_parse (by decide +kernel)
  have parts : (parse "while x do if y then return 'a' end end").toOption.all (fun t =>
      (ofTree t).contains ⟨3⟩ = true ∧ ((ofTree t).kind ⟨3⟩).isTerminal = true ∧
        ((ofTree t).span ⟨3⟩).endOffset = 31) = true := by
    decide +kernel
  have others : (parse "-- b\nf()").toOption.all (fun u =>
      (ofTree u).root = some ⟨4⟩ ∧ (ofTree u).topLevel ⟨4⟩ ≠ []) = true := by
    decide +kernel
  rw [parsed] at parts
  rw [program] at others
  obtain ⟨present, terminal, offset⟩ := of_decide_eq_true parts
  obtain ⟨root, some⟩ := of_decide_eq_true others
  have closed : ∀ token ∈ tokenize "while x do if y then return 'a' end end",
      (Piece.token token.kind token.lexeme.toList).isTerminated = true := by
    decide +kernel
  have whole : insertAt "while x do if y then return 'a' end end" 31
      (";\n" ++ "-- b\nf()" ++ "\n") = "while x do if y then return 'a';\n-- b\nf()\n end end" := by
    decide +kernel
  have fails := isGrammarRule_behind_terminal parsed present terminal
    (fun token member _ => closed token member) program root some
  rw [offset, whole] at fails
  exact ⟨t, u, parsed, program, fails⟩

end Arena

end LuaTree
