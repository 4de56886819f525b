import LuaTree.Proofs.Operands

/-!
# Reading lines of statements

A statement is read up to a semicolon, or up to the next line on which another
statement or the end of its block stands. The comments before and behind it are
those that were written there (`reads_line`), and so are those at the end of a
block (`reads_block`).
-/

namespace LuaTree

open Cursor Grammar Layout

section Free

variable {pieces more : List Piece}

theorem nextKind_append (free : ∀ piece ∈ pieces, piece.isToken = false) :
    nextKind (pieces ++ more) = nextKind more := by
  induction pieces with
  | nil => rfl
  | cons piece pieces ih =>
    obtain ⟨notToken, others⟩ := List.forall_mem_cons.mp free
    cases piece with
    | token => simp [Piece.isToken] at notToken
    | blank | lineComment | blockComment => exact ih others

theorem breaks_append_newline (free : ∀ piece ∈ pieces, piece.isToken = false) :
    breaks (pieces ++ newline :: more) = true := by
  induction pieces with
  | nil => rfl
  | cons piece pieces ih =>
    obtain ⟨notToken, others⟩ := List.forall_mem_cons.mp free
    cases piece with
    | token => simp [Piece.isToken] at notToken
    | blank | lineComment | blockComment => simp [breaks, ih others]

theorem free_blanks (blanks : List Char) : ∀ piece ∈ blanks.map Piece.blank,
    piece.isToken = false := by
  simp [Piece.isToken]

theorem free_comment (c : Comment) : (comment c).isToken = false := by
  obtain ⟨kind, text, span⟩ := c
  cases kind <;> rfl

theorem notes_blanks (blanks : List Char) :
    (blanks.map Piece.blank).filterMap Piece.note? = [] := by
  simp [Piece.note?]

end Free

section Comments

variable {o : Layout} {m : Origin}

theorem free_commentLines (depth : Nat) (comments : List Comment) :
    ∀ piece ∈ o.commentLines depth comments, piece.isToken = false := by
  intro piece member
  unfold commentLines at member
  split at member
  · obtain ⟨c, -, member⟩ := List.mem_flatMap.mp member
    rcases List.mem_append.mp member with blank | line
    · exact free_blanks _ piece blank
    · rcases List.mem_cons.mp line with rfl | last
      · exact free_comment c
      · rw [List.mem_singleton.mp last]
        rfl
  · simp at member

theorem notes_commentLines (depth : Nat) (comments : List Comment) :
    (o.commentLines depth comments).filterMap Piece.note? =
      if o.comments then comments.map Comment.note else [] := by
  unfold commentLines
  split
  · induction comments with
    | nil => rfl
    | cons c comments ih =>
      have newline : newline.note? = none := rfl
      have indentation : (o.indentation depth).filterMap Piece.note? = [] := notes_blanks _
      simp [ih, indentation, newline]
  · rfl

/-- The comments behind a statement. -/
def trailingPieces (o : Layout) (m : Origin) : List Piece :=
  if o.comments then m.trailing.flatMap fun c => [space, comment c] else []

theorem finish_eq : o.finish m =
    (if o.semicolons then [word .semicolon] else []) ++ (trailingPieces o m ++ [newline]) :=
  List.append_assoc _ _ _

theorem free_trailingPieces : ∀ piece ∈ trailingPieces o m, piece.isToken = false := by
  intro piece member
  unfold trailingPieces at member
  split at member
  · obtain ⟨c, -, member⟩ := List.mem_flatMap.mp member
    rcases List.mem_cons.mp member with rfl | last
    · rfl
    · rw [List.mem_singleton.mp last]
      exact free_comment c
  · simp at member

theorem notes_trailingPieces : (trailingPieces o m).filterMap Piece.note? = (o.kept m).2 := by
  unfold trailingPieces kept
  split
  · have space : space.note? = none := rfl
    simp only [Origin.notes]
    induction m.trailing with
    | nil => rfl
    | cons c comments ih => simp [ih, space]
  · rfl

theorem isOneLine_trailing {comments : List Comment}
    (oneLine : ∀ c ∈ comments.dropLast, c.leavesLineOpen = true) :
    isOneLine (comments.flatMap fun c => [space, comment c]) = true := by
  induction comments with
  | nil => rfl
  | cons c comments ih =>
    have noNewline : space.chars.contains '\n' = false := rfl
    simp only [List.flatMap_cons, List.cons_append, List.nil_append, isOneLine, noNewline,
      Bool.not_false, Bool.true_or, Bool.true_and]
    cases comments with
    | nil => simp [isOneLine]
    | cons next comments =>
      obtain ⟨leaves, others⟩ := List.forall_mem_cons.mp oneLine
      obtain ⟨kind, text, span⟩ := c
      simp only [Comment.leavesLineOpen, Bool.and_eq_true, beq_iff_eq] at leaves
      obtain ⟨rfl, inside⟩ := leaves
      rw [ih others, Bool.and_true]
      simp only [comment, Piece.chars]
      simp at inside
      simp [inside]

theorem isOneLine_trailingPieces
    (oneLine : ∀ c ∈ m.trailing.dropLast, c.leavesLineOpen = true) :
    isOneLine (trailingPieces o m) = true := by
  unfold trailingPieces
  split
  · exact isOneLine_trailing oneLine
  · rfl

/-- The end of a statement gives its semicolon and its comments. -/
theorem reads_finish {more : List Piece} {c : Cursor}
    (oneLine : ∀ comment ∈ m.trailing.dropLast, comment.leavesLineOpen = true)
    (noSemicolon : nextKind more ≠ .semicolon) (behind : Behind (o.finish m ++ more) c) :
    (c.skip .semicolon).current.kind = nextKind more ∧
      (c.skip .semicolon).trailing.map Comment.note = (o.kept m).2 ∧
      Before more (c.skip .semicolon).afterTrailing := by
  have trails {c : Cursor} (behind : Behind (trailingPieces o m ++ newline :: more) c) :
      c.current.kind = nextKind more ∧ c.trailing.map Comment.note = (o.kept m).2 ∧
        Before more c.afterTrailing := by
    refine ⟨behind.before.kind.trans (nextKind_append free_trailingPieces), ?_⟩
    rw [← notes_trailingPieces]
    exact behind.trailing free_trailingPieces (isOneLine_trailingPieces oneLine)
  rw [finish_eq, List.append_assoc, List.append_assoc] at behind
  split at behind
  · obtain ⟨semicolon, behind⟩ := Before.word behind.before
    rw [skip, if_pos semicolon]
    exact trails behind
  · have next := (trails behind).1
    rw [skip, if_neg (next ▸ noSemicolon)]
    exact trails behind

end Comments

/-- What stands behind a statement: a semicolon, or on a later line the end of the block or, if the
statement does not end its block, another statement. -/
def EndsStatement (isTerminal : Bool) (rest : List Piece) : Prop :=
  nextKind rest = .semicolon ∨ breaks rest = true ∧ ((nextKind rest).endsBlock = true ∨
    isTerminal = false ∧ (nextKind rest).startsStatement = true)

/-- No expression, list or assignment goes on with the token. -/
def TokenKind.isBoundary (kind : TokenKind) : Bool :=
  !([.dot, .colon, .comma, .assign] : List TokenKind).contains kind && kind.binaryOp?.isNone &&
    kind.assignOp?.isNone

theorem TokenKind.isBoundary_of_starts {kind : TokenKind}
    (boundary : kind.endsBlock = true ∨ kind.startsStatement = true) : kind.isBoundary = true := by
  cases kind <;> first | rfl | exact absurd boundary (by decide)

namespace EndsStatement

variable {isTerminal : Bool} {rest : List Piece}

theorem isBoundary (ends : EndsStatement isTerminal rest) : (nextKind rest).isBoundary = true := by
  rcases ends with semicolon | ⟨-, close | ⟨-, next⟩⟩
  · rw [semicolon]; rfl
  · exact TokenKind.isBoundary_of_starts (.inl close)
  · exact TokenKind.isBoundary_of_starts (.inr next)

theorem kinds (ends : EndsStatement isTerminal rest) : nextKind rest ≠ .dot ∧
    nextKind rest ≠ .colon ∧ nextKind rest ≠ .comma ∧ nextKind rest ≠ .assign ∧
    (nextKind rest).binaryOp? = none ∧ (nextKind rest).assignOp? = none := by
  simpa [TokenKind.isBoundary, and_assoc] using ends.isBoundary

theorem ends {level : Nat} (ends : EndsStatement isTerminal rest) : Ends level rest := by
  obtain ⟨noDot, noColon, -, -, noOperator, -⟩ := ends.kinds
  refine ⟨noDot, noColon, fun either => ?_, fun op sign => ?_⟩
  · rcases ends with semicolon | ⟨broken, -⟩
    · exact absurd either (by simp [semicolon])
    · exact broken
  · simp [noOperator] at sign

theorem noComma (ends : EndsStatement isTerminal rest) : nextKind rest ≠ .comma :=
  ends.kinds.2.2.1

end EndsStatement

/-- Pieces that begin, behind blanks, with the token that ends a block. -/
structure Closes (tail rest : List Piece) : Prop where
  blanks : ∃ blanks : List Char, tail = blanks.map .blank ++ rest
  stop : (nextKind rest).endsBlock = true
  token : ∀ piece ∈ rest.head?, piece.isToken = true

theorem Closes.kind {tail rest : List Piece} (closes : Closes tail rest) :
    nextKind tail = nextKind rest := by
  obtain ⟨blanks, rfl⟩ := closes.blanks
  exact nextKind_append (free_blanks blanks)

theorem closes_indentation {o : Layout} {kind : TokenKind} (ends : kind.endsBlock = true)
    (depth : Nat) (rest : List Piece) :
    Closes (o.indentation depth ++ word kind :: rest) (word kind :: rest) where
  blanks := ⟨_, rfl⟩
  stop := ends
  token := by
    rintro piece ⟨⟩
    rfl

/-- A block that is read back from its text. -/
def ReadsBlock (o : Layout) (t : SourceTree) : Prop :=
  ∀ depth tail rest c, Closes tail rest → Before ((o.fragment t).write depth ++ tail) c →
    ∃ u c₁, u.notes = o.outline t ∧ Before rest c₁ ∧ Derives _ .block c u c₁

/-- Pieces with a token in front. -/
def OpensWithToken (pieces : List Piece) : Prop :=
  ∃ kind lexeme more, pieces = .token kind lexeme :: more

/-- The words of a statement, from the first token of its line on, that are read as a statement
without comments. -/
def ReadsWords (o : Layout) (kind : Kind SourceTree) (words : Nat → List Piece) : Prop :=
  ∀ depth, OpensWithToken (words depth) ∧
    ∀ rest c, EndsStatement kind.isTerminal rest → Before (words depth ++ rest) c →
      ∃ u c₁, u.notes = .node ([], []) (kind.map o.outline) ∧ Behind rest c₁ ∧
        Statement Derives c u c₁

/-- A statement that is read back from its text. -/
structure ReadsStatement (o : Layout) (t : SourceTree) : Prop where
  oneLine : ∀ c ∈ t.mark.trailing.dropLast, c.leavesLineOpen = true
  words : ∃ words, (o.fragment t).write = (o.statement t.mark words).write ∧
    ReadsWords o t.kind words

theorem readsStatement {o : Layout} {m : Origin} {kind : Kind SourceTree}
    {words : Nat → List Piece} (fit : Fit m kind) (isStatement : kind.isStatement = true)
    (write : o.node m (kind.map o.fragment) = o.statement m words)
    (reads : ReadsWords o kind words) : ReadsStatement o (.node m kind) where
  oneLine := (isPlaced_iff_of_isStatement isStatement).mp fit.placed
  words := ⟨words, by rw [fragment_node, write]; rfl, reads⟩

section Blocks

variable {o : Layout}

/-- The first token of written statements. -/
theorem startsStatement_of_statements {tail : List Piece} {c c' : Cursor} {us : List SourceTree}
    (before : Before tail c) (read : Derives _ .statements c us c') :
    (nextKind tail).endsBlock = true ∨ (nextKind tail).startsStatement = true := by
  rw [← before.kind]
  rcases (derives_iff before.endsFile).mp read with stop | ⟨-, readStatement, -, -⟩
  · exact .inl stop
  · have ends : c.afterLeading.EndsFile := before.endsFile
    exact .inr ((derives_iff ends).mp readStatement).starts

theorem endsStatement_finish {m : Origin} {isTerminal : Bool} {more : List Piece}
    (next : (nextKind more).endsBlock = true ∨
      isTerminal = false ∧ (nextKind more).startsStatement = true) :
    EndsStatement isTerminal (o.finish m ++ more) := by
  rw [finish_eq, List.append_assoc, List.append_assoc]
  split
  · exact .inl rfl
  · refine .inr ⟨breaks_append_newline free_trailingPieces, ?_⟩
    rwa [List.nil_append, nextKind_append free_trailingPieces]

theorem isTerminal_of_notes {u : SourceTree} {n : Notes} {kind : Kind SourceTree}
    (same : u.notes = .node n (kind.map o.outline)) : u.kind.isTerminal = kind.isTerminal := by
  obtain ⟨m, k⟩ := u
  rw [Tree.notes_node, Tree.node.injEq] at same
  have kinds := congrArg Kind.isTerminal same.2
  rwa [Kind.isTerminal_map, Kind.isTerminal_map] at kinds

/-- One statement with its comments. -/
theorem reads_line {s : SourceTree} (reads : ReadsStatement o s) (depth : Nat) {more : List Piece}
    (next : (nextKind more).endsBlock = true ∨
      s.kind.isTerminal = false ∧ (nextKind more).startsStatement = true)
    {c : Cursor} (before : Before ((o.fragment s).write depth ++ more) c) :
    ∃ u c₁, Statement Derives c.afterLeading u c₁ ∧
      (u.withComments c.leading (c₁.skip .semicolon).trailing).notes = o.outline s ∧
      u.kind.isTerminal = s.kind.isTerminal ∧
      (c₁.skip .semicolon).current.kind = nextKind more ∧
      Before more (c₁.skip .semicolon).afterTrailing := by
  obtain ⟨m, kind⟩ := s
  obtain ⟨oneLine, words, write, reads⟩ := reads
  obtain ⟨⟨first, lexeme, others, opens⟩, reads⟩ := reads depth
  have noSemicolon : nextKind more ≠ .semicolon := by
    intro semicolon
    rw [semicolon] at next
    rcases next with close | ⟨-, starts⟩
    · exact absurd close (by decide)
    · exact absurd starts (by decide)
  simp only [write, Layout.statement, List.append_assoc] at before
  rw [← List.append_assoc] at before
  have free : ∀ piece ∈ o.commentLines depth m.leading ++ o.indentation depth,
      piece.isToken = false := by
    intro piece member
    rcases List.mem_append.mp member with line | blank
    · exact free_commentLines depth m.leading piece line
    · exact free_blanks _ piece blank
  have starts : ∀ piece ∈ (words depth ++ (o.finish m ++ more)).head?, piece.isToken = true := by
    rw [opens]
    rintro piece ⟨⟩
    rfl
  obtain ⟨leading, front⟩ := before.leading free starts
  obtain ⟨u, c₁, same, behind, read⟩ := reads _ _ (endsStatement_finish next) front
  obtain ⟨kindAfter, trailing, after⟩ := reads_finish oneLine noSemicolon behind
  refine ⟨u, c₁, read, ?_, isTerminal_of_notes same, kindAfter, after⟩
  have indentation : (o.indentation depth).filterMap Piece.note? = [] := notes_blanks _
  rw [List.filterMap_append, notes_commentLines, indentation, List.append_nil] at leading
  rw [Tree.notes_withComments same, outline_node, leading, trailing]
  unfold kept
  split <;> rfl

theorem reads_statements {ss : List SourceTree} (all : ∀ s ∈ ss, ReadsStatement o s)
    (terminalLast : ∀ s ∈ ss.dropLast, s.kind.isTerminal = false) (depth : Nat)
    {tail : List Piece} (stop : (nextKind tail).endsBlock = true) {c : Cursor}
    (before : Before ((ss.map o.fragment).flatMap (·.write depth) ++ tail) c) :
    ∃ us c₁, us.map Tree.notes = ss.map o.outline ∧ Before tail c₁ ∧
      Derives _ .statements c us c₁ := by
  induction ss generalizing c with
  | nil => exact ⟨[], c, rfl, before, before.derives (.none (before.kind ▸ stop))⟩
  | cons s ss ih =>
    obtain ⟨first, others⟩ := List.forall_mem_cons.mp all
    have later : ∀ s ∈ ss.dropLast, s.kind.isTerminal = false := by
      intro s' member
      refine terminalLast s' ?_
      rw [List.dropLast_cons_of_ne_nil (by rintro rfl; simp at member)]
      exact List.mem_cons_of_mem _ member
    rw [List.map_cons, List.flatMap_cons, List.append_assoc] at before
    generalize rest : (ss.map o.fragment).flatMap (·.write depth) ++ tail = more at before ih
    -- what comes next is found by reading it from some place
    have next : (nextKind more).endsBlock = true ∨
        s.kind.isTerminal = false ∧ (nextKind more).startsStatement = true := by
      by_cases last : ss = []
      · subst last
        exact .inl (rest ▸ stop)
      · obtain ⟨c₀, front⟩ : ∃ c₀, Before more c₀ := ⟨_, default, .start, rfl⟩
        obtain ⟨us, c₁, -, -, read⟩ := ih others later front
        refine (startsStatement_of_statements front read).imp_right fun starts => ⟨?_, starts⟩
        refine terminalLast s ?_
        rw [List.dropLast_cons_of_ne_nil last]
        exact List.mem_cons_self
    obtain ⟨u, c₁, read, same, terminal, kind, after⟩ := reads_line first depth next before
    obtain ⟨us, c₂, sames, before₂, readMore⟩ := ih others later after
    have front : c.afterLeading.EndsFile := before.endsFile
    have start : c.current.kind.endsBlock = false := by
      have starts : c.current.kind.startsStatement = true := read.starts
      cases kind : c.current.kind <;> first | rfl | exact absurd starts (by rw [kind]; decide)
    refine ⟨_ :: us, c₂, ?_, before₂, before.derives
      (.some start ((derives_iff front).mpr read) (fun isTerminal => ?_) readMore)⟩
    · rw [List.map_cons, List.map_cons, same, sames]
    · rw [kind]
      rcases next with close | ⟨notTerminal, -⟩
      · exact close
      · simp [terminal, notTerminal] at isTerminal

theorem reads_block {m : Origin} {ss : List SourceTree} (all : ∀ s ∈ ss, ReadsStatement o s)
    (terminalLast : ∀ s ∈ ss.dropLast, s.kind.isTerminal = false) (fit : Fit m (.block ss)) :
    ReadsBlock o (.node m (.block ss)) := by
  intro depth tail rest c closes before
  simp only [fragment_node, Kind.map, node, List.append_assoc] at before
  have stop : (nextKind (o.commentLines depth m.trailing ++ tail)).endsBlock = true := by
    rw [nextKind_append (free_commentLines depth m.trailing), closes.kind]
    exact closes.stop
  obtain ⟨us, c₁, sames, before₁, read⟩ := reads_statements all terminalLast depth stop before
  obtain ⟨blanks, rfl⟩ := closes.blanks
  rw [← List.append_assoc] at before₁
  have free : ∀ piece ∈ o.commentLines depth m.trailing ++ blanks.map .blank,
      piece.isToken = false := by
    intro piece member
    rcases List.mem_append.mp member with line | blank
    · exact free_commentLines depth m.trailing piece line
    · exact free_blanks _ piece blank
  obtain ⟨trailing, after⟩ := before₁.leading free closes.token
  refine ⟨_, _, ?_, after, before.derives (.intro read)⟩
  rw [List.filterMap_append, notes_commentLines, notes_blanks, List.append_nil] at trailing
  have noLeading : m.leading = [] := fit.placed
  simp only [Tree.notes_node, outline_node, Kind.map, sames, Origin.notes, trailing, kept,
    noLeading]
  split <;> rfl

end Blocks

end LuaTree
