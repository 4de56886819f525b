import LuaTree.Proofs.OneLine
import LuaTree.Proofs.Rereading

/-!
# One tree for each expression

Two expressions without functions that keep to the levels of the operators and
have the same words are the same tree (`Tree.Leveled.unmarked_eq`). With samples
for their texts they are written with the same words on one line, and reading
that line gives both of them back. Their texts then follow from their words.

Reading an expression gives a tree that keeps to the levels (`leveled_of_reads`),
which therefore is the only one.
-/

namespace LuaTree

theorem literal_eq_of_words {l l' : Literal}
    (same : Piece.words [Layout.literal l] = Piece.words [Layout.literal l']) : l = l' := by
  obtain ⟨value, kind⟩ := l
  obtain ⟨value', kind'⟩ := l'
  cases kind <;> cases kind' <;> simp [Layout.literal] at same <;> grind

theorem flatMap_comma_inj {ps qs : List (List Word)}
    (lengths : ps.map List.length = qs.map List.length)
    (same : ps.flatMap (fixed .comma :: ·) = qs.flatMap (fixed .comma :: ·)) : ps = qs := by
  induction ps generalizing qs with
  | nil => simpa using lengths.symm
  | cons p ps ih =>
    cases qs with
    | nil => exact absurd lengths (by simp)
    | cons q qs =>
      obtain ⟨here, others⟩ := List.cons.inj lengths
      obtain ⟨first, rest⟩ := List.append_inj (List.cons.inj same).2 here
      rw [first, ih others rest]

theorem commaWords_inj {ps qs : List (List Word)}
    (lengths : ps.map List.length = qs.map List.length) (same : commaWords ps = commaWords qs) :
    ps = qs := by
  cases ps with
  | nil => simpa using lengths.symm
  | cons p ps =>
    cases qs with
    | nil => exact absurd lengths (by simp)
    | cons q qs =>
      obtain ⟨here, others⟩ := List.cons.inj lengths
      obtain ⟨first, rest⟩ := List.append_inj same here
      rw [first, flatMap_comma_inj others rest]

/-- The words of an expression determine its texts and the words of its parts, if it is known how
long those are. -/
theorem Kind.eq_of_words {k l : Kind (List Word)} (expression : k.isExpression = true)
    (plain : k.isFunction = false) (complete : k.isComplete = true)
    (shape : (k.map List.length).blur .sample = (l.map List.length).blur .sample)
    (same : k.words = l.words) : k = l := by
  cases k <;> first | (cases expression; done) | (cases plain; done) | skip
  all_goals cases l <;> first | (cases shape; done) | skip
  case identifier n n' => simpa [words] using same
  case literal l l' => rw [literal_eq_of_words same]
  case varArg => rfl
  case binary op l r op' l' r' =>
    obtain ⟨rfl, length, -⟩ := Kind.binary.inj shape
    obtain ⟨rfl, rest⟩ := List.append_inj same length
    rw [(List.cons.inj rest).2]
  case unary op e op' e' =>
    obtain ⟨rfl, -⟩ := Kind.unary.inj shape
    rw [(List.cons.inj same).2]
  case paren e e' =>
    rw [(List.append_inj (List.cons.inj same).2 (Kind.paren.inj shape)).1]
  case functionCall f args f' args' =>
    obtain ⟨length, lengths⟩ := Kind.functionCall.inj shape
    obtain ⟨rfl, rest⟩ := List.append_inj same length
    rw [commaWords_inj lengths (List.append_inj' (List.cons.inj rest).2 rfl).1]
  case methodCall e n args e' n' args' =>
    obtain ⟨length, length', lengths⟩ := Kind.methodCall.inj shape
    obtain ⟨rfl, rest⟩ := List.append_inj same length
    obtain ⟨rfl, list⟩ := List.append_inj (List.cons.inj rest).2 length'
    rw [commaWords_inj lengths (List.append_inj' (List.cons.inj list).2 rfl).1]
  case methodName t n t' n' =>
    obtain ⟨rfl, rest⟩ := List.append_inj same (Kind.methodName.inj shape).1
    rw [(List.cons.inj rest).2]
  case access style t key style' t' key' =>
    obtain ⟨rfl, length, length'⟩ := Kind.access.inj shape
    cases style with
    | dot =>
      obtain ⟨rfl, rest⟩ := List.append_inj same length
      rw [(List.cons.inj rest).2]
    | bracket =>
      obtain ⟨rfl, rest⟩ := List.append_inj same length
      rw [(List.append_inj (List.cons.inj rest).2 length').1]
  case table fs fs' =>
    rw [commaWords_inj (Kind.table.inj shape) (List.append_inj' (List.cons.inj same).2 rfl).1]
  case field style key e style' key' e' =>
    obtain ⟨rfl, keys, -⟩ := Kind.field.inj shape
    cases key <;> cases key' <;> first | (cases keys; done) | skip
    case none =>
      cases style <;> first | (cases complete; done) | rw [show e = e' from same]
    case some key key' =>
      cases style <;> first | (cases complete; done) | skip
      case named =>
        obtain ⟨rfl, rest⟩ := List.append_inj same (Option.some.inj keys)
        rw [(List.cons.inj rest).2]
      case bracketed =>
        obtain ⟨rfl, rest⟩ := List.append_inj (List.cons.inj same).2 (Option.some.inj keys)
        rw [(List.cons.inj (List.cons.inj rest).2).2]

namespace Tree

variable {ι κ : Type}

theorem words_unmarked (t : Tree ι) : t.unmarked.words = t.words :=
  fold_mapMark _ _ _

theorem length_words_blurred (t : Tree ι) : (t.blurred .sample).words.length = t.words.length := by
  rw [← unmarked_sampled, words_unmarked, words_sampled, List.length_map]

/-- Trees that are alike one by one and have the same words one by one. -/
theorem map_unmarked_eq {ts : List (Tree ι)} {us : List (Tree κ)}
    (each : ∀ t ∈ ts, ∀ u : Tree κ, t.blurred .sample = u.blurred .sample → t.words = u.words →
      t.unmarked = u.unmarked)
    (shapes : ts.map (blurred .sample) = us.map (blurred .sample))
    (same : ts.map words = us.map words) : ts.map unmarked = us.map unmarked := by
  induction ts generalizing us with
  | nil =>
    obtain rfl : us = [] := by simpa using shapes.symm
    rfl
  | cons t ts ih =>
    cases us with
    | nil => exact absurd shapes (by simp)
    | cons u us =>
      obtain ⟨shape, shapes⟩ := List.cons.inj shapes
      obtain ⟨first, rest⟩ := List.cons.inj same
      obtain ⟨here, others⟩ := List.forall_mem_cons.mp each
      exact List.cons_eq_cons.mpr ⟨here u shape first, ih others shapes rest⟩

/-- An expression without functions is determined by its shape and its words. -/
theorem unmarked_eq_of_blurred {t : Tree ι} {u : Tree κ} {slot : Slot}
    (operand : slot.isOperand = true) (stands : t.stands slot = true)
    (plain : t.hasFunction = false)
    (shape : t.blurred .sample = u.blurred .sample) (same : t.words = u.words) :
    t.unmarked = u.unmarked := by
  refine operand_induct (motive := fun _ t => ∀ u : Tree κ,
    t.blurred .sample = u.blurred .sample → t.words = u.words → t.unmarked = u.unmarked)
    ?_ operand stands plain u shape same
  rintro slot m k operand admits complete plain ih ⟨m', l⟩ shape same
  rw [blurred_node, blurred_node] at shape
  have kinds := (Tree.node.inj shape).2
  rw [words_node, words_node] at same
  have lengths : ((k.map words).map List.length).blur .sample =
      ((l.map words).map List.length).blur .sample := by
    have lists := congrArg (Kind.map fun t => t.words.length) kinds
    rw [Kind.map_blur, Kind.map_blur, Kind.map_map, Kind.map_map] at lists
    have count {ι : Type} : (fun t => t.words.length) ∘ blurred .sample =
        List.length ∘ (words : Tree ι → List Word) := funext length_words_blurred
    rwa [count, count, ← Kind.map_map, ← Kind.map_map] at lists
  have expression := (Slot.isOperand_part operand admits plain).1
  have parts : k.map words = l.map words :=
    Kind.eq_of_words (by rwa [Kind.isExpression_map]) (by rwa [Kind.isFunction_map])
      (by rwa [Kind.isComplete_map]) lengths same
  rw [unmarked_node, unmarked_node]
  refine congrArg (Tree.node ()) (Kind.eq_of_map_eq (f := fun _ => ()) ?_ ?_)
  · have blank := congrArg (Kind.map fun _ => ()) parts
    rw [Kind.map_map, Kind.map_map] at blank ⊢
    exact blank
  · have shapes := congrArg Kind.children kinds
    have words := congrArg Kind.children parts
    rw [Kind.children_blur, Kind.children_blur, Kind.children_map, Kind.children_map] at shapes
    rw [Kind.children_map, Kind.children_map] at words ⊢
    refine map_unmarked_eq ?_ shapes words
    rw [← slot.map_snd_parts]
    exact List.forall_mem_map.mpr ih

end Tree

namespace Cursor

/-- Tokens on one line. -/
theorem line_of_oneLine {last : Span} {place : Place} {pieces : List Piece} {token : Token}
    (oneLine : OneLine pieces) (member : token ∈ (facing last place pieces).rest) :
    token.span.start.line = place.position.line ∧ token.span.stop.line = place.position.line := by
  induction pieces generalizing place with
  | nil => simp [facing] at member
  | cons piece pieces ih =>
    obtain ⟨here, behind⟩ := OneLine.cons_iff.mp oneLine
    have line := place.line_after here
    cases piece with
    | token kind lexeme =>
      rcases List.mem_cons.mp member with rfl | member
      · exact ⟨rfl, line⟩
      · exact line ▸ ih behind member
    | blank | lineComment | blockComment => exact line ▸ ih behind member

/-- Tokens with the same words, all on one line, stand side by side. -/
theorem aligned_of_line {n : Nat} {ts us : List Token} {p q : Span}
    (same : ts.map Token.word = us.map Token.word) (first : p.stop.line = n)
    (second : q.stop.line = n)
    (left : ∀ t ∈ ts, t.span.start.line = n ∧ t.span.stop.line = n)
    (right : ∀ u ∈ us, u.span.start.line = n ∧ u.span.stop.line = n) :
    Aligned .clear p q ts us := by
  induction ts generalizing us p q with
  | nil =>
    obtain rfl : us = [] := by simpa using same.symm
    exact .nil
  | cons t ts ih =>
    cases us with
    | nil => exact absurd same (by simp)
    | cons u us =>
      obtain ⟨word, words⟩ := List.cons.inj same
      obtain ⟨⟨start, stop⟩, left⟩ := List.forall_mem_cons.mp left
      obtain ⟨⟨start', stop'⟩, right⟩ := List.forall_mem_cons.mp right
      refine .cons (Token.alike_of_word word) (fun _ => iff_of_false ?_ ?_)
        (ih words stop stop' left right)
      · omega
      · omega

theorem abreast_of_oneLine {last : Span} {place : Place} {pieces others : List Piece}
    (line : last.stop.line = place.position.line) (oneLine : OneLine pieces)
    (oneLine' : OneLine others) (same : Piece.words pieces = Piece.words others) :
    ∃ pairs, (facing last place pieces).Abreast .clear pairs (facing last place others) := by
  refine ⟨_, facing_endsFile _ _ _, facing_endsFile _ _ _, ?_, List.suffix_refl _, ⟨rfl, rfl⟩,
    ⟨rfl, rfl⟩⟩
  have words : (facing last place pieces).words = (facing last place others).words := by
    rw [words_facing, words_facing, same]
  rw [Cursor.words, Cursor.words, List.map_append, List.map_append] at words
  rw [last_facing, last_facing]
  exact aligned_of_line (List.append_inj' words rfl).1 line line
    (fun _ => line_of_oneLine oneLine) (fun _ => line_of_oneLine oneLine')

theorem lexed_ofSource {source : String} (terminated : isTerminated source = true) :
    (ofSource source).Lexed := by
  obtain ⟨last, start⟩ := exists_facing_cut source
  rw [ofSource, start]
  exact lexed_facing_cut (List.all_eq_true.mp terminated) last .start

end Cursor

open Cursor Grammar

theorem Grammar.Derives.unique {α : Type} {rule : Rule α} {c c' c'' : Cursor} {x y : α}
    (first : Derives α rule c x c') (second : Derives α rule c y c'') : x = y :=
  (Prod.mk.inj (Except.ok.inj (Eq.trans (Eq.symm first) second))).1

/-- The layout that writes words only. -/
def Layout.bare : Layout := ⟨false, "", false⟩

/-- An expression is read back from its own text. -/
theorem derives_of_writable {o : Layout} {e : SourceTree} (formed : Writable .expression e)
    (last : Span) (place : Place) :
    ∃ u c, Derives _ (.expression 1) (facing last place (o.pieces e)) u c ∧
      u.unmarked = e.unmarked := by
  have reads : ReadsExpression o e := readsAs formed
  have level : 1 ≤ e.grip.level := by
    cases e.grip with
    | binary op => cases op <;> decide
    | unary => decide
    | closed => decide
  have ends : Ends 1 [] := ⟨by decide, by decide, by decide, by decide⟩
  obtain ⟨u, c, same, -, read⟩ := reads.level 1 (by decide) level 0 [] _ ends
    ⟨last, place, by rw [List.append_nil]⟩
  refine ⟨u, c, read, ?_⟩
  have marks := congrArg Tree.unmarked same
  rwa [Tree.notes, Layout.outline, Tree.unmarked_mapMark, Tree.unmarked_mapMark] at marks

/-- Expressions that are written on one line with the same words are the same tree. -/
theorem unmarked_eq_of_oneLine {o : Layout} {e f : SourceTree} (left : Writable .expression e)
    (right : Writable .expression f) (oneLine : OneLine (o.pieces e))
    (oneLine' : OneLine (o.pieces f)) (same : Piece.words (o.pieces e) = Piece.words (o.pieces f)) :
    e.unmarked = f.unmarked := by
  have line : (Span.between .start .start).stop.line = Place.start.position.line := rfl
  obtain ⟨pairs, abreast⟩ := abreast_of_oneLine line oneLine oneLine' same
  obtain ⟨u, c, read, here⟩ := derives_of_writable (o := o) left (.between .start .start) .start
  obtain ⟨v, d, read', there⟩ := derives_of_writable (o := o) right (.between .start .start) .start
  obtain ⟨w, d', beside, alike⟩ := derives_abreast abreast (fun agree => agree.expression 1) read
  obtain rfl := beside.unique read'
  rw [← here, ← there, ← Tree.blurred_clear, ← Tree.blurred_clear]
  exact alike

/-- An expression in which no function stands and all operands keep to the levels. -/
structure Tree.Leveled {ι : Type} (t : Tree ι) : Prop where
  stands : t.stands .expression = true
  noFunction : t.hasFunction = false
  levels : t.KeepsLevels

namespace Tree.Leveled

variable {ι κ : Type} {t : Tree ι} {u : Tree κ}

/-- With samples for its texts, the expression can be written, on one line. -/
theorem written (leveled : t.Leveled) : Writable .expression t.sampled ∧
    OneLine (Layout.bare.pieces t.sampled) ∧
    Piece.words (Layout.bare.pieces t.sampled) = t.words.map Word.sampled := by
  have formed := writable_sampled rfl leveled.stands leveled.noFunction leveled.levels
    .expression rfl
  refine ⟨formed, Layout.bare.oneLine_sampled rfl leveled.stands leveled.noFunction 0, ?_⟩
  rw [← words_sampled]
  exact (Layout.spells rfl rfl formed 0).words

/-- Expressions with the same words are the same tree. -/
theorem unmarked_eq (left : t.Leveled) (right : u.Leveled) (same : t.words = u.words) :
    t.unmarked = u.unmarked := by
  obtain ⟨formed, oneLine, words⟩ := left.written
  obtain ⟨formed', oneLine', words'⟩ := right.written
  refine unmarked_eq_of_blurred rfl left.stands left.noFunction ?_ same
  rw [← unmarked_sampled, ← unmarked_sampled]
  refine unmarked_eq_of_oneLine formed formed' oneLine oneLine' ?_
  rw [words, words', same]

end Tree.Leveled

section Reading

variable {depth : Nat} {c c' : Cursor} {e : SourceTree} (proper : c.Proper)
  (read : (expression (rules depth) : TokenReader SourceTree).run c = .ok (e, c'))

include proper read

theorem derives_of_reads : Derives _ (.expression 1) c e c' :=
  (reads_of_weight_lt proper.ends (Nat.lt_succ_self _) read).1

/-- The tokens that are read are the words of the expression. -/
theorem passes_of_reads (lexed : c.Lexed) : Passes c e.words c' :=
  (derives_spelt proper.ends (derives_of_reads proper read) lexed).1

/-- What is read as an expression keeps to the levels. -/
theorem leveled_of_reads (plain : e.hasFunction = false) : e.Leveled := by
  obtain ⟨u, formed, same⟩ := exists_writable_of_expression proper (derives_of_reads proper read)
  have stands : u.stands .expression = true := formed.stands
  rw [← Tree.stands_blurred .blind, ← same, Tree.stands_blurred] at stands
  exact ⟨stands, plain, keepsLevels_of_same formed same⟩

end Reading

end LuaTree
