import LuaTree.Proofs.Abreast
import LuaTree.Proofs.Adoption
import LuaTree.Proofs.TokenFidelity

/-!
# Only line breaks before openers matter

Trees that differ only in where their nodes come from are stored in arenas that
differ only there (`sameButOrigins_ofTree`). Two source texts with the same words, with a
line break before the same opening parentheses and brackets, therefore have
arenas that agree but for spans and comments, or fail with the same error at the
same token (`parse_same_but_layout`).
-/

namespace LuaTree

namespace Kind

variable {α β : Type}

/-- A node is determined by what it is without its children and by its children. -/
theorem eq_of_map_eq {k l : Kind α} {f : α → β} (shape : k.map f = l.map f)
    (same : k.children = l.children) : k = l := by
  have lengths {xs ys : List α} (mapped : xs.map f = ys.map f) : xs.length = ys.length := by
    simpa using congrArg List.length mapped
  have option {x y : Option α} (listed : x.toList = y.toList) : x = y := by
    cases x <;> cases y <;> simp_all
  cases k <;> cases l <;> first | (cases shape; done) | skip
  case assignment ts vs ts' vs' =>
    obtain ⟨targets, -⟩ := Kind.assignment.inj shape
    obtain ⟨rfl, rfl⟩ := List.append_inj same (lengths targets)
    rfl
  case localNames ns vs ns' vs' =>
    obtain ⟨names, -⟩ := Kind.localNames.inj shape
    obtain ⟨rfl, rfl⟩ := List.append_inj same (lengths names)
    rfl
  case genericFor ns es b ns' es' b' =>
    obtain ⟨names, iterators, -⟩ := Kind.genericFor.inj shape
    obtain ⟨lists, body⟩ := List.append_inj' same rfl
    obtain ⟨rfl, rfl⟩ := List.append_inj lists (lengths names)
    obtain rfl := List.singleton_inj.mp body
    rfl
  case ifChain e b clauses branch e' b' clauses' branch' =>
    obtain ⟨-, -, elseIfs, -⟩ := Kind.ifChain.inj shape
    obtain ⟨lists, last⟩ := List.append_inj same (by simp [lengths elseIfs])
    obtain rfl := option last
    simp_all
  case numericFor n e₁ e₂ e₃ b n' e₁' e₂' e₃' b' =>
    obtain ⟨lists, last⟩ := List.append_inj' same rfl
    simp only [List.cons.injEq] at lists last
    obtain rfl := option lists.2.2.2
    simp_all
  case field style key e style' key' e' =>
    obtain ⟨rfl, -⟩ := Kind.field.inj shape
    obtain ⟨lists, last⟩ := List.append_inj' same rfl
    obtain rfl := option lists
    simp_all
  all_goals simp_all [map, children]

end Kind

namespace Tree

/-- The tree without its marks. -/
def unmarked {ι : Type} (t : Tree ι) : Tree Unit :=
  t.mapMark fun _ => ()

theorem unmarked_node {ι : Type} (m : ι) (k : Kind (Tree ι)) :
    unmarked (.node m k) = .node () (k.map unmarked) :=
  mapMark_node _ _ _

theorem unmarked_mapMark {ι κ : Type} (f : ι → κ) (t : Tree ι) :
    (t.mapMark f).unmarked = t.unmarked :=
  fold_mapMark _ _ _

/-- With all texts clear, only marks are blurred. -/
theorem blurred_clear {ι : Type} (t : Tree ι) : t.blurred .clear = t.unmarked := by
  have plain {α : Type} (k : Kind α) : k.blur .clear = k := by cases k <;> rfl
  unfold blurred unmarked mapMark
  simp only [plain]

end Tree

namespace Arena

variable {a b : Arena}

/-- Arenas whose nodes have the same kinds. -/
def Twins (a b : Arena) : Prop :=
  a.rows.map Prod.snd = b.rows.map Prod.snd

theorem Twins.size_eq (twins : Twins a b) : a.size = b.size := by
  simpa [length_rows] using congrArg List.length twins

theorem Twins.push (twins : Twins a b) (m m' : Origin) (k : Kind NodeId) :
    Twins (a.push m k) (b.push m' k) := by
  unfold Twins at twins ⊢
  rw [rows_push, rows_push, List.map_append, List.map_append, twins]
  rfl

theorem kind_eq (a : Arena) (id : NodeId) :
    a.kind id = ((a.rows.map Prod.snd)[id.index]?).getD default := by
  simp only [rows, List.map_map, List.getElem?_map, Array.getElem?_toList, kind, get,
    Array.getD_eq_getD_getElem?]
  cases a.nodes[id.index]? <;> rfl

theorem Twins.kind (twins : Twins a b) (id : NodeId) : a.kind id = b.kind id := by
  rw [kind_eq, kind_eq, twins]

/-- Parents follow from children. -/
theorem Twins.parent (twins : Twins a b) (sound : a.Sound) (sound' : b.Sound) (id : NodeId) :
    a.parent id = b.parent id := by
  refine Option.ext fun p => ?_
  rw [sound.parent_eq_some_iff, sound'.parent_eq_some_iff]
  simp only [children, twins.kind]

/-- Trees but for marks, grafted one after another. -/
theorem twins_walk {ts us : List SourceTree} (same : ts.map Tree.unmarked = us.map Tree.unmarked)
    (each : ∀ t ∈ ts, ∀ u, t.unmarked = u.unmarked → ∀ a b, Twins a b →
      (graft t a).1 = (graft u b).1 ∧ Twins (graft t a).2 (graft u b).2)
    (twins : Twins a b) :
    (Kind.walk graft ts a).1.map Prod.snd = (Kind.walk graft us b).1.map Prod.snd ∧
      Twins (Kind.walk graft ts a).2 (Kind.walk graft us b).2 := by
  induction ts generalizing us a b with
  | nil =>
    obtain rfl : us = [] := by simpa using same.symm
    exact ⟨rfl, twins⟩
  | cons t ts ih =>
    cases us with
    | nil => exact absurd same (by simp)
    | cons u us =>
      obtain ⟨first, rest⟩ := List.cons.inj same
      obtain ⟨here, others⟩ := List.forall_mem_cons.mp each
      obtain ⟨handle, twins⟩ := here u first a b twins
      obtain ⟨handles, twins⟩ := ih rest others twins
      exact ⟨List.cons_eq_cons.mpr ⟨handle, handles⟩, twins⟩

theorem twins_graft (t : SourceTree) {u : SourceTree} (same : t.unmarked = u.unmarked)
    (twins : Twins a b) :
    (graft t a).1 = (graft u b).1 ∧ Twins (graft t a).2 (graft u b).2 := by
  induction t using Tree.induct generalizing u a b with
  | step m k ih =>
    obtain ⟨m', k'⟩ := u
    rw [Tree.unmarked_node, Tree.unmarked_node] at same
    have kinds := (Tree.node.inj same).2
    have children : k.children.map Tree.unmarked = k'.children.map Tree.unmarked := by
      rw [← Kind.children_map, ← Kind.children_map, kinds]
    obtain ⟨p, pairs, listed, run⟩ := Kind.traverse_run graft k a
    obtain ⟨p', pairs', listed', run'⟩ := Kind.traverse_run graft k' b
    obtain ⟨handles, twins⟩ := twins_walk children (fun t member u same a b twins =>
      ih t member same twins) twins
    have shape : (p.map Prod.snd).map (fun _ => ()) = (p'.map Prod.snd).map fun _ => () := by
      have blank (q : Kind (SourceTree × NodeId)) :
          (q.map Prod.snd).map (fun _ => ()) =
            ((q.map Prod.fst).map Tree.unmarked).map fun _ => () := by
        rw [Kind.map_map, Kind.map_map, Kind.map_map]
        rfl
      rw [blank, blank, pairs, pairs', kinds]
    have kind : p.map Prod.snd = p'.map Prod.snd := by
      refine Kind.eq_of_map_eq shape ?_
      rw [Kind.children_map, Kind.children_map, listed, listed', handles]
    rw [graft_node, graft_node, run, run']
    refine ⟨congrArg NodeId.mk twins.size_eq, ?_⟩
    rw [kind]
    exact twins.push m m' _

/-- Arenas that may differ in spans and comments only. -/
structure SameButOrigins (a b : Arena) : Prop where
  root : a.root = b.root
  size : a.size = b.size
  kind : ∀ id, a.kind id = b.kind id
  parent : ∀ id, a.parent id = b.parent id

/-- Trees but for marks have arenas but for origins. -/
theorem sameButOrigins_ofTree {t u : SourceTree} (same : t.unmarked = u.unmarked) :
    SameButOrigins (ofTree t) (ofTree u) := by
  obtain ⟨handle, twins⟩ := twins_graft t same (a := empty) (b := empty) rfl
  have twins : Twins (ofTree t) (ofTree u) := twins
  exact ⟨congrArg some handle, twins.size_eq, twins.kind,
    twins.parent (sound_ofTree t) (sound_ofTree u)⟩

end Arena

/-- Tokens with the same words, in which the same opening parentheses and brackets start on a later
line than the token before them ends. -/
structure SameButLayout (ts us : List Token) : Prop where
  words : ts.map Token.word = us.map Token.word
  breaks : List.zipWith Token.opensLine ts ts.tail = List.zipWith Token.opensLine us us.tail

instance (ts us : List Token) : Decidable (SameButLayout ts us) :=
  decidable_of_iff (ts.map Token.word = us.map Token.word ∧
    List.zipWith Token.opensLine ts ts.tail = List.zipWith Token.opensLine us us.tail)
    ⟨fun both => ⟨both.1, both.2⟩, fun same => ⟨same.words, same.breaks⟩⟩

theorem Token.alike_of_word {t u : Token} (same : t.word = u.word) : t.Alike .clear u := by
  obtain ⟨kind, lexeme, span⟩ := t
  obtain ⟨kind', lexeme', span'⟩ := u
  obtain ⟨rfl, rfl⟩ := Prod.mk.inj same
  exact ⟨rfl, fun _ => rfl, rfl, rfl, rfl⟩

namespace Cursor

/-- A token ends no earlier than it starts. -/
theorem line_le_of_mem {last : Span} {place : Place} {pieces : List Piece} {token : Token}
    (member : token ∈ (facing last place pieces).rest ++ [(facing last place pieces).stop]) :
    token.span.start.line ≤ token.span.stop.line := by
  induction pieces generalizing place with
  | nil =>
    obtain rfl := List.mem_singleton.mp member
    exact Nat.le_refl _
  | cons piece pieces ih =>
    cases piece with
    | token kind lexeme =>
      rcases List.mem_cons.mp member with rfl | member
      · exact place.line_le_after _
      · exact ih member
    | blank | lineComment | blockComment => exact ih member

/-- The cursor at the start of a source text. -/
def ofSource (source : String) : Cursor :=
  ofTokens (Scan.ofSource source).tokens (Scan.ofSource source).comments

/-- All tokens are in front of it. -/
theorem tokens_ofSource (source : String) :
    (ofSource source).rest ++ [(ofSource source).stop] = tokenize source := by
  obtain ⟨last, facing⟩ := exists_facing_cut source
  rw [ofSource, facing, tokenize, Scan.ofSource, ofPieces_eq last]

/-- No line breaks before the first token. -/
theorem first_ofSource {source : String} {t : Token} (first : t ∈ (tokenize source).head?) :
    ¬ (ofSource source).last.stop.line < t.span.start.line := by
  rw [← tokens_ofSource] at first
  have last : (ofSource source).last = t.span := by
    change ((ofSource source).rest.headD (ofSource source).stop).span = t.span
    cases rest : (ofSource source).rest <;> simp_all
  obtain ⟨last', facing⟩ := exists_facing_cut source
  have member := List.mem_of_mem_head? first
  rw [ofSource, facing] at member
  have ordered := line_le_of_mem member
  rw [last]
  omega

/-- Tokens that are alike one by one, and of which the same open lines, stand side by side. -/
theorem abreast_of_alike {b : Blur} {s t : String}
    (alike : List.Forall₂ (Token.Alike b) (tokenize s) (tokenize t))
    (breaks : List.zipWith Token.opensLine (tokenize s) (tokenize s).tail =
      List.zipWith Token.opensLine (tokenize t) (tokenize t).tail) :
    (ofSource s).Abreast b ((tokenize s).zip (tokenize t)) (ofSource t) := by
  have aligned := aligned_of_forall₂ alike (fun x first y first' _ =>
    iff_of_false (first_ofSource first) (first_ofSource first')) breaks
  have length := aligned.length_eq
  rw [← tokens_ofSource s, ← tokens_ofSource t] at alike aligned length ⊢
  have stop : (ofSource s).stop.Alike b (ofSource t).stop := by
    have backwards := List.forall₂_reverse_iff.mpr alike
    rw [List.reverse_append, List.reverse_append] at backwards
    exact (List.forall₂_cons.mp backwards).1
  have front := aligned.of_append (by simpa using length)
  refine ⟨endsFile_ofTokens _ _, endsFile_ofTokens _ _, front, List.suffix_refl _, ?_, stop.place⟩
  change b.SamePlace ((ofSource s).rest.headD _).span ((ofSource t).rest.headD _).span
  generalize (ofSource s).rest = left at front
  generalize (ofSource t).rest = right at front
  cases front with
  | nil => exact stop.place
  | cons alike => exact alike.place

theorem abreast_ofSource {s t : String} (same : SameButLayout (tokenize s) (tokenize t)) :
    (ofSource s).Abreast .clear ((tokenize s).zip (tokenize t)) (ofSource t) := by
  refine abreast_of_alike ?_ same.breaks
  have words := same.words
  rw [← List.forall₂_eq_eq_eq, List.forall₂_map_left_iff, List.forall₂_map_right_iff] at words
  exact words.imp fun _ _ => Token.alike_of_word

end Cursor

/-- Source texts with the same words, and line breaks before the same openers, have the same
program but for spans and comments, or the same error at the same token. -/
theorem parse_same_but_layout {s t : String} (same : SameButLayout (tokenize s) (tokenize t)) :
    (∃ u v, parse s = .ok u ∧ parse t = .ok v ∧
      (Arena.ofTree u).SameButOrigins (Arena.ofTree v)) ∨
    ∃ (e f : ParseError) (i : Nat) (p q : Token), parse s = .error e ∧ parse t = .error f ∧
      e.cause = f.cause ∧ e.isGrammarRule = f.isGrammarRule ∧
      e.message = f.message ∧ e.token = f.token ∧
      (tokenize s)[i]? = some p ∧ (tokenize t)[i]? = some q ∧
      e.token = p.kind ∧ e.position = p.span.start ∧ f.position = q.span.start := by
  obtain ⟨u, v, parsed, parsed', trees⟩ | ⟨cause, x, beside, kind, failed, failed'⟩ :=
    parseTokens_matched (Cursor.abreast_ofSource same)
  · refine .inl ⟨u, v, parsed, parsed', Arena.sameButOrigins_ofTree ?_⟩
    rw [← Tree.blurred_clear, ← Tree.blurred_clear]
    exact trees
  · obtain ⟨i, found⟩ := List.mem_iff_getElem?.mp beside
    obtain ⟨left, right⟩ := List.getElem?_zip_eq_some.mp found
    exact .inr ⟨_, _, i, x.1, x.2, failed, failed', rfl, rfl, rfl, kind, left, right, rfl, rfl, rfl⟩

/-- Two layouts of one program, with a line break before one of its parentheses. -/
theorem parse_same_but_layout_calls :
    SameButLayout (tokenize "local x = f(1) -- one\n(g or h)(x)")
        (tokenize "local x\n= f ( 1 )\n\n(g\nor h)(x)") ∧
      ∃ u v, parse "local x = f(1) -- one\n(g or h)(x)" = .ok u ∧
        parse "local x\n= f ( 1 )\n\n(g\nor h)(x)" = .ok v ∧
        (Arena.ofTree u).SameButOrigins (Arena.ofTree v) := by
  have same : SameButLayout (tokenize "local x = f(1) -- one\n(g or h)(x)")
      (tokenize "local x\n= f ( 1 )\n\n(g\nor h)(x)") := by decide +kernel
  refine ⟨same, (parse_same_but_layout same).resolve_right ?_⟩
  rintro ⟨e, f, i, p, q, failed, -⟩
  obtain ⟨t, parsed⟩ : ∃ t, parse "local x = f(1) -- one\n(g or h)(x)" = .ok t :=
    exists_parse (by decide +kernel)
  rw [failed] at parsed
  cases parsed

end LuaTree
