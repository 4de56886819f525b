import LuaTree.Proofs.Parentheses
import LuaTree.Proofs.Unambiguous

/-!
# Where parentheses stand

The words of an expression tell where its parentheses are. Each word other than a
parenthesis stands inside a number of them (`nestings`), and so does the
parenthesis that opens the arguments of a call, which is known by the operand
before it. A node has a word of its own, so that the numbers tell how many
parentheses are around the node: two expressions without functions that have the
same words and are the same without parentheses are the same
(`Tree.eq_of_nestings`).
-/

namespace LuaTree

/-- Whether an operand has ended behind a word of this kind. -/
def TokenKind.endsOperand : TokenKind → Bool
  | .identifier | .number | .string | .trueKw | .falseKw | .nilKw | .ellipsis | .rParen
  | .rBracket | .rBrace => true
  | _ => false

/-- The words with the number of parentheses around each of them. Separators are left out, and so
are parentheses, except those that open the arguments of a call: they stand behind an operand. -/
def nestings (behind : Bool) (depth : Nat) : List Word → List (Nat × Word)
  | [] => []
  | word :: words =>
    match word.1 with
    | .lParen => (if behind then [(depth, word)] else []) ++ nestings false (depth + 1) words
    | .rParen => nestings true (depth - 1) words
    | .comma | .semicolon => nestings false depth words
    | kind => (depth, word) :: nestings kind.endsOperand depth words

/-- The nestings of a node, given those of its children. -/
def Kind.nestings (k : Kind (Nat → List (Nat × Word))) (depth : Nat) : List (Nat × Word) :=
  match k with
  | .identifier n => [(depth, (.identifier, n))]
  | .literal l => (Piece.words [Layout.literal l]).map (depth, ·)
  | .varArg => [(depth, fixed .ellipsis)]
  | .binary op l r => l depth ++ (depth, fixed op.token) :: r depth
  | .unary op e => (depth, fixed op.token) :: e depth
  | .paren e => e (depth + 1)
  | .functionCall f args => f depth ++ (depth, fixed .lParen) :: args.flatMap (· (depth + 1))
  | .methodCall e n args =>
    e depth ++ (depth, fixed .colon) :: (n depth ++
      (depth, fixed .lParen) :: args.flatMap (· (depth + 1)))
  | .access .dot t key => t depth ++ (depth, fixed .dot) :: key depth
  | .access .bracket t key =>
    t depth ++ (depth, fixed .lBracket) :: (key depth ++ [(depth, fixed .rBracket)])
  | .table fs => (depth, fixed .lBrace) :: (fs.flatMap (· depth) ++ [(depth, fixed .rBrace)])
  | .field .named (some key) e => key depth ++ (depth, fixed .assign) :: e depth
  | .field .bracketed (some key) e =>
    (depth, fixed .lBracket) :: (key depth ++
      (depth, fixed .rBracket) :: (depth, fixed .assign) :: e depth)
  | .field _ _ e => e depth
  | _ => []

namespace Tree

variable {ι : Type}

/-- The nestings of an expression inside a number of parentheses. -/
def nestings : Tree ι → Nat → List (Nat × Word) :=
  fold fun _ => Kind.nestings

theorem nestings_node (m : ι) (k : Kind (Tree ι)) :
    nestings (.node m k) = (k.map nestings).nestings :=
  fold_node _ _ _

theorem nestings_paren (m : ι) (e : Tree ι) (depth : Nat) :
    nestings (.node m (.paren e)) depth = e.nestings (depth + 1) := by
  rw [nestings_node]
  rfl

end Tree

section Words

variable {behind : Bool} {depth : Nat} {words rest : List Word}

/-- A keyword or symbol that is neither a parenthesis nor a separator. -/
theorem nestings_fixed {kind : TokenKind}
    (other : kind ∉ [TokenKind.lParen, .rParen, .comma, .semicolon]) :
    nestings behind depth (fixed kind :: rest) =
      (depth, fixed kind) :: nestings kind.endsOperand depth rest := by
  cases kind <;> first | rfl | exact absurd other (by decide)

/-- The parenthesis before the arguments of a call. -/
theorem nestings_lParen_behind :
    nestings true depth (fixed .lParen :: rest) =
      (depth, fixed .lParen) :: nestings false (depth + 1) rest :=
  rfl

theorem nestings_rParen :
    nestings behind (depth + 1) (fixed .rParen :: rest) = nestings true depth rest :=
  rfl

theorem nestings_literal (l : Literal) :
    nestings behind depth (Piece.words [Layout.literal l] ++ rest) =
      (Piece.words [Layout.literal l]).map (depth, ·) ++ nestings true depth rest := by
  obtain ⟨value, kind⟩ := l
  cases kind with
  | boolean =>
    simp only [Layout.literal]
    split <;> rfl
  | _ => rfl

theorem nestings_binaryOp (op : BinaryOp) :
    nestings behind depth (fixed op.token :: rest) =
      (depth, fixed op.token) :: nestings false depth rest := by
  cases op <;> rfl

theorem nestings_unaryOp (op : UnaryOp) :
    nestings behind depth (fixed op.token :: rest) =
      (depth, fixed op.token) :: nestings false depth rest := by
  cases op <;> rfl

/-- From the words of an operand on, an operand has ended. -/
def Settles (words : List Word) (own : Nat → List (Nat × Word)) : Prop :=
  ∀ depth rest, nestings false depth (words ++ rest) = own depth ++ nestings true depth rest

theorem nestings_flatMap_comma {ι : Type} {ts : List (Tree ι)}
    (settle : ∀ t ∈ ts, Settles t.words t.nestings) :
    nestings true depth ((ts.map Tree.words).flatMap (fixed .comma :: ·) ++ rest) =
      (ts.map Tree.nestings).flatMap (· depth) ++ nestings true depth rest := by
  induction ts with
  | nil => rfl
  | cons t ts ih =>
    obtain ⟨first, others⟩ := List.forall_mem_cons.mp settle
    simp only [List.map_cons, List.flatMap_cons, List.cons_append, List.append_assoc]
    change nestings false depth _ = _
    rw [first, ih others]

/-- Words between commas, before a word that closes them. -/
theorem nestings_commaWords {ι : Type} {ts : List (Tree ι)}
    (settle : ∀ t ∈ ts, Settles t.words t.nestings)
    (close : nestings false depth rest = nestings true depth rest) :
    nestings false depth (commaWords (ts.map Tree.words) ++ rest) =
      (ts.map Tree.nestings).flatMap (· depth) ++ nestings true depth rest := by
  cases ts with
  | nil => exact close
  | cons t ts =>
    obtain ⟨first, others⟩ := List.forall_mem_cons.mp settle
    simp only [List.map_cons, commaWords, List.flatMap_cons, List.append_assoc]
    rw [first, nestings_flatMap_comma others]

end Words

namespace Tree

variable {ι : Type}

/-- The words of an expression have its nestings. -/
theorem settles {t : Tree ι} {slot : Slot} (operand : slot.isOperand = true)
    (stands : t.stands slot = true) (plain : t.hasFunction = false) :
    Settles t.words t.nestings := by
  refine operand_induct (motive := fun _ t => Settles t.words t.nestings) ?_ operand stands plain
  intro slot m k operand admits complete plain ih depth rest
  rw [words_node, nestings_node]
  have part (other : Slot) (c : Tree ι) (member : (other, c) ∈ slot.parts k) :
      Settles c.words c.nestings := ih _ member
  cases slot <;> try (cases operand; done)
  case name =>
    cases k <;> try (cases admits; done)
    rfl
  case field =>
    cases k <;> try (cases admits; done)
    case field style key e =>
      have value := part .expression e (by simp [Slot.parts])
      cases style <;> cases key <;> try (cases complete; done)
      case positional.none => exact value depth rest
      case named.some key =>
        have name := part .name key (by simp [Slot.parts])
        simp (disch := decide) only [Kind.map, Kind.words, Kind.nestings, Option.map_some,
          List.append_assoc, List.cons_append, name _, nestings_fixed, TokenKind.endsOperand,
          value _]
      case bracketed.some key =>
        have key := part .expression key (by simp [Slot.parts])
        simp (disch := decide) only [Kind.map, Kind.words, Kind.nestings, Option.map_some,
          List.append_assoc, List.cons_append, key _, nestings_fixed, TokenKind.endsOperand,
          value _]
  case expression =>
    cases k <;> first | (cases admits; done) | (cases plain; done) | skip
    case identifier n => rfl
    case literal l => exact nestings_literal l
    case varArg => rfl
    case binary op l r =>
      have left := part .expression l (by simp [Slot.parts])
      have right := part .expression r (by simp [Slot.parts])
      simp only [Kind.map, Kind.words, Kind.nestings, List.append_assoc, List.cons_append, left _,
        nestings_binaryOp, right _]
    case unary op e =>
      have inner := part .expression e (by simp [Slot.parts])
      simp only [Kind.map, Kind.words, Kind.nestings, List.cons_append, nestings_unaryOp, inner _]
    case paren e =>
      have inner := part .expression e (by simp [Slot.parts])
      simp only [Kind.map, Kind.words, Kind.nestings, List.append_assoc, List.cons_append]
      exact inner (depth + 1) _
    case functionCall f args =>
      have callee := part .expression f (by simp [Slot.parts])
      have arguments : ∀ arg ∈ args, Settles arg.words arg.nestings := fun arg member =>
        part .expression arg (by simp [Slot.parts, member])
      simp only [Kind.map, Kind.words, Kind.nestings, List.append_assoc, List.cons_append,
        callee _, nestings_lParen_behind, nestings_commaWords arguments nestings_rParen]
      rfl
    case methodCall e n args =>
      have receiver := part .expression e (by simp [Slot.parts])
      have method := part .name n (by simp [Slot.parts])
      have arguments : ∀ arg ∈ args, Settles arg.words arg.nestings := fun arg member =>
        part .expression arg (by simp [Slot.parts, member])
      simp (disch := decide) only [Kind.map, Kind.words, Kind.nestings, List.append_assoc,
        List.cons_append, receiver _, nestings_fixed, TokenKind.endsOperand, method _,
        nestings_lParen_behind, nestings_commaWords arguments nestings_rParen]
      rfl
    case access style t key =>
      have table := part .expression t (by cases style <;> simp [Slot.parts, Slot.isDotted])
      cases style with
      | dot =>
        have name := part .name key (by simp [Slot.parts])
        simp (disch := decide) only [Kind.map, Kind.words, Kind.nestings, List.append_assoc,
          List.cons_append, table _, nestings_fixed, TokenKind.endsOperand, name _]
      | bracket =>
        have index := part .expression key (by simp [Slot.parts])
        simp (disch := decide) only [Kind.map, Kind.words, Kind.nestings, List.append_assoc,
          List.cons_append, table _, nestings_fixed, TokenKind.endsOperand, index _,
          List.nil_append]
    case table fs =>
      have fields : ∀ f ∈ fs, Settles f.words f.nestings := fun f member =>
        part .field f (by simp [Slot.parts, member])
      simp (disch := decide) only [Kind.map, Kind.words, Kind.nestings, List.append_assoc,
        List.cons_append, nestings_fixed, TokenKind.endsOperand]
      rw [nestings_commaWords fields rfl]
      rfl

/-- A pair of parentheses is what is inside, and any other node stays. -/
theorem eraseParens_cases (m : ι) (k : Kind (Tree ι)) :
    (∃ e, k = .paren e ∧ eraseParens (.node m k) = e.eraseParens) ∨
      (∀ e, k ≠ .paren e) ∧ eraseParens (.node m k) = .node m (k.map eraseParens) := by
  rw [eraseParens_node]
  cases k
  case paren e => exact .inl ⟨e, rfl, rfl⟩
  all_goals exact .inr ⟨nofun, rfl⟩

end Tree

/-- The words of the nestings of a node depend on those of its children only. -/
theorem Kind.map_snd_nestings {α : Type} {f g : α → Nat → List (Nat × Word)} {k : Kind α}
    {words : α → List Word} (left : ∀ c ∈ k.children, ∀ d, (f c d).map Prod.snd = words c)
    (right : ∀ c ∈ k.children, ∀ d, (g c d).map Prod.snd = words c) (d d' : Nat) :
    ((k.map f).nestings d).map Prod.snd = ((k.map g).nestings d').map Prod.snd := by
  have list {xs : List α} {f : α → Nat → List (Nat × Word)}
      (each : ∀ x ∈ xs, ∀ d, (f x d).map Prod.snd = words x) (d : Nat) :
      ((xs.map f).flatMap (· d)).map Prod.snd = xs.flatMap words := by
    rw [List.flatMap_map, List.map_flatMap]
    exact List.flatMap_congr fun x member => each x member d
  cases k
  case access style t key => cases style <;> simp_all [map, nestings, children]
  case field style key e => cases style <;> cases key <;> simp_all [map, nestings, children]
  all_goals simp_all [map, nestings, children]

namespace Tree

variable {ι : Type}

/-- Parentheses change neither the words of the nestings nor their order. -/
theorem map_snd_nestings (t : Tree ι) (d : Nat) :
    (t.nestings d).map Prod.snd = (t.nestings 0).map Prod.snd ∧
      (t.eraseParens.nestings d).map Prod.snd = (t.nestings 0).map Prod.snd := by
  induction t using Tree.induct generalizing d with
  | step m k ih =>
    rcases eraseParens_cases m k with ⟨e, rfl, erased⟩ | ⟨-, erased⟩
    · have inner := ih e (List.mem_singleton_self _)
      rw [nestings_paren, nestings_paren, erased]
      exact ⟨(inner (d + 1)).1.trans (inner 1).1.symm, (inner d).2.trans (inner 1).1.symm⟩
    · rw [erased, nestings_node, nestings_node, Kind.map_map]
      have left := fun c member d => (ih c member d).1
      have right := fun c member d => (ih c member d).2
      exact ⟨Kind.map_snd_nestings left left d 0, Kind.map_snd_nestings right left d 0⟩

theorem length_nestings_eq {t : Tree ι} {u : Tree ι} (same : t.eraseParens = u.eraseParens)
    (d d' : Nat) : (t.nestings d).length = (u.nestings d').length := by
  have words : (t.nestings d).map Prod.snd = (u.nestings d').map Prod.snd := by
    rw [(t.map_snd_nestings d).1, (u.map_snd_nestings d').1, ← (t.map_snd_nestings 0).2,
      ← (u.map_snd_nestings 0).2, same]
  simpa using congrArg List.length words

/-- The tree in a number of parentheses. -/
def enclosed : Nat → Tree Unit → Tree Unit
  | 0, t => t
  | depth + 1, t => enclosed depth (.node () (.paren t))

theorem enclosed_inj {depth : Nat} {t u : Tree Unit}
    (same : enclosed depth t = enclosed depth u) : t = u := by
  induction depth generalizing t u with
  | zero => exact same
  | succ depth ih => exact Kind.paren.inj (Tree.node.inj (ih same)).2

/-- A tree in its place is known from its nestings if it is known without parentheses. -/
def Pinned (slot : Slot) (t : Tree Unit) : Prop :=
  ∀ u, u.stands slot = true → t.eraseParens = u.eraseParens →
    ∀ d, t.nestings d = u.nestings d → t = u

theorem eq_of_flatMap_nestings {slot : Slot} {ts us : List (Tree Unit)}
    (each : ∀ t ∈ ts, Pinned slot t) (stand : ∀ u ∈ us, u.stands slot = true)
    (same : ts.map eraseParens = us.map eraseParens) {d : Nat}
    (joined : (ts.map nestings).flatMap (· d) = (us.map nestings).flatMap (· d)) : ts = us := by
  induction ts generalizing us with
  | nil => simpa using same.symm
  | cons t ts ih =>
    cases us with
    | nil => exact absurd same (by simp)
    | cons u us =>
      obtain ⟨here, later⟩ := List.forall_mem_cons.mp each
      obtain ⟨place, places⟩ := List.forall_mem_cons.mp stand
      obtain ⟨first, others⟩ := List.cons.inj same
      obtain ⟨left, right⟩ := List.append_inj joined (length_nestings_eq first d d)
      rw [here u place first d left, ih later places others right]

/-- Behind a part stands a word of the node itself, which tells how many parentheses are around
it. -/
theorem own_of_append {t u : Tree Unit} (same : t.eraseParens = u.eraseParens) {d d' : Nat}
    {w w' : Word} {xs ys : List (Nat × Word)}
    (joined : t.nestings d ++ (d, w) :: xs = u.nestings d' ++ (d', w') :: ys) :
    d = d' ∧ t.nestings d = u.nestings d' ∧ xs = ys := by
  obtain ⟨front, back⟩ := List.append_inj joined (length_nestings_eq same d d')
  obtain ⟨word, rest⟩ := List.cons.inj back
  exact ⟨(Prod.mk.inj word).1, front, rest⟩

/-- Nodes with the same parts but for parentheses are told apart by their nestings. Those that are
not fields have a word of their own, which tells how many parentheses are around them. -/
theorem eq_of_nestings_node {slot : Slot} {k l : Kind (Tree Unit)} (operand : slot.isOperand = true)
    (admits : slot.admits k = true) (complete : k.isComplete = true) (plain : k.isFunction = false)
    (other : ∀ e, k ≠ .paren e) (each : ∀ part ∈ slot.parts k, Pinned part.1 part.2)
    (stand : ∀ part ∈ slot.parts l, part.2.stands part.1 = true)
    (same : k.map eraseParens = l.map eraseParens) {d d' : Nat} (field : slot = .field → d = d')
    (joined : (k.map nestings).nestings d = (l.map nestings).nestings d') : d = d' ∧ k = l := by
  have part (place : Slot) {t u : Tree Unit} (same : t.eraseParens = u.eraseParens)
      (left : (place, t) ∈ slot.parts k) (right : (place, u) ∈ slot.parts l) {d : Nat}
      (eq : t.nestings d = u.nestings d) : t = u :=
    each _ left u (stand _ right) same d eq
  have list (place : Slot) {ts us : List (Tree Unit)}
      (same : ts.map eraseParens = us.map eraseParens)
      (left : ∀ t ∈ ts, (place, t) ∈ slot.parts k) (right : ∀ u ∈ us, (place, u) ∈ slot.parts l)
      {d : Nat} (eq : (ts.map nestings).flatMap (· d) = (us.map nestings).flatMap (· d)) :
      ts = us :=
    eq_of_flatMap_nestings (fun t member => each _ (left t member))
      (fun u member => stand _ (right u member)) same eq
  cases slot <;> try (cases operand; done)
  case name =>
    cases k <;> try (cases admits; done)
    case identifier n =>
      cases l <;> try (cases same; done)
      case identifier n' => simpa [Kind.map, Kind.nestings] using joined
  case field =>
    obtain rfl := field rfl
    refine ⟨rfl, ?_⟩
    cases k <;> try (cases admits; done)
    case field style key e =>
      cases l <;> try cases same
      case field style' key' e' =>
        obtain ⟨rfl, keys, values⟩ := Kind.field.inj same
        have value := part .expression values (by simp [Slot.parts]) (by simp [Slot.parts]) (d := d)
        cases style <;> cases key <;> cases key' <;>
          first | (cases complete; done) | (cases keys; done) | skip
        case positional.none.none => rw [value joined]
        case named.some.some key key' =>
          obtain ⟨-, left, right⟩ := own_of_append (Option.some.inj keys) joined
          rw [part .name (Option.some.inj keys) (by simp [Slot.parts]) (by simp [Slot.parts]) left,
            value right]
        case bracketed.some.some key key' =>
          obtain ⟨-, left, right⟩ := own_of_append (Option.some.inj keys) (List.cons.inj joined).2
          rw [part .expression (Option.some.inj keys) (by simp [Slot.parts])
            (by simp [Slot.parts]) left, value (List.cons.inj right).2]
  case expression =>
    cases k <;> first | (cases admits; done) | (cases plain; done) | skip
    all_goals cases l <;> first | (cases same; done) | skip
    case identifier n n' => simpa [Kind.map, Kind.nestings] using joined
    case varArg => simpa [Kind.map, Kind.nestings] using joined
    case literal l l' =>
      obtain rfl := Kind.literal.inj same
      obtain ⟨word, alone⟩ : ∃ word, Piece.words [Layout.literal l] = [word] := by
        obtain ⟨value, kind⟩ := l
        cases kind <;> exact ⟨_, rfl⟩
      simpa [Kind.map, Kind.nestings, alone] using joined
    case binary op l r op' l' r' =>
      obtain ⟨rfl, lefts, rights⟩ := Kind.binary.inj same
      obtain ⟨rfl, left, right⟩ := own_of_append lefts joined
      rw [part .expression lefts (by simp [Slot.parts]) (by simp [Slot.parts]) left,
        part .expression rights (by simp [Slot.parts]) (by simp [Slot.parts]) right]
      exact ⟨rfl, rfl⟩
    case unary op e op' e' =>
      obtain ⟨rfl, inners⟩ := Kind.unary.inj same
      obtain ⟨word, inner⟩ := List.cons.inj joined
      obtain ⟨rfl, -⟩ := Prod.mk.inj word
      rw [part .expression inners (by simp [Slot.parts]) (by simp [Slot.parts]) inner]
      exact ⟨rfl, rfl⟩
    case paren e e' => exact absurd rfl (other e)
    case functionCall f args f' args' =>
      obtain ⟨callees, arguments⟩ := Kind.functionCall.inj same
      obtain ⟨rfl, callee, rest⟩ := own_of_append callees joined
      rw [part .expression callees (by simp [Slot.parts]) (by simp [Slot.parts]) callee,
        list .expression arguments (by simp +contextual [Slot.parts])
          (by simp +contextual [Slot.parts]) rest]
      exact ⟨rfl, rfl⟩
    case methodCall e n args e' n' args' =>
      obtain ⟨receivers, methods, arguments⟩ := Kind.methodCall.inj same
      obtain ⟨rfl, receiver, rest⟩ := own_of_append receivers joined
      obtain ⟨-, method, rest⟩ := own_of_append methods rest
      rw [part .expression receivers (by simp [Slot.parts]) (by simp [Slot.parts]) receiver,
        part .name methods (by simp [Slot.parts]) (by simp [Slot.parts]) method,
        list .expression arguments (by simp +contextual [Slot.parts])
          (by simp +contextual [Slot.parts]) rest]
      exact ⟨rfl, rfl⟩
    case access style t key style' t' key' =>
      obtain ⟨rfl, tables, keys⟩ := Kind.access.inj same
      cases style with
      | dot =>
        obtain ⟨rfl, table, rest⟩ := own_of_append tables joined
        rw [part .expression tables (by simp [Slot.parts, Slot.isDotted])
            (by simp [Slot.parts, Slot.isDotted]) table,
          part .name keys (by simp [Slot.parts]) (by simp [Slot.parts]) rest]
        exact ⟨rfl, rfl⟩
      | bracket =>
        obtain ⟨rfl, table, rest⟩ := own_of_append tables joined
        rw [part .expression tables (by simp [Slot.parts]) (by simp [Slot.parts]) table,
          part .expression keys (by simp [Slot.parts]) (by simp [Slot.parts])
            (List.append_inj_left' rest rfl)]
        exact ⟨rfl, rfl⟩
    case table fs fs' =>
      obtain ⟨word, rest⟩ := List.cons.inj joined
      obtain ⟨rfl, -⟩ := Prod.mk.inj word
      rw [list .field (Kind.table.inj same) (by simp [Slot.parts]) (by simp [Slot.parts])
        (List.append_inj_left' rest rfl)]
      exact ⟨rfl, rfl⟩

/-- Parentheses stand around expressions only. -/
theorem eq_expression_of_admits_paren {slot : Slot} {e : Tree Unit}
    (operand : slot.isOperand = true) (admits : slot.admits (.paren e) = true) :
    slot = .expression := by
  cases slot <;> first | rfl | (cases operand; done) | cases admits

/-- Trees that are the same without parentheses are the same inside all the parentheses around
them, if their words are inside as many. -/
theorem enclosed_eq {t : Tree Unit} {slot : Slot} (operand : slot.isOperand = true)
    (stands : t.stands slot = true) (plain : t.hasFunction = false) {u : Tree Unit}
    (place : u.stands slot = true) (same : t.eraseParens = u.eraseParens) {d d' : Nat}
    (field : slot = .field → d = d') (joined : t.nestings d = u.nestings d') :
    enclosed d t = enclosed d' u := by
  refine operand_induct (motive := fun slot t => ∀ u : Tree Unit, u.stands slot = true →
    t.eraseParens = u.eraseParens → ∀ d d', (slot = .field → d = d') →
      t.nestings d = u.nestings d' → enclosed d t = enclosed d' u)
    ?_ operand stands plain u place same d d' field joined
  -- parentheses are taken off the first tree and then off the second, down to nodes of their own
  intro slot m k operand admits complete plain ih u
  rcases eraseParens_cases m k with ⟨e, rfl, erased⟩ | ⟨other, erased⟩
  · obtain rfl := eq_expression_of_admits_paren operand admits
    intro place same d d' _ joined
    rw [erased] at same
    rw [nestings_paren] at joined
    exact ih (.expression, e) (by simp [Slot.parts]) u place same (d + 1) d' (by rintro ⟨⟩) joined
  induction u using Tree.induct with
  | step m' l inner =>
    intro place same d d' field joined
    obtain ⟨admits', -, stand⟩ := stands_node_iff.mp place
    rcases eraseParens_cases m' l with ⟨e, rfl, erased'⟩ | ⟨-, erased'⟩
    · obtain rfl := eq_expression_of_admits_paren operand admits'
      rw [erased'] at same
      rw [nestings_paren m'] at joined
      exact inner e (List.mem_singleton_self _) (stand (.expression, e) (by simp [Slot.parts])) same
        d (d' + 1) (by rintro ⟨⟩) joined
    · rw [erased, erased'] at same
      rw [nestings_node, nestings_node] at joined
      have each : ∀ part ∈ slot.parts k, Pinned part.1 part.2 := fun part member u place same d
          eq => enclosed_inj (ih part member u place same d d (fun _ => rfl) eq)
      obtain ⟨rfl, rfl⟩ := eq_of_nestings_node operand admits complete plain other each stand
        (Tree.node.inj same).2 field joined
      rfl

/-- An expression without functions is known from its nestings if it is known without
parentheses. -/
theorem eq_of_nestings {t u : Tree Unit} (left : t.stands .expression = true)
    (right : u.stands .expression = true) (plain : t.hasFunction = false)
    (same : t.eraseParens = u.eraseParens) (nested : t.nestings 0 = u.nestings 0) : t = u := by
  have around : enclosed 0 t = enclosed 0 u := enclosed_eq rfl left plain right same nofun nested
  exact around

end Tree

end LuaTree
