import LuaTree.Proofs.Levels
import LuaTree.Proofs.LineBreaks

/-!
# Expressions of samples

An expression in which no function stands is written on one line. With samples in
place of its texts it can be written if it keeps to the levels of the operators
(`Tree.writable_sampled`), and its text has no line break at all
(`Layout.oneLine_sampled`).
-/

namespace LuaTree

/-- A literal of the same kind. -/
def Literal.sample (l : Literal) : Literal :=
  match l.kind with
  | .number => ⟨"0", .number⟩
  | .string _ => ⟨"", .string '"'⟩
  | .boolean => ⟨if l.value = "true" then "true" else "false", .boolean⟩
  | .nil => ⟨"nil", .nil⟩

/-- Samples in place of names and literals. -/
def Blur.sample : Blur := ⟨fun _ => "x", Literal.sample, fun _ => default⟩

/-- The word with a sample in place of its text. -/
def Word.sampled (w : Word) : Word :=
  (w.1, w.1.sample)

theorem isIdentifier_sample : IsIdentifier "x" := by decide +kernel

theorem Literal.isToken_sample (l : Literal) : l.sample.IsToken := by
  obtain ⟨value, kind⟩ := l
  cases kind with
  | number =>
    have alone : Piece.cut "0".toList = [.token .number "0".toList] := by decide +kernel
    exact alone
  | string quote => exact ⟨rfl, rfl⟩
  | boolean =>
    simp only [sample, IsToken]
    split <;> simp
  | nil => rfl

theorem words_literal_sample (l : Literal) :
    Piece.words [Layout.literal l.sample] = (Piece.words [Layout.literal l]).map Word.sampled := by
  obtain ⟨value, kind⟩ := l
  cases kind with
  | boolean =>
    simp only [Literal.sample, Layout.literal]
    split <;> rfl
  | _ => simp [Literal.sample, Layout.literal, Word.sampled, TokenKind.sample, TokenKind.spelling]

/-- Keywords and symbols are their own samples. -/
theorem sampled_fixed {kind : TokenKind} (spelt : kind.sample = kind.spelling) :
    Word.sampled (fixed kind) = fixed kind := by
  simp [Word.sampled, fixed, spelt]

theorem sampled_binaryOp (op : BinaryOp) : Word.sampled (fixed op.token) = fixed op.token := by
  cases op <;> rfl

theorem sampled_unaryOp (op : UnaryOp) : Word.sampled (fixed op.token) = fixed op.token := by
  cases op <;> rfl

theorem sampled_assignToken (op : BinaryOp) :
    (op.assignToken?.toList.map fixed).map Word.sampled = op.assignToken?.toList.map fixed := by
  cases op <;> rfl

theorem commaWords_sampled (parts : List (List Word)) :
    commaWords (parts.map (List.map Word.sampled)) = (commaWords parts).map Word.sampled := by
  have comma : Word.sampled (fixed .comma) = fixed .comma := rfl
  cases parts with
  | nil => rfl
  | cons part parts => simp [commaWords, List.map_flatMap, List.flatMap_map, comma]

theorem Kind.words_sampled (k : Kind (List Word)) :
    ((k.map (List.map Word.sampled)).blur .sample).words = k.words.map Word.sampled := by
  cases k
  case literal l => exact words_literal_sample l
  case identifier n => rfl
  case compoundAssignment op t v =>
    simp only [map, blur, words, List.map_append, sampled_assignToken]
  case localNames ns vs =>
    cases vs <;> simp (disch := decide) [map, blur, words, sampled_fixed, ← commaWords_sampled]
  case ifChain e b clauses branch =>
    cases branch <;> simp (disch := decide) [map, blur, words, sampled_fixed]
  case numericFor n e₁ e₂ e₃ b =>
    cases e₃ <;> simp (disch := decide) [map, blur, words, sampled_fixed, ← commaWords_sampled]
  case access style t key =>
    cases style <;> simp (disch := decide) [map, blur, words, sampled_fixed]
  case field style key e =>
    cases style <;> cases key <;> simp (disch := decide) [map, blur, words, sampled_fixed]
  all_goals
    simp (disch := decide) [map, blur, words, sampled_fixed, commaWords_sampled,
      sampled_binaryOp, sampled_unaryOp]

namespace Tree

variable {ι κ : Type}

/-- The tree with samples in place of its texts, and without comments. -/
def sampled : Tree ι → SourceTree :=
  fold fun _ kind => .node default (kind.blur .sample)

theorem sampled_node (m : ι) (k : Kind (Tree ι)) :
    sampled (.node m k) = .node default ((k.map sampled).blur .sample) :=
  fold_node _ _ _

theorem unmarked_sampled (t : Tree ι) : t.sampled.unmarked = t.blurred .sample := by
  induction t using Tree.induct with
  | step m k ih =>
    rw [sampled_node, unmarked_node, blurred_node, Kind.map_blur, Kind.map_map]
    exact congrArg (fun k => Tree.node () (k.blur .sample)) (Kind.map_congr k ih)

theorem words_sampled (t : Tree ι) : t.sampled.words = t.words.map Word.sampled := by
  induction t using Tree.induct with
  | step m k ih =>
    rw [sampled_node, words_node, words_node, ← Kind.words_sampled, Kind.map_blur, Kind.map_map,
      Kind.map_map]
    exact congrArg (fun k => (k.blur .sample).words) (Kind.map_congr k ih)

@[simp] theorem grip_sampled (t : Tree ι) : t.sampled.grip = t.grip := by
  obtain ⟨m, k⟩ := t
  rw [sampled_node]
  cases k <;> rfl

end Tree

theorem Fit.sampled {ι : Type} {k : Kind (Tree ι)} (follows : (k.map Tree.grip).KeepsLevels) :
    Fit default ((k.map Tree.sampled).blur .sample) := by
  refine .of_bare ⟨rfl, rfl⟩ ((keepsLevels_iff_snug _).mp ?_)
  have grips : Tree.grip ∘ Tree.sampled = (Tree.grip : Tree ι → Grip) := funext Tree.grip_sampled
  rw [Kind.map_blur, Kind.map_map, grips]
  cases k <;> exact follows

def Kind.isFunction {α : Type} : Kind α → Bool
  | anonymousFunction .. => true
  | _ => false

@[simp] theorem Kind.isFunction_map {α β : Type} (f : α → β) (k : Kind α) :
    (k.map f).isFunction = k.isFunction := by
  cases k <;> rfl

@[simp] theorem Kind.isExpression_map {α β : Type} (f : α → β) (k : Kind α) :
    (k.map f).isExpression = k.isExpression := by
  cases k <;> rfl

/-- Whether a function stands in the tree. -/
def Tree.hasFunction {ι : Type} : Tree ι → Bool :=
  fold fun _ kind => kind.isFunction || kind.children.any id

theorem Tree.hasFunction_node_eq_false {ι : Type} {m : ι} {k : Kind (Tree ι)} :
    (Tree.node m k).hasFunction = false ↔
      k.isFunction = false ∧ ∀ c ∈ k.children, c.hasFunction = false := by
  rw [hasFunction, fold_node, Kind.isFunction_map, Kind.children_map, List.any_map]
  simp

/-- The places in an expression without functions. -/
def Slot.isOperand : Slot → Bool
  | name | expression | field => true
  | _ => false

/-- In such an expression there are only expressions, names and fields. -/
theorem Slot.isOperand_part {α : Type} {slot : Slot} {k : Kind α} (operand : slot.isOperand = true)
    (admits : slot.admits k = true) (plain : k.isFunction = false) :
    k.isExpression = true ∧ ∀ part ∈ slot.parts k, part.1.isOperand = true := by
  cases slot <;> try (cases operand; done)
  case name =>
    cases k <;> first | (cases admits; done) | exact ⟨rfl, nofun⟩
  case field =>
    cases k <;> try (cases admits; done)
    case field style key e =>
      refine ⟨rfl, ?_⟩
      cases style <;> exact List.forall_mem_append.mpr
        ⟨List.forall_mem_map.mpr fun _ _ => rfl, List.forall_mem_singleton.mpr rfl⟩
  case expression =>
    cases k <;> first | (cases admits; done) | (cases plain; done) | refine ⟨rfl, ?_⟩
    case access style t key => cases style <;> simp [parts, isDotted, isOperand]
    all_goals simp [parts, isOperand]

namespace Tree

variable {ι : Type}

/-- Induction over an expression without functions, with the places of its parts. -/
theorem operand_induct {motive : Slot → Tree ι → Prop}
    (step : ∀ (slot : Slot) (m : ι) (k : Kind (Tree ι)), slot.isOperand = true →
      slot.admits k = true → k.isComplete = true → k.isFunction = false →
      (∀ part ∈ slot.parts k, motive part.1 part.2) → motive slot (.node m k))
    {t : Tree ι} {slot : Slot} (operand : slot.isOperand = true) (stands : t.stands slot = true)
    (plain : t.hasFunction = false) : motive slot t := by
  induction t using Tree.induct generalizing slot with
  | step m k ih =>
    obtain ⟨admits, complete, parts⟩ := stands_node_iff.mp stands
    obtain ⟨here, below⟩ := hasFunction_node_eq_false.mp plain
    refine step slot m k operand admits complete here fun part member => ?_
    have child : part.2 ∈ k.children := slot.map_snd_parts k ▸ List.mem_map_of_mem member
    exact ih part.2 child ((Slot.isOperand_part operand admits here).2 part member)
      (parts part member) (below part.2 child)

/-- With samples for its texts, an expression that keeps to the levels can be written. -/
theorem writable_sampled {t : Tree ι} {slot : Slot} (operand : slot.isOperand = true)
    (stands : t.stands slot = true) (plain : t.hasFunction = false)
    (keeps : t.KeepsLevels) : ∀ role : Role, role.slot = slot → Writable role t.sampled := by
  refine operand_induct (motive := fun slot t =>
    t.KeepsLevels → ∀ role : Role, role.slot = slot → Writable role t.sampled)
    ?_ operand stands plain keeps
  intro slot m k operand admits complete plain ih keeps role place
  obtain ⟨here, below⟩ := every_node_iff.mp keeps
  have fit := Fit.sampled here
  have formed (role : Role) (c : Tree ι) (part : (role.slot, c) ∈ slot.parts k) :
      Writable role c.sampled := by
    have child : c ∈ k.children := slot.map_snd_parts k ▸ List.mem_map_of_mem part
    exact ih _ part (below c child) role rfl
  clear ih keeps below
  rw [sampled_node]
  cases role <;> cases place <;> try (cases operand; done)
  case name =>
    cases k <;> try (cases admits; done)
    exact .name isIdentifier_sample fit
  case field =>
    cases k <;> try (cases admits; done)
    case field style key e =>
      have value := formed .expression e (by simp [Slot.parts, Role.slot])
      cases style <;> cases key <;> try (cases complete; done)
      case positional.none => exact .positional value fit
      case named.some key =>
        exact .named (formed .name key (by simp [Slot.parts, Role.slot])) value fit
      case bracketed.some key =>
        exact .bracketed (formed .expression key (by simp [Slot.parts, Role.slot])) value fit
  case expression =>
    cases k <;> first | (cases admits; done) | (cases plain; done) | skip
    case identifier n => exact .ofName (.name isIdentifier_sample fit)
    case literal l => exact .literal l.isToken_sample fit
    case varArg => exact .varArg fit
    case binary op l r =>
      exact .binary (formed .expression l (by simp [Slot.parts, Role.slot]))
        (formed .expression r (by simp [Slot.parts, Role.slot])) fit
    case unary op e => exact .unary (formed .expression e (by simp [Slot.parts, Role.slot])) fit
    case paren e => exact .paren (formed .expression e (by simp [Slot.parts, Role.slot])) fit
    case functionCall f args =>
      refine .call (formed .expression f (by simp [Slot.parts, Role.slot])) ?_ fit
      exact List.forall_mem_map.mpr fun arg member =>
        formed .expression arg (by simp [Slot.parts, Role.slot, member])
    case methodCall e n args =>
      refine .methodCall (formed .expression e (by simp [Slot.parts, Role.slot]))
        (formed .name n (by simp [Slot.parts, Role.slot])) ?_ fit
      exact List.forall_mem_map.mpr fun arg member =>
        formed .expression arg (by simp [Slot.parts, Role.slot, member])
    case access style t key =>
      cases style with
      | dot =>
        exact .member (formed .expression t (by simp [Slot.parts, Role.slot, Slot.isDotted]))
          (formed .name key (by simp [Slot.parts, Role.slot])) fit
      | bracket =>
        exact .index (formed .expression t (by simp [Slot.parts, Role.slot]))
          (formed .expression key (by simp [Slot.parts, Role.slot])) fit
    case table fs =>
      refine .table ?_ fit
      exact List.forall_mem_map.mpr fun f member =>
        formed .field f (by simp [Slot.parts, Role.slot, member])

end Tree

/-- No line ends in the pieces. -/
def OneLine (pieces : List Piece) : Prop :=
  ∀ piece ∈ pieces, '\n' ∉ piece.chars

namespace OneLine

@[simp] theorem nil : OneLine [] :=
  nofun

@[simp] theorem cons_iff {piece : Piece} {pieces : List Piece} :
    OneLine (piece :: pieces) ↔ '\n' ∉ piece.chars ∧ OneLine pieces :=
  List.forall_mem_cons

@[simp] theorem append_iff {first second : List Piece} :
    OneLine (first ++ second) ↔ OneLine first ∧ OneLine second :=
  List.forall_mem_append

@[simp] theorem newline_word (kind : TokenKind) : '\n' ∉ (Layout.word kind).chars := by
  cases kind <;> decide

@[simp] theorem newline_space : '\n' ∉ Layout.space.chars := by
  decide

theorem literal_sample (l : Literal) : '\n' ∉ (Layout.literal l.sample).chars := by
  obtain ⟨value, kind⟩ := l
  cases kind with
  | boolean =>
    simp only [Literal.sample]
    split <;> decide
  | _ =>
    simp only [Literal.sample]
    decide

variable {f : Fragment} (here : ∀ depth, OneLine (f.write depth))

include here

theorem guarded (parens : Bool) (depth : Nat) : OneLine (Layout.guarded parens f depth) := by
  unfold Layout.guarded
  split
  · simp [Layout.parenthesized, here depth]
  · exact here depth

omit here in
theorem commas {fs : List Fragment} (all : ∀ f ∈ fs, ∀ depth, OneLine (f.write depth))
    (depth : Nat) : OneLine (Layout.commas depth fs) := by
  induction fs with
  | nil => exact nil
  | cons f fs ih =>
    obtain ⟨first, others⟩ := List.forall_mem_cons.mp all
    cases fs with
    | nil => simpa [Layout.commas_singleton] using first depth
    | cons g fs => simpa [Layout.commas_cons_cons, first depth] using ih others

omit here in
theorem unaryGap (op : UnaryOp) (operand : List Piece) : OneLine (Layout.unaryGap op operand) := by
  unfold Layout.unaryGap
  split
  · simp
  · split <;> simp
  · simp

end OneLine

namespace Layout

variable (o : Layout)

/-- An expression other than a function is written on the lines of its parts. -/
theorem oneLine_node {m : Origin} {k : Kind Fragment} (expression : k.isExpression = true)
    (plain : k.isFunction = false)
    (parts : ∀ f ∈ k.children, ∀ depth, OneLine (f.write depth)) (depth : Nat) :
    OneLine ((o.node m (k.blur .sample)).write depth) := by
  cases k <;> first | (cases expression; done) | (cases plain; done) | skip
  case identifier n =>
    have sample : '\n' ∉ "x".toList := by decide
    exact OneLine.cons_iff.mpr ⟨sample, .nil⟩
  case literal l => exact OneLine.cons_iff.mpr ⟨OneLine.literal_sample l, .nil⟩
  case varArg => exact OneLine.cons_iff.mpr ⟨OneLine.newline_word _, .nil⟩
  case access style t key =>
    have table := OneLine.guarded (parts t (by simp [Kind.children]))
    have key := parts key (by simp [Kind.children])
    cases style <;> simp [Kind.blur, node, head, table, key]
  case field style key e =>
    have value := parts e (by simp [Kind.children])
    cases style <;> cases key
    case named.some key =>
      have key := parts key (by simp [Kind.children])
      simp [Kind.blur, node, spaced, key, value]
    case bracketed.some key =>
      have key := parts key (by simp [Kind.children])
      simp [Kind.blur, node, spaced, key, value]
    all_goals exact value depth
  case binary op l r =>
    have left := OneLine.guarded (parts l (by simp [Kind.children]))
    have right := OneLine.guarded (parts r (by simp [Kind.children]))
    simp [Kind.blur, node, spaced, left, right]
  case unary op e =>
    have operand := OneLine.guarded (parts e (by simp [Kind.children]))
    simp [Kind.blur, node, operand, OneLine.unaryGap]
  case paren e =>
    have inner := parts e (by simp [Kind.children])
    simp [Kind.blur, node, parenthesized, inner]
  case functionCall f args =>
    obtain ⟨callee, arguments⟩ := List.forall_mem_cons.mp parts
    simp [Kind.blur, node, head, parenthesized, OneLine.guarded callee, OneLine.commas arguments]
  case methodCall e n args =>
    obtain ⟨receiver, others⟩ := List.forall_mem_cons.mp parts
    obtain ⟨method, arguments⟩ := List.forall_mem_cons.mp others
    simp [Kind.blur, node, head, parenthesized, OneLine.guarded receiver, method,
      OneLine.commas arguments]
  case methodName t n =>
    have table := parts t (by simp [Kind.children])
    have method := parts n (by simp [Kind.children])
    simp [Kind.blur, node, table, method]
  case table fs =>
    have fields := OneLine.commas parts depth
    exact OneLine.cons_iff.mpr ⟨OneLine.newline_word _, OneLine.append_iff.mpr ⟨fields, by simp⟩⟩

/-- With samples for its texts, an expression without functions is written on one line. -/
theorem oneLine_sampled {ι : Type} {t : Tree ι} {slot : Slot} (operand : slot.isOperand = true)
    (stands : t.stands slot = true) (plain : t.hasFunction = false) :
    ∀ depth, OneLine ((o.fragment t.sampled).write depth) := by
  refine Tree.operand_induct (motive := fun _ t =>
    ∀ depth, OneLine ((o.fragment t.sampled).write depth)) ?_ operand stands plain
  intro slot m k operand admits _ plain ih
  rw [Tree.sampled_node, fragment_node, Kind.map_blur, Kind.map_map]
  have expression := (Slot.isOperand_part operand admits plain).1
  refine o.oneLine_node (by rwa [Kind.isExpression_map]) (by rwa [Kind.isFunction_map]) ?_
  rw [Kind.children_map, ← slot.map_snd_parts]
  exact List.forall_mem_map.mpr (List.forall_mem_map.mpr ih)

end Layout

end LuaTree
