import LuaTree.Proofs.Attachment
import LuaTree.Proofs.Samples
import Mathlib.Data.List.Induction

/-!
# Every child in its place

Each child of a node stands in a place that asks for certain kinds of nodes. A
tree stands in a place if its top is of such a kind and all its children stand
in theirs (`Tree.stands`). Texts of names and literals do not matter to this, so
that whatever parses stands as a program (`stands_of_parse`), also where a string
or a comment of the source text is not closed.
-/

namespace LuaTree

/-- The places in which a tree can stand. -/
inductive Slot where
  | name
  /-- `a.b.c` -/
  | dottedName
  /-- The name of a function: a dotted name, perhaps with a method behind it. -/
  | functionName
  | lastParameter
  /-- What is assigned to. -/
  | target
  /-- An expression that is a statement. -/
  | call
  | expression
  | field
  | elseIf
  | elseBlock
  /-- A statement with others behind it. -/
  | statement
  | lastStatement
  | block
  | chunk
deriving DecidableEq, Repr

namespace Kind

variable {α β : Type}

def isIdentifier : Kind α → Bool
  | identifier _ => true
  | _ => false

/-- Whether the node is an access by name. -/
def isDot : Kind α → Bool
  | access .dot _ _ => true
  | _ => false

def isMethodName : Kind α → Bool
  | methodName .. => true
  | _ => false

def isField : Kind α → Bool
  | field .. => true
  | _ => false

/-- Whether the node has all that it needs: lists that are not empty, and an operator that has an
assignment. -/
def isComplete : Kind α → Bool
  | assignment targets values => !targets.isEmpty && !values.isEmpty
  | compoundAssignment op _ _ => op.assignToken?.isSome
  | localNames names _ => !names.isEmpty
  | genericFor names iterators _ => !names.isEmpty && !iterators.isEmpty
  | field style key _ => key.isSome == (style != .positional)
  | _ => true

end Kind

/-- One place for the last element of a list and another for those before it. -/
def lastApart {α : Type} (most last : Slot) (xs : List α) : List (Slot × α) :=
  xs.dropLast.map (most, ·) ++ xs.getLast?.toList.map (last, ·)

namespace Slot

variable {α β : Type}

/-- The kinds of nodes that can stand in a place. -/
def admits : Slot → Kind α → Bool
  | name, kind => kind.isIdentifier
  | dottedName, kind => kind.isIdentifier || kind.isDot
  | functionName, kind => kind.isIdentifier || kind.isDot || kind.isMethodName
  | lastParameter, .varArg => true
  | lastParameter, kind => kind.isIdentifier
  | target, kind => kind.isAssignable
  | call, kind => kind.isCallLike
  | expression, kind => kind.isExpression && !kind.isMethodName && !kind.isField
  | field, kind => kind.isField
  | elseIf, .elseIf .. => true
  | elseBlock, .elseBlock .. => true
  | statement, kind => kind.isStatement && !kind.isTerminal
  | lastStatement, kind => kind.isStatement
  | block, kind => kind.isBlock
  | chunk, .chunk _ => true
  | _, _ => false

/-- Whether only names may stand before the dots. -/
def isDotted : Slot → Bool
  | dottedName | functionName => true
  | _ => false

/-- The children of a node with their places. Only for a dotted name it matters in which place the
node itself stands. -/
def parts (slot : Slot) : Kind α → List (Slot × α)
  | .chunk b => [(block, b)]
  | .block ss => lastApart statement lastStatement ss
  | .assignment ts vs => ts.map (target, ·) ++ vs.map (expression, ·)
  | .compoundAssignment _ t v => [(target, t), (expression, v)]
  | .localNames ns vs => ns.map (name, ·) ++ vs.map (expression, ·)
  | .localFunction n ps b => (name, n) :: lastApart name lastParameter ps ++ [(block, b)]
  | .function n ps b => (functionName, n) :: lastApart name lastParameter ps ++ [(block, b)]
  | .returning vs => vs.map (expression, ·)
  | .breaking | .continuing => []
  | .doBlock b => [(block, b)]
  | .ifChain e b clauses branch =>
    (expression, e) :: (block, b) :: clauses.map (elseIf, ·) ++ branch.toList.map (elseBlock, ·)
  | .elseIf e b => [(expression, e), (block, b)]
  | .elseBlock b => [(block, b)]
  | .whileLoop e b => [(expression, e), (block, b)]
  | .repeatLoop b e => [(block, b), (expression, e)]
  | .numericFor n e₁ e₂ e₃ b =>
    (name, n) :: (expression, e₁) :: (expression, e₂) :: e₃.toList.map (expression, ·) ++
      [(block, b)]
  | .genericFor ns es b => ns.map (name, ·) ++ es.map (expression, ·) ++ [(block, b)]
  | .expressionStatement e => [(call, e)]
  | .identifier _ | .literal _ | .varArg => []
  | .binary _ l r => [(expression, l), (expression, r)]
  | .unary _ e => [(expression, e)]
  | .paren e => [(expression, e)]
  | .functionCall f args => (expression, f) :: args.map (expression, ·)
  | .methodCall e n args => (expression, e) :: (name, n) :: args.map (expression, ·)
  | .methodName t n => [(dottedName, t), (name, n)]
  | .access .dot t key =>
    [(if slot.isDotted then dottedName else expression, t), (name, key)]
  | .access .bracket t key => [(expression, t), (expression, key)]
  | .table fs => fs.map (field, ·)
  | .field style key e =>
    key.toList.map ((if style = .named then name else expression), ·) ++ [(expression, e)]
  | .anonymousFunction ps b => lastApart name lastParameter ps ++ [(block, b)]

end Slot

theorem map_snd_lastApart {α : Type} (most last : Slot) (xs : List α) :
    (lastApart most last xs).map Prod.snd = xs := by
  cases xs using List.reverseRecOn <;> simp [lastApart, Function.comp_def]

@[simp] theorem mem_lastApart_iff {α : Type} {most last slot : Slot} {xs : List α} {x : α} :
    (slot, x) ∈ lastApart most last xs ↔
      slot = most ∧ x ∈ xs.dropLast ∨ slot = last ∧ x ∈ xs.getLast? := by
  simp only [lastApart, List.mem_append, List.mem_map, Prod.mk.injEq, Option.mem_toList, eq_comm]
  constructor
  · rintro (⟨y, member, same, rfl⟩ | ⟨y, member, same, rfl⟩)
    · exact .inl ⟨same, member⟩
    · exact .inr ⟨same, member⟩
  · rintro (⟨same, member⟩ | ⟨same, member⟩)
    · exact .inl ⟨x, member, same, rfl⟩
    · exact .inr ⟨x, member, same, rfl⟩

theorem lastApart_map {α β : Type} (most last : Slot) (f : α → β) (xs : List α) :
    lastApart most last (xs.map f) = (lastApart most last xs).map (Prod.map id f) := by
  cases xs using List.reverseRecOn <;> simp [lastApart, Function.comp_def]

namespace Slot

variable {α β : Type}

/-- The parts of a node are its children. -/
theorem map_snd_parts (slot : Slot) (k : Kind α) : (slot.parts k).map Prod.snd = k.children := by
  cases k
  case access style t key => cases style <;> rfl
  all_goals simp [parts, Kind.children, map_snd_lastApart, Function.comp_def]

theorem parts_map (slot : Slot) (f : α → β) (k : Kind α) :
    slot.parts (k.map f) = (slot.parts k).map (Prod.map id f) := by
  cases k
  case access style t key => cases style <;> rfl
  case ifChain e b clauses branch => cases branch <;> simp [parts, Kind.map]
  case numericFor n e₁ e₂ e₃ b => cases e₃ <;> simp [parts, Kind.map]
  case field style key e => cases key <;> simp [parts, Kind.map]
  all_goals simp [parts, Kind.map, lastApart_map, Function.comp_def]

@[simp] theorem admits_map (slot : Slot) (f : α → β) (k : Kind α) :
    slot.admits (k.map f) = slot.admits k := by
  cases k
  case access style t key => cases style <;> cases slot <;> rfl
  all_goals cases slot <;> rfl

theorem parts_eq {slot other : Slot} (same : slot.isDotted = other.isDotted) (k : Kind α) :
    slot.parts k = other.parts k := by
  cases k
  case access style t key => cases style <;> simp [parts, same]
  all_goals rfl

end Slot

@[simp] theorem Kind.isComplete_map {α β : Type} (f : α → β) (k : Kind α) :
    (k.map f).isComplete = k.isComplete := by
  cases k <;> simp [Kind.map, Kind.isComplete]

namespace Tree

variable {ι : Type}

/-- Whether the tree stands in a place, and all trees below it in theirs. -/
def stands : Tree ι → Slot → Bool :=
  fold fun _ kind slot =>
    slot.admits kind && kind.isComplete && (slot.parts kind).all fun part => part.2 part.1

theorem stands_node (m : ι) (k : Kind (Tree ι)) (slot : Slot) :
    (Tree.node m k).stands slot =
      (slot.admits k && k.isComplete && (slot.parts k).all fun part => part.2.stands part.1) := by
  rw [stands, fold_node]
  simp only [Slot.admits_map, Kind.isComplete_map, Slot.parts_map, List.all_map]
  rfl

theorem stands_node_iff {m : ι} {k : Kind (Tree ι)} {slot : Slot} :
    (Tree.node m k).stands slot = true ↔ slot.admits k = true ∧ k.isComplete = true ∧
      ∀ part ∈ slot.parts k, part.2.stands part.1 = true := by
  rw [stands_node, Bool.and_eq_true, Bool.and_eq_true, List.all_eq_true, and_assoc]

theorem stands_intro {m : ι} {k : Kind (Tree ι)} {slot : Slot} (admits : slot.admits k = true)
    (complete : k.isComplete = true) (parts : ∀ part ∈ slot.parts k, part.2.stands part.1 = true) :
    (Tree.node m k).stands slot = true :=
  stands_node_iff.mpr ⟨admits, complete, parts⟩

/-- A tree can move to another place that admits its top. -/
theorem stands_of_admits {t : Tree ι} {slot other : Slot} (stands : t.stands slot = true)
    (same : slot.isDotted = other.isDotted) (admits : other.admits t.kind = true) :
    t.stands other = true := by
  obtain ⟨m, k⟩ := t
  rw [stands_node_iff] at stands ⊢
  rw [← Slot.parts_eq same]
  exact ⟨admits, stands.2⟩

theorem admits_of_stands {t : Tree ι} {slot : Slot} (stands : t.stands slot = true) :
    slot.admits t.kind = true := by
  obtain ⟨m, k⟩ := t
  exact (stands_node_iff.mp stands).1

end Tree

/-- The place of a role. -/
def Role.slot : Role → Slot
  | name => .name
  | dottedName => .dottedName
  | functionName => .functionName
  | parameter => .lastParameter
  | expression => .expression
  | field => .field
  | elseIf => .elseIf
  | elseBlock => .elseBlock
  | statement => .lastStatement
  | block => .block
  | chunk => .chunk

theorem forall_mem_pair {α : Type} {a b : α} {motive : α → Prop} (first : motive a)
    (second : motive b) : ∀ x ∈ [a, b], motive x :=
  List.forall_mem_cons.mpr ⟨first, List.forall_mem_singleton.mpr second⟩

theorem forall_lastApart {α : Type} {most last : Slot} {xs : List α} {motive : Slot × α → Prop}
    (before : ∀ x ∈ xs.dropLast, motive (most, x)) (behind : ∀ x ∈ xs, motive (last, x)) :
    ∀ part ∈ lastApart most last xs, motive part := by
  simp only [lastApart, List.forall_mem_append, List.forall_mem_map]
  refine ⟨before, fun x member => behind x ?_⟩
  exact List.mem_of_getLast? (by simpa using member)

theorem stands_of_name {ι : Type} {t : Tree ι} (name : t.stands .name = true) {slot : Slot}
    (admits : ∀ text, slot.admits (.identifier text : Kind (Tree ι)) = true) :
    t.stands slot = true := by
  obtain ⟨m, k⟩ := t
  have identifier : k.isIdentifier = true := Tree.admits_of_stands name
  cases k
  case identifier text => exact Tree.stands_node_iff.mpr ⟨admits text, rfl, by simp [Slot.parts]⟩
  all_goals exact absurd identifier (by simp [Kind.isIdentifier])

/-- Parameters and a body. -/
theorem stands_function {ι : Type} {ps : List (Tree ι)} {b : Tree ι}
    (parameters : ∀ p ∈ ps, p.stands .lastParameter = true)
    (varArgLast : ∀ p ∈ ps.dropLast, p.stands .name = true) (body : b.stands .block = true) :
    ∀ part ∈ lastApart .name .lastParameter ps ++ [(Slot.block, b)],
      part.2.stands part.1 = true :=
  List.forall_mem_append.mpr ⟨forall_lastApart varArgLast parameters,
    List.forall_mem_singleton.mpr body⟩

namespace WellFormed

variable {P : Origin → Kind SourceTree → Prop} {role : Role} {t : SourceTree}

/-- A well-formed tree stands in the place of its role. -/
theorem stands (formed : WellFormed P role t) : t.stands role.slot = true := by
  induction formed
  case name => rfl
  case varParameter => rfl
  case literal => rfl
  case varArg => rfl
  case breaking => rfl
  case continuing => rfl
  case plain ih => exact stands_of_name ih fun _ => rfl
  case parameter ih => exact stands_of_name ih fun _ => rfl
  case ofName ih => exact stands_of_name ih fun _ => rfl
  case function ih =>
    refine Tree.stands_of_admits ih rfl ?_
    have admits := Tree.admits_of_stands ih
    simp_all [Slot.admits, Role.slot]
  case call callee arguments =>
    exact Tree.stands_intro rfl rfl (List.forall_mem_cons.mpr
      ⟨callee, List.forall_mem_map.mpr arguments⟩)
  case methodCall receiver method arguments =>
    exact Tree.stands_intro rfl rfl (List.forall_mem_cons.mpr ⟨receiver,
      List.forall_mem_cons.mpr ⟨method, List.forall_mem_map.mpr arguments⟩⟩)
  case table fields => exact Tree.stands_intro rfl rfl (List.forall_mem_map.mpr fields)
  case returning values => exact Tree.stands_intro rfl rfl (List.forall_mem_map.mpr values)
  case anonymousFunction parameters varArgLast body =>
    exact Tree.stands_intro rfl rfl (stands_function parameters varArgLast body)
  case localFunction name parameters varArgLast body =>
    exact Tree.stands_intro rfl rfl (List.forall_mem_cons.mpr
      ⟨name, stands_function parameters varArgLast body⟩)
  case functionDefinition name parameters varArgLast body =>
    exact Tree.stands_intro rfl rfl (List.forall_mem_cons.mpr
      ⟨name, stands_function parameters varArgLast body⟩)
  case assignment someTarget _ assignable _ someValue _ _ targets values =>
    refine Tree.stands_intro rfl (by simp [Kind.isComplete, someTarget, someValue])
      (List.forall_mem_append.mpr ⟨List.forall_mem_map.mpr fun t member => ?_,
        List.forall_mem_map.mpr values⟩)
    exact Tree.stands_of_admits (targets t member) rfl (assignable t member)
  case compoundAssignment sign _ assignable _ _ _ target value =>
    refine Tree.stands_intro rfl sign (forall_mem_pair ?_ value)
    exact Tree.stands_of_admits target rfl assignable
  case localNames someName _ _ _ names values =>
    exact Tree.stands_intro rfl (by simp [Kind.isComplete, someName])
      (List.forall_mem_append.mpr ⟨List.forall_mem_map.mpr names, List.forall_mem_map.mpr values⟩)
  case ifChain condition body elseIfs elseBranch =>
    refine Tree.stands_intro rfl rfl (List.forall_mem_append.mpr
      ⟨List.forall_mem_cons.mpr ⟨condition, List.forall_mem_cons.mpr
        ⟨body, List.forall_mem_map.mpr elseIfs⟩⟩, List.forall_mem_map.mpr ?_⟩)
    exact fun clause member => elseBranch clause (Option.mem_toList.mp member)
  case numericFor counter start limit step body =>
    refine Tree.stands_intro rfl rfl (List.forall_mem_append.mpr
      ⟨List.forall_mem_cons.mpr ⟨counter, List.forall_mem_cons.mpr ⟨start,
        List.forall_mem_cons.mpr ⟨limit, List.forall_mem_map.mpr ?_⟩⟩⟩,
        List.forall_mem_singleton.mpr body⟩)
    exact fun e member => step e (Option.mem_toList.mp member)
  case genericFor someName _ someIterator _ _ _ names iterators body =>
    exact Tree.stands_intro rfl (by simp [Kind.isComplete, someName, someIterator])
      (List.forall_mem_append.mpr ⟨List.forall_mem_append.mpr ⟨List.forall_mem_map.mpr names,
        List.forall_mem_map.mpr iterators⟩, List.forall_mem_singleton.mpr body⟩)
  case expressionStatement _ call _ _ expression =>
    refine Tree.stands_intro rfl rfl (List.forall_mem_singleton.mpr ?_)
    exact Tree.stands_of_admits expression rfl call
  case block terminalLast _ statements =>
    refine Tree.stands_intro rfl rfl (forall_lastApart (fun s member => ?_) statements)
    have stands := statements s ((List.dropLast_sublist _).subset member)
    refine Tree.stands_of_admits stands rfl ?_
    rw [Slot.admits, terminalLast s member, Bool.not_false, Bool.and_true]
    exact Tree.admits_of_stands stands
  all_goals
    -- one child or two
    rename_i child
    first
    | exact Tree.stands_intro rfl rfl (List.forall_mem_singleton.mpr child)
    | exact Tree.stands_intro rfl rfl (forall_mem_pair ‹_› child)

end WellFormed

namespace Slot

variable {α : Type} (b : Blur)

theorem admits_blur (slot : Slot) (k : Kind α) : slot.admits (k.blur b) = slot.admits k := by
  cases k <;> cases slot <;> rfl

theorem parts_blur (slot : Slot) (k : Kind α) : slot.parts (k.blur b) = slot.parts k := by
  cases k <;> rfl

end Slot

theorem Kind.isComplete_blur {α : Type} (b : Blur) (k : Kind α) :
    (k.blur b).isComplete = k.isComplete := by
  cases k <;> rfl

/-- Marks and texts do not matter to places. -/
theorem Tree.stands_blurred {ι : Type} (b : Blur) (t : Tree ι) (slot : Slot) :
    (t.blurred b).stands slot = t.stands slot := by
  induction t using Tree.induct generalizing slot with
  | step m k ih =>
    rw [blurred_node, stands_node, stands_node, Slot.admits_blur, Slot.admits_map,
      Kind.isComplete_blur, Kind.isComplete_map, Slot.parts_blur, Slot.parts_map]
    have parts : ∀ part ∈ slot.parts k,
        (part.2.blurred b).stands part.1 = part.2.stands part.1 := fun part member =>
      ih part.2 (Slot.map_snd_parts slot k ▸ List.mem_map_of_mem member) part.1
    rw [Bool.eq_iff_iff]
    simp only [Bool.and_eq_true, List.all_eq_true, List.forall_mem_map, Prod.map_fst, Prod.map_snd,
      id_eq]
    exact and_congr_right fun _ => forall₂_congr fun part member => by rw [parts part member]

/-- Whatever parses stands as a program. -/
theorem stands_of_parse {source : String} {t : SourceTree} (parsed : parse source = .ok t) :
    t.stands .chunk = true := by
  obtain ⟨u, formed, same⟩ := exists_writable_of_parse parsed
  have stands : u.stands .chunk = true := formed.stands
  rwa [← Tree.stands_blurred .blind, ← same, Tree.stands_blurred] at stands

end LuaTree
