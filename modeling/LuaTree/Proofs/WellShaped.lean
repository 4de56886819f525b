import LuaTree.Proofs.Parented
import LuaTree.Proofs.Slots

/-!
# The shape of parsed programs

What can stand where in the arena of a program, said of handles: bodies are
blocks, blocks list statements, names are names, and clauses of an `if`, fields of
a table and names of methods stand in their places only (`Arena.WellShaped`). It
holds of every source text that parses (`wellShaped_of_parse`), because every
node stands in some place (`Arena.exists_stands_ofTree`).
-/

namespace LuaTree

namespace Kind

variable {α : Type}

/-- The body of a function, loop or branch. -/
def body? : Kind α → Option α
  | localFunction _ _ b | function _ _ b | doBlock b | ifChain _ b _ _ | elseIf _ b | elseBlock b
  | whileLoop _ b | repeatLoop b _ | numericFor _ _ _ _ b | genericFor _ _ b
  | anonymousFunction _ b => some b
  | _ => none

/-- The parameters of a function. -/
def params : Kind α → List α
  | localFunction _ ps _ | function _ ps _ | anonymousFunction ps _ => ps
  | _ => []

end Kind

namespace Arena

variable (a : Arena)

/-- An identifier, or one behind a dotted name and a dot. -/
inductive DottedName : NodeId → Prop where
  | name {id : NodeId} (identifier : (a.kind id).isIdentifier = true) : DottedName id
  | dot {id t key : NodeId} (access : a.kind id = .access .dot t key) (table : DottedName t)
      (identifier : (a.kind key).isIdentifier = true) : DottedName id

/-- Every node has children of the right kinds, and stands where its kind can stand. -/
structure WellShaped : Prop where
  root : ∃ id b, a.root = some id ∧ a.kind id = .chunk b ∧ (a.kind b).isBlock = true
  body : ∀ id, ∀ b ∈ (a.kind id).body?, (a.kind b).isBlock = true
  -- statements
  statements : ∀ id ss, a.kind id = .block ss → ∀ s ∈ ss, (a.kind s).isStatement = true
  terminalLast : ∀ id ss, a.kind id = .block ss → ∀ s ∈ ss.dropLast, (a.kind s).isTerminal = false
  terminal : ∀ p, ∀ c ∈ a.children p, (a.kind c).isTerminal = true → (a.kind p).isBlock = true
  assignment : ∀ id ts vs, a.kind id = .assignment ts vs →
    ts ≠ [] ∧ vs ≠ [] ∧ ∀ t ∈ ts, (a.kind t).isAssignable = true
  compoundAssignment : ∀ id op t v, a.kind id = .compoundAssignment op t v →
    op ∈ [.add, .sub, .mul, .div, .mod] ∧ (a.kind t).isAssignable = true
  localNames : ∀ id ns vs, a.kind id = .localNames ns vs →
    ns ≠ [] ∧ ∀ n ∈ ns, (a.kind n).isIdentifier = true
  genericFor : ∀ id ns es b, a.kind id = .genericFor ns es b →
    ns ≠ [] ∧ es ≠ [] ∧ ∀ n ∈ ns, (a.kind n).isIdentifier = true
  expressionStatement : ∀ id e, a.kind id = .expressionStatement e → (a.kind e).isCallLike = true
  -- functions
  parameters : ∀ id, ∀ p ∈ (a.kind id).params.dropLast, (a.kind p).isIdentifier = true
  lastParameter : ∀ id, ∀ p ∈ (a.kind id).params.getLast?,
    (a.kind p).isIdentifier = true ∨ a.kind p = .varArg
  functionName : ∀ id n ps b, a.kind id = .function n ps b →
    a.DottedName n ∨ ∃ t m, a.kind n = .methodName t m ∧ a.DottedName t
  methodName : ∀ p, ∀ c ∈ a.children p, (a.kind c).isMethodName = true →
    ∃ ps b, a.kind p = .function c ps b
  -- names
  member : ∀ id t key, a.kind id = .access .dot t key → (a.kind key).isIdentifier = true
  method : ∀ id e n args, a.kind id = .methodCall e n args → (a.kind n).isIdentifier = true
  definedMethod : ∀ id t n, a.kind id = .methodName t n → (a.kind n).isIdentifier = true
  -- branches
  clauses : ∀ id e b clauses branch, a.kind id = .ifChain e b clauses branch →
    (∀ c ∈ clauses, ∃ e b, a.kind c = .elseIf e b) ∧ ∀ c ∈ branch, ∃ b, a.kind c = .elseBlock b
  elseIf : ∀ p, ∀ c ∈ a.children p, ∀ e b, a.kind c = .elseIf e b →
    ∃ e b clauses branch, a.kind p = .ifChain e b clauses branch ∧ c ∈ clauses
  elseBlock : ∀ p, ∀ c ∈ a.children p, ∀ b, a.kind c = .elseBlock b →
    ∃ e b clauses, a.kind p = .ifChain e b clauses (some c)
  -- tables
  fields : ∀ id fs, a.kind id = .table fs → ∀ f ∈ fs, (a.kind f).isField = true
  field : ∀ p, ∀ c ∈ a.children p, (a.kind c).isField = true → ∃ fs, a.kind p = .table fs
  key : ∀ id style key v, a.kind id = .field style key v → (key.isSome = true ↔ style ≠ .positional)

variable {a : Arena}

/-- What holds of a tree, and of the children of each node of which it holds, holds of the trees
below all handles of its arena. -/
theorem forall_tree {t : SourceTree} {motive : SourceTree → Prop} (here : motive t)
    (down : ∀ m k, motive (.node m k) → ∀ c ∈ k.children, motive c) (id : NodeId)
    (inside : id.index < (ofTree t).size) : motive ((ofTree t).tree id) := by
  have sound := sound_ofTree t
  refine sound.preorder_induct (motive := fun x => motive ((ofTree t).tree x))
    (by rwa [tree_ofTree]) ?_ id (mem_preorder_ofTree.mpr inside)
  intro x _ above c child
  rw [sound.tree_eq] at above
  refine down _ _ above _ ?_
  rw [Kind.children_map]
  exact List.mem_map_of_mem child

end Arena

namespace Slot

variable {α : Type} {slot : Slot} {k : Kind α}

theorem eq_of_admits_isMethodName (admits : slot.admits k = true)
    (method : k.isMethodName = true) : slot = functionName := by
  cases k <;> first | (cases method; done) | cases slot <;> first | rfl | cases admits

theorem eq_of_admits_isField (admits : slot.admits k = true) (isField : k.isField = true) :
    slot = field := by
  cases k <;> first | (cases isField; done) | cases slot <;> first | rfl | cases admits

theorem eq_of_admits_elseIf {e b : α} (admits : slot.admits (.elseIf e b) = true) :
    slot = elseIf := by
  cases slot <;> first | rfl | cases admits

theorem eq_of_admits_elseBlock {b : α} (admits : slot.admits (.elseBlock b) = true) :
    slot = elseBlock := by
  cases slot <;> first | rfl | cases admits

theorem exists_of_admits_chunk (admits : chunk.admits k = true) : ∃ b, k = .chunk b := by
  cases k <;> first | (cases admits; done) | exact ⟨_, rfl⟩

theorem exists_of_admits_elseIf (admits : elseIf.admits k = true) : ∃ e b, k = .elseIf e b := by
  cases k <;> first | (cases admits; done) | exact ⟨_, _, rfl⟩

theorem exists_of_admits_elseBlock (admits : elseBlock.admits k = true) :
    ∃ b, k = .elseBlock b := by
  cases k <;> first | (cases admits; done) | exact ⟨_, rfl⟩

theorem eq_of_admits_isTerminal (admits : slot.admits k = true) (terminal : k.isTerminal = true) :
    slot = lastStatement := by
  cases k <;> first | (cases terminal; done) | cases slot <;> first | rfl | cases admits

/-- The node that has a child in a place, for places that only one kind of node has. -/
def Owner : Slot → α → Kind α → Prop
  | functionName, c, k => ∃ ps b, k = .function c ps b
  | elseIf, c, k => ∃ e b clauses branch, k = .ifChain e b clauses branch ∧ c ∈ clauses
  | elseBlock, c, k => ∃ e b clauses, k = .ifChain e b clauses (some c)
  | field, _, k => ∃ fs, k = .table fs
  | lastStatement, _, k => k.isBlock = true
  | _, _, _ => True

theorem owner_of_mem_parts {other : Slot} {c : α} (part : (other, c) ∈ slot.parts k) :
    other.Owner c k := by
  cases other <;> try trivial
  all_goals
    cases k
    case access style t key => cases style <;> simp [parts] at part; split at part <;> simp_all
    case field style key v => cases style <;> simp [parts] at part
    all_goals simp_all [parts, Owner, Kind.isBlock]

end Slot

namespace Arena

variable {a : Arena} (sound : a.Sound)

include sound

theorem Sound.stands_tree_iff {id : NodeId} {slot : Slot} :
    (a.tree id).stands slot = true ↔ slot.admits (a.kind id) = true ∧
      (a.kind id).isComplete = true ∧
      ∀ part ∈ slot.parts (a.kind id), (a.tree part.2).stands part.1 = true := by
  rw [sound.tree_eq, Tree.stands_node_iff, Slot.admits_map, Kind.isComplete_map, Slot.parts_map,
    List.forall_mem_map]
  rfl

theorem Sound.dottedName {id : NodeId} (stands : (a.tree id).stands .dottedName = true) :
    a.DottedName id := by
  obtain ⟨n⟩ := id
  induction n using Nat.strongRecOn with
  | ind n ih =>
    obtain ⟨admits, -, parts⟩ := sound.stands_tree_iff.mp stands
    rcases Bool.or_eq_true_iff.mp admits with identifier | dot
    · exact .name identifier
    · cases kind : a.kind ⟨n⟩
      case access style t key =>
        rw [kind] at dot parts
        cases style with
        | bracket => cases dot
        | dot =>
          obtain ⟨table, name⟩ := List.forall_mem_cons.mp parts
          have older : t.index < n := sound.older ⟨n⟩ t (by simp [children, kind, Kind.children])
          have key := sound.stands_tree_iff.mp (name _ List.mem_cons_self)
          exact .dot kind (ih t.index older table) key.1
      all_goals simp [kind, Kind.isDot] at dot

theorem Sound.functionName {id : NodeId} (stands : (a.tree id).stands .functionName = true) :
    a.DottedName id ∨ ∃ t m, a.kind id = .methodName t m ∧ a.DottedName t := by
  obtain ⟨admits, complete, parts⟩ := sound.stands_tree_iff.mp stands
  rcases Bool.or_eq_true_iff.mp admits with dotted | method
  · have same : Slot.functionName.parts (a.kind id) = Slot.dottedName.parts (a.kind id) :=
      Slot.parts_eq rfl _
    exact .inl (sound.dottedName (sound.stands_tree_iff.mpr ⟨dotted, complete, same ▸ parts⟩))
  · cases kind : a.kind id
    case methodName t m =>
      rw [kind] at parts
      exact .inr ⟨t, m, rfl, sound.dottedName (parts _ List.mem_cons_self)⟩
    all_goals simp [kind, Kind.isMethodName] at method

variable (placed : ∀ id, ∃ slot, (a.tree id).stands slot = true)

include placed

theorem Sound.isComplete (id : NodeId) : (a.kind id).isComplete = true := by
  obtain ⟨slot, stands⟩ := placed id
  exact (sound.stands_tree_iff.mp stands).2.1

/-- A child stands in its place, whatever the place of its parent is. -/
theorem Sound.stands_part {id c : NodeId} {k : Kind NodeId} (kind : a.kind id = k) (place : Slot)
    (part : ∀ slot : Slot, (place, c) ∈ slot.parts k) : (a.tree c).stands place = true := by
  obtain ⟨slot, stands⟩ := placed id
  exact (sound.stands_tree_iff.mp stands).2.2 _ (kind ▸ part slot)

theorem Sound.admits_part {id c : NodeId} {k : Kind NodeId} (kind : a.kind id = k) (place : Slot)
    (part : ∀ slot : Slot, (place, c) ∈ slot.parts k) : place.admits (a.kind c) = true :=
  (sound.stands_tree_iff.mp (sound.stands_part placed kind place part)).1

/-- A child whose kind has one place only stands there. -/
theorem Sound.owner {p c : NodeId} (child : c ∈ a.children p) (place : Slot)
    (only : ∀ slot : Slot, slot.admits (a.kind c) = true → slot = place) :
    place.Owner c (a.kind p) := by
  obtain ⟨slot, stands⟩ := placed p
  rw [children, ← slot.map_snd_parts] at child
  obtain ⟨⟨other, c⟩, member, rfl⟩ := List.mem_map.mp child
  have here := (sound.stands_tree_iff.mp stands).2.2 _ member
  obtain rfl := only other (sound.stands_tree_iff.mp here).1
  exact Slot.owner_of_mem_parts member

theorem Sound.isBlock_body {id b : NodeId} (body : b ∈ (a.kind id).body?) :
    (a.kind b).isBlock = true := by
  refine sound.admits_part placed (rfl : a.kind id = _) .block fun slot => ?_
  cases kind : a.kind id <;> simp_all [Kind.body?, Slot.parts]

theorem Sound.isTerminal_eq_false {id s : NodeId} {ss : List NodeId} (kind : a.kind id = .block ss)
    (member : s ∈ ss.dropLast) : (a.kind s).isStatement = true ∧ (a.kind s).isTerminal = false := by
  have admits := sound.admits_part placed kind .statement fun slot =>
    mem_lastApart_iff.mpr (.inl ⟨rfl, member⟩)
  simpa [Slot.admits] using admits

theorem Sound.isStatement {id s : NodeId} {ss : List NodeId} (kind : a.kind id = .block ss)
    (member : s ∈ ss) : (a.kind s).isStatement = true := by
  rw [← map_snd_lastApart .statement .lastStatement ss] at member
  obtain ⟨⟨place, s⟩, part, rfl⟩ := List.mem_map.mp member
  rcases mem_lastApart_iff.mp part with ⟨-, before⟩ | ⟨rfl, -⟩
  · exact (sound.isTerminal_eq_false placed kind before).1
  · exact sound.admits_part placed kind .lastStatement fun slot => part

theorem Sound.parameters {id p : NodeId} (member : p ∈ (a.kind id).params.dropLast) :
    (a.kind p).isIdentifier = true := by
  refine sound.admits_part placed (rfl : a.kind id = _) .name fun slot => ?_
  cases kind : a.kind id <;> simp_all [Kind.params, Slot.parts]

theorem Sound.lastParameter {id p : NodeId} (member : p ∈ (a.kind id).params.getLast?) :
    (a.kind p).isIdentifier = true ∨ a.kind p = .varArg := by
  have admits : Slot.lastParameter.admits (a.kind p) = true := by
    refine sound.admits_part placed (rfl : a.kind id = _) .lastParameter fun slot => ?_
    cases kind : a.kind id <;> simp_all [Kind.params, Slot.parts]
  cases kind : a.kind p <;> simp_all [Slot.admits]

/-- Where every node stands in some place, and the root as a program, all nodes are well shaped. -/
theorem Sound.wellShaped {id : NodeId} (root : a.root = some id)
    (stands : (a.tree id).stands .chunk = true) : a.WellShaped where
  root := by
    obtain ⟨admits, -, parts⟩ := sound.stands_tree_iff.mp stands
    obtain ⟨b, kind⟩ := Slot.exists_of_admits_chunk admits
    exact ⟨id, b, root, kind, sound.admits_part placed kind .block fun slot => by simp [Slot.parts]⟩
  body _ _ := sound.isBlock_body placed
  statements _ _ kind _ := sound.isStatement placed kind
  terminalLast _ _ kind _ member := (sound.isTerminal_eq_false placed kind member).2
  terminal _ _ child terminal := sound.owner placed child .lastStatement fun _ admits =>
    Slot.eq_of_admits_isTerminal admits terminal
  assignment id ts vs kind := by
    have complete := sound.isComplete placed id
    have targets : ∀ t ∈ ts, (a.kind t).isAssignable = true := fun t member =>
      sound.admits_part placed kind .target fun slot => by simp [Slot.parts, member]
    simp_all [Kind.isComplete]
  compoundAssignment id op t v kind := by
    have complete := sound.isComplete placed id
    rw [kind] at complete
    refine ⟨?_, sound.admits_part placed kind .target fun slot => by simp [Slot.parts]⟩
    cases op <;> first | (cases complete; done) | decide
  localNames id ns vs kind := by
    have complete := sound.isComplete placed id
    have names : ∀ n ∈ ns, (a.kind n).isIdentifier = true := fun n member =>
      sound.admits_part placed kind .name fun slot => by simp [Slot.parts, member]
    simp_all [Kind.isComplete]
  genericFor id ns es b kind := by
    have complete := sound.isComplete placed id
    have names : ∀ n ∈ ns, (a.kind n).isIdentifier = true := fun n member =>
      sound.admits_part placed kind .name fun slot => by simp [Slot.parts, member]
    simp_all [Kind.isComplete]
  expressionStatement _ _ kind :=
    sound.admits_part placed kind .call fun slot => by simp [Slot.parts]
  parameters _ _ := sound.parameters placed
  lastParameter _ _ := sound.lastParameter placed
  functionName _ _ _ _ kind := sound.functionName <|
    sound.stands_part placed kind .functionName fun slot => by simp [Slot.parts]
  methodName _ _ child method := sound.owner placed child .functionName fun _ admits =>
    Slot.eq_of_admits_isMethodName admits method
  member _ _ _ kind := sound.admits_part placed kind .name fun slot => by simp [Slot.parts]
  method _ _ _ _ kind := sound.admits_part placed kind .name fun slot => by simp [Slot.parts]
  definedMethod _ _ _ kind := sound.admits_part placed kind .name fun slot => by simp [Slot.parts]
  clauses _ _ _ _ _ kind :=
    ⟨fun c member => Slot.exists_of_admits_elseIf <|
      sound.admits_part placed kind .elseIf fun slot => by simp [Slot.parts, member],
    fun c member => Slot.exists_of_admits_elseBlock <|
      sound.admits_part placed kind .elseBlock fun slot => by simp_all [Slot.parts]⟩
  elseIf _ _ child _ _ kind := sound.owner placed child .elseIf fun _ admits =>
    Slot.eq_of_admits_elseIf (kind ▸ admits)
  elseBlock _ _ child _ kind := sound.owner placed child .elseBlock fun _ admits =>
    Slot.eq_of_admits_elseBlock (kind ▸ admits)
  fields _ _ kind _ member :=
    sound.admits_part placed kind .field fun slot => by simp [Slot.parts, member]
  field _ _ child isField := sound.owner placed child .field fun _ admits =>
    Slot.eq_of_admits_isField admits isField
  key id style key v kind := by
    have complete := sound.isComplete placed id
    rw [kind] at complete
    simp_all [Kind.isComplete]

omit sound placed in
/-- In the arena of a program every node stands in some place. -/
theorem exists_stands_ofTree {t : SourceTree} (stands : t.stands .chunk = true) (id : NodeId) :
    ∃ slot, ((ofTree t).tree id).stands slot = true := by
  by_cases inside : id.index < (ofTree t).size
  · refine forall_tree (motive := fun t => ∃ slot, t.stands slot = true) ⟨_, stands⟩ ?_ id inside
    rintro m k ⟨slot, stands⟩ c child
    rw [← slot.map_snd_parts] at child
    obtain ⟨part, member, rfl⟩ := List.mem_map.mp child
    exact ⟨part.1, (Tree.stands_node_iff.mp stands).2.2 part member⟩
  · refine ⟨.expression, (sound_ofTree t).stands_tree_iff.mpr ?_⟩
    rw [kind_of_size_le (Nat.le_of_not_lt inside)]
    exact ⟨rfl, rfl, nofun⟩

end Arena

/-- Whatever parses is well shaped. -/
theorem wellShaped_of_parse {source : String} {t : SourceTree} (parsed : parse source = .ok t) :
    (Arena.ofTree t).WellShaped := by
  have stands := stands_of_parse parsed
  refine (Arena.sound_ofTree t).wellShaped (Arena.exists_stands_ofTree stands)
    (Arena.root_ofTree t) ?_
  rwa [Arena.tree_ofTree]

/-- A program whose last string is not closed. -/
theorem wellShaped_of_parse_unclosed :
    ∃ t, parse "function a.b:c(x, ...) local t = \x7b1, k = x\x7d end y.z += 'abc" = .ok t ∧
      (Arena.ofTree t).WellShaped := by
  obtain ⟨t, parsed⟩ : ∃ t,
      parse "function a.b:c(x, ...) local t = \x7b1, k = x\x7d end y.z += 'abc" = .ok t :=
    exists_parse (by decide +kernel)
  exact ⟨t, parsed, wellShaped_of_parse parsed⟩

end LuaTree
