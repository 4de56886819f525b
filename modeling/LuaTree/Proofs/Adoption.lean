import LuaTree.Arena.Build
import LuaTree.Arena.Navigation
import LuaTree.Grammar.Parse
import LuaTree.Proofs.Grafting
import Mathlib.Data.List.Nodup
import Mathlib.Data.List.Perm.Basic
import Mathlib.Logic.Relation

/-!
# How arenas grow

A node names children that were there before it, each once, and links each of
them to itself. A node's parent is therefore the last node that names it, and
what is below a handle never changes (`reached_arena_invariant`).

`Grows` is the one step that all edits are made of. What it preserves is proved
once, and holds for every sequence of calls. A tree that is grafted is such a
sequence: its nodes take the handles that come next, in postorder.
-/

namespace LuaTree

theorem Tree.preorder_perm_postorder {ι : Type} (t : Tree ι) : t.preorder.Perm t.postorder := by
  induction t using Tree.induct with
  | step m k ih =>
    rw [preorder_node, postorder_node, ← List.flatMap_def, ← List.flatMap_def]
    have children : (k.children.flatMap preorder).Perm (k.children.flatMap postorder) :=
      List.Perm.flatMap_left _ ih
    exact (children.cons m).trans (List.perm_append_singleton m _).symm

namespace Arena

theorem contains_iff {a : Arena} {id : NodeId} : a.contains id = true ↔ id.index < a.size := by
  simp [contains]

section Outside

variable {a : Arena} {id : NodeId} (outside : a.size ≤ id.index)

include outside

theorem get_of_size_le : a.get id = default := by
  simp [get, Array.getD_eq_getD_getElem?, Array.getElem?_eq_none outside]

theorem kind_of_size_le : a.kind id = .varArg := by
  rw [kind, get_of_size_le outside]
  rfl

theorem children_of_size_le : a.children id = [] := by
  rw [children, kind_of_size_le outside]
  rfl

theorem parent_of_size_le : a.parent id = none := by
  rw [parent, get_of_size_le outside]
  rfl

end Outside

theorem index_lt_size {a : Arena} {p c : NodeId} (member : c ∈ a.children p) :
    p.index < a.size := by
  refine Nat.lt_of_not_le fun outside => ?_
  simp [children_of_size_le outside] at member

theorem getElem?_adopt (nodes : Array Node) (owner : NodeId) (children : List NodeId) (i : Nat) :
    (adopt nodes owner children)[i]? = nodes[i]?.map fun node =>
      if ⟨i⟩ ∈ children then { node with parent := some owner } else node := by
  unfold adopt
  induction children generalizing nodes with
  | nil => simp
  | cons child children ih =>
    rw [List.foldl_cons, ih, Array.getElem?_modify]
    have same : child.index = i ↔ (⟨i⟩ : NodeId) = child := by
      constructor
      · rintro rfl
        rfl
      · rintro rfl
        rfl
    by_cases first : (⟨i⟩ : NodeId) = child
    · rw [if_pos (same.mpr first)]
      cases nodes[i]? with
      | none => rfl
      | some node => by_cases later : (⟨i⟩ : NodeId) ∈ children <;> simp [first]
    · rw [if_neg fun index => first (same.mp index)]
      simp [first]

theorem get_push (a : Arena) (m : Origin) (k : Kind NodeId) (id : NodeId) :
    (a.push m k).get id =
      if id = a.next then ⟨m, k, none⟩
      else if id ∈ k.children ∧ id.index < a.size then { a.get id with parent := some a.next }
      else a.get id := by
  obtain ⟨i⟩ := id
  simp only [get, Array.getD_eq_getD_getElem?, push, Array.getElem?_push, size_adopt, next, size,
    NodeId.mk.injEq, getElem?_adopt]
  by_cases new : i = a.nodes.size
  · simp [new]
  rw [if_neg new, if_neg new]
  by_cases inside : i < a.nodes.size
  · by_cases adopted : (⟨i⟩ : NodeId) ∈ k.children <;> simp [inside, adopted]
  · simp [inside]

section Push

variable (a : Arena) (m : Origin) (k : Kind NodeId) (id : NodeId)

@[simp] theorem kind_push : (a.push m k).kind id = if id = a.next then k else a.kind id := by
  simp only [kind, get_push]
  split
  · rfl
  · split <;> rfl

@[simp] theorem origin_push : (a.push m k).origin id = if id = a.next then m else a.origin id := by
  simp only [origin, get_push]
  split
  · rfl
  · split <;> rfl

@[simp] theorem children_push :
    (a.push m k).children id = if id = a.next then k.children else a.children id := by
  simp only [children, kind_push]
  split <;> rfl

/-- A new node becomes the parent of its children and of nothing else. -/
theorem parent_push {k} (inside : ∀ c ∈ k.children, c.index < a.size) :
    (a.push m k).parent id = if id ∈ k.children then some a.next else a.parent id := by
  simp only [parent, get_push]
  by_cases new : id = a.next
  · have outside : id ∉ k.children := by
      intro member
      have smaller := inside id member
      simp [new, next] at smaller
    rw [if_pos new, if_neg outside, new]
    exact (parent_of_size_le (Nat.le_refl a.size)).symm
  · rw [if_neg new]
    by_cases member : id ∈ k.children
    · rw [if_pos ⟨member, inside id member⟩, if_pos member]
    · rw [if_neg fun both => member both.1, if_neg member]

end Push

/-- Children are older than the nodes that name them, and a parent is the last node that names its
child. -/
structure Sound (a : Arena) : Prop where
  older : ∀ p, ∀ c ∈ a.children p, c.index < p.index
  distinct : ∀ p, (a.children p).Nodup
  adopter : ∀ c p, a.parent c = some p →
    c ∈ a.children p ∧ ∀ q, c ∈ a.children q → q.index ≤ p.index
  orphan : ∀ c, a.parent c = none → ∀ p, c ∉ a.children p

theorem sound_empty : empty.Sound := by
  have none_named (p : NodeId) : empty.children p = [] := children_of_size_le (Nat.zero_le _)
  have none_adopted (c : NodeId) : empty.parent c = none := parent_of_size_le (Nat.zero_le _)
  constructor <;> simp [none_named, none_adopted]

section Sound

variable {a : Arena}

theorem Sound.parent_eq_some_iff (sound : a.Sound) {c p : NodeId} :
    a.parent c = some p ↔ c ∈ a.children p ∧ ∀ q, c ∈ a.children q → q.index ≤ p.index := by
  constructor
  · exact sound.adopter c p
  · rintro ⟨member, greatest⟩
    cases adopted : a.parent c with
    | none => exact absurd member (sound.orphan c adopted p)
    | some q =>
      obtain ⟨named, last⟩ := sound.adopter c q adopted
      have below := greatest q named
      have above := last p member
      have same : q = p := by
        obtain ⟨i⟩ := p
        obtain ⟨j⟩ := q
        simp only at below above
        rw [Nat.le_antisymm below above]
      rw [same]

theorem Sound.parent_eq_none_iff (sound : a.Sound) {c : NodeId} :
    a.parent c = none ↔ ∀ p, c ∉ a.children p := by
  constructor
  · exact sound.orphan c
  · intro unnamed
    cases adopted : a.parent c with
    | none => rfl
    | some q => exact absurd (sound.adopter c q adopted).1 (unnamed q)

theorem Sound.setRoot (sound : a.Sound) (id : NodeId) : (a.setRoot id).Sound :=
  ⟨sound.older, sound.distinct, sound.adopter, sound.orphan⟩

/-- The new node has the greatest handle, so that it is the last to name its children. -/
theorem Sound.push (sound : a.Sound) (m : Origin) {k : Kind NodeId} (distinct : k.children.Nodup)
    (inside : ∀ c ∈ k.children, c.index < a.size) : (a.push m k).Sound where
  older := by
    intro p c member
    rw [children_push] at member
    split at member
    · next new => exact new ▸ inside c member
    · exact sound.older p c member
  distinct := by
    intro p
    rw [children_push]
    split
    · exact distinct
    · exact sound.distinct p
  adopter := by
    intro c p adopted
    rw [parent_push a m c inside] at adopted
    simp only [children_push]
    by_cases named : c ∈ k.children
    · rw [if_pos named] at adopted
      obtain rfl := Option.some.inj adopted
      refine ⟨by simpa using named, fun q member => ?_⟩
      by_cases new : q = a.next
      · exact Nat.le_of_eq (congrArg NodeId.index new)
      · rw [if_neg new] at member
        exact Nat.le_of_lt (index_lt_size member)
    · rw [if_neg named] at adopted
      obtain ⟨member, greatest⟩ := sound.adopter c p adopted
      have old : p ≠ a.next := by
        rintro rfl
        exact Nat.lt_irrefl _ (index_lt_size member)
      refine ⟨by rwa [if_neg old], fun q member => ?_⟩
      by_cases new : q = a.next
      · rw [if_pos new] at member
        exact absurd member named
      · rw [if_neg new] at member
        exact greatest q member
  orphan := by
    intro c free p
    rw [parent_push a m c inside] at free
    rw [children_push]
    by_cases named : c ∈ k.children
    · simp [named] at free
    · rw [if_neg named] at free
      split
      · exact named
      · exact sound.orphan c free p

end Sound

theorem size_le_of_rows {a b : Arena} (more : a.rows <+: b.rows) : a.size ≤ b.size := by
  have longer := more.length_le
  rwa [length_rows, length_rows] at longer

section Frame

variable {a b : Arena} {id : NodeId} (more : a.rows <+: b.rows) (inside : id.index < a.size)

include more inside

theorem get_eq_of_rows : b.origin id = a.origin id ∧ b.kind id = a.kind id := by
  have bound : id.index < a.rows.length := by rwa [length_rows]
  have here : a.rows[id.index]? = some a.rows[id.index] := List.getElem?_eq_getElem bound
  have there : b.rows[id.index]? = some a.rows[id.index] := by
    obtain ⟨rest, same⟩ := more
    rw [← same, List.getElem?_append_left bound, here]
  obtain ⟨origin, kind⟩ := get_of_rows here
  obtain ⟨origin', kind'⟩ := get_of_rows there
  exact ⟨origin'.trans origin.symm, kind'.trans kind.symm⟩

end Frame

section Unfold

variable {a : Arena} (sound : a.Sound) (id : NodeId)

include sound

theorem Sound.unfold_eq {ι : Type} (mark : NodeId → ι) :
    a.unfold mark id = .node (mark id) ((a.kind id).map (a.unfold mark)) := by
  rw [unfold]
  refine congrArg (Tree.node (mark id)) (Kind.map_congr _ fun child member => ?_)
  rw [if_pos (sound.older id child member)]

theorem Sound.handles_eq : a.handles id = .node id ((a.kind id).map a.handles) :=
  sound.unfold_eq id fun child => child

theorem Sound.tree_eq : a.tree id = .node (a.origin id) ((a.kind id).map a.tree) :=
  sound.unfold_eq id a.origin

theorem Sound.preorder_eq : a.preorder id = id :: (a.children id).flatMap a.preorder := by
  rw [preorder, sound.handles_eq, Tree.preorder_node, Kind.children_map, List.map_map]
  rfl

end Unfold

/-- The tree below a handle does not depend on what was added later. -/
theorem Sound.unfold_of_rows {ι : Type} {a b : Arena} (sound : a.Sound)
    (more : a.rows <+: b.rows) {mark mark' : NodeId → ι}
    (same : ∀ x : NodeId, x.index < a.size → mark' x = mark x) {id : NodeId}
    (inside : id.index < a.size) : b.unfold mark' id = a.unfold mark id := by
  obtain ⟨n⟩ := id
  induction n using Nat.strongRecOn with
  | ind n ih =>
    rw [unfold, unfold, same _ inside, (get_eq_of_rows more inside).2]
    refine congrArg (Tree.node (mark ⟨n⟩)) (Kind.map_congr _ fun child member => ?_)
    have smaller := sound.older ⟨n⟩ child member
    rw [if_pos smaller, if_pos smaller]
    exact ih child.index smaller (Nat.lt_trans smaller inside)

section Frame

variable {a b : Arena} {id : NodeId} (sound : a.Sound) (more : a.rows <+: b.rows)
  (inside : id.index < a.size)

include sound more inside

theorem Sound.handles_of_rows : b.handles id = a.handles id :=
  sound.unfold_of_rows more (fun _ _ => rfl) inside

theorem Sound.preorder_of_rows : b.preorder id = a.preorder id :=
  congrArg Tree.preorder (sound.handles_of_rows more inside)

theorem Sound.tree_of_rows : b.tree id = a.tree id :=
  sound.unfold_of_rows more (fun _ here => (get_eq_of_rows more here).1) inside

end Frame

/-- The steps that edits are made of. -/
inductive Grows : Arena → Arena → Prop where
  | push {a : Arena} {m : Origin} {k : Kind NodeId} (distinct : k.children.Nodup)
      (inside : ∀ c ∈ k.children, c.index < a.size) : Grows a (a.push m k)
  | setRoot {a : Arena} {id : NodeId} : Grows a (a.setRoot id)

/-- What an arena can become. -/
def Grown : Arena → Arena → Prop :=
  Relation.ReflTransGen Grows

namespace Grows

variable {a b : Arena}

theorem sound (grows : Grows a b) (before : a.Sound) : b.Sound := by
  cases grows with
  | push distinct inside => exact before.push _ distinct inside
  | setRoot => exact before.setRoot _

theorem rows (grows : Grows a b) : a.rows <+: b.rows := by
  cases grows with
  | push distinct inside =>
    rw [rows_push]
    exact List.prefix_append _ _
  | setRoot => exact List.prefix_refl _

end Grows

namespace Grown

variable {a b c : Arena}

theorem trans (first : Grown a b) (second : Grown b c) : Grown a c :=
  Relation.ReflTransGen.trans first second

theorem sound (grown : Grown a b) (before : a.Sound) : b.Sound := by
  induction grown with
  | refl => exact before
  | tail _ grows ih => exact grows.sound ih

theorem rows (grown : Grown a b) : a.rows <+: b.rows := by
  induction grown with
  | refl => exact List.prefix_refl _
  | tail _ grows ih => exact ih.trans grows.rows

theorem size_le (grown : Grown a b) : a.size ≤ b.size :=
  size_le_of_rows grown.rows

end Grown

/-- The handles of one arena that another does not have. -/
def added (a b : Arena) : List NodeId :=
  (List.range' a.size (b.size - a.size)).map NodeId.mk

theorem added_append {a b c : Arena} (first : a.size ≤ b.size) (second : b.size ≤ c.size) :
    added a b ++ added b c = added a c := by
  simp only [added, ← List.map_append]
  have start : b.size = a.size + 1 * (b.size - a.size) := by omega
  have total : c.size - a.size = (b.size - a.size) + (c.size - b.size) := by omega
  rw [total, ← List.range'_append, ← start]

theorem added_push (a : Arena) (m : Origin) (k : Kind NodeId) :
    added a (a.push m k) = [a.next] := by
  simp [added, next]

theorem nodup_added (a b : Arena) : (added a b).Nodup := by
  refine List.Nodup.map (fun i j same => ?_) List.nodup_range'
  exact congrArg NodeId.index same

theorem mem_added {a b : Arena} {id : NodeId} :
    id ∈ added a b ↔ a.size ≤ id.index ∧ id.index < b.size := by
  obtain ⟨i⟩ := id
  simp only [added, List.mem_map, List.mem_range'_1, NodeId.mk.injEq, exists_eq_right]
  omega

/-- What grafting several trees one after another does. -/
structure Planted (a b : Arena) (ids : List NodeId) : Prop where
  grown : Grown a b
  postorder : (ids.map fun id => (b.handles id).postorder).flatten = added a b

theorem Planted.sublist {a b : Arena} {ids : List NodeId} (planted : Planted a b ids) :
    ids.Sublist (added a b) := by
  rw [← planted.postorder]
  clear planted
  induction ids with
  | nil => exact List.nil_sublist _
  | cons id ids ih =>
    have root : [id].Sublist (b.handles id).postorder := by
      rw [handles, unfold, Tree.postorder_node]
      exact List.sublist_append_right _ _
    exact root.append ih

theorem Planted.inside {a b : Arena} {ids : List NodeId} (planted : Planted a b ids) {id : NodeId}
    (member : id ∈ ids) : id.index < b.size :=
  (mem_added.mp (planted.sublist.subset member)).2

theorem Planted.append {a b c : Arena} {first second : List NodeId} (sound : a.Sound)
    (left : Planted a b first) (right : Planted b c second) : Planted a c (first ++ second) := by
  refine ⟨left.grown.trans right.grown, ?_⟩
  have kept : (first.map fun id => (c.handles id).postorder) =
      first.map fun id => (b.handles id).postorder := by
    refine List.map_congr_left fun id member => ?_
    rw [(left.grown.sound sound).handles_of_rows right.grown.rows (left.inside member)]
  rw [List.map_append, List.flatten_append, kept, left.postorder, right.postorder]
  exact added_append left.grown.size_le right.grown.size_le

/-- A new node over all that was grafted. -/
theorem Planted.push {a b : Arena} {k : Kind NodeId} (sound : a.Sound)
    (planted : Planted a b k.children) (m : Origin) : Planted a (b.push m k) [b.next] := by
  have distinct : k.children.Nodup := planted.sublist.nodup (nodup_added a b)
  have grows : Grows b (b.push m k) := .push distinct fun c member => planted.inside member
  have later := grows.sound (planted.grown.sound sound)
  refine ⟨planted.grown.tail grows, ?_⟩
  have kept : (k.children.map fun id => ((b.push m k).handles id).postorder) =
      k.children.map fun id => (b.handles id).postorder := by
    refine List.map_congr_left fun id member => ?_
    rw [(planted.grown.sound sound).handles_of_rows grows.rows (planted.inside member)]
  rw [List.map_singleton, List.flatten_singleton, later.handles_eq, kind_push, if_pos rfl,
    Tree.postorder_node, Kind.children_map, List.map_map, Function.comp_def, kept,
    planted.postorder, ← added_push b m k]
  exact added_append planted.grown.size_le (size_le_of_rows grows.rows)

theorem planted_walk {ts : List SourceTree}
    (each : ∀ t ∈ ts, ∀ a : Arena, a.Sound → Planted a (graft t a).2 [(graft t a).1])
    {a : Arena} (sound : a.Sound) :
    Planted a (Kind.walk graft ts a).2 ((Kind.walk graft ts a).1.map Prod.snd) := by
  induction ts generalizing a with
  | nil => exact ⟨.refl, by simp [Kind.walk, added]⟩
  | cons t ts ih =>
    obtain ⟨first, others⟩ := List.forall_mem_cons.mp each
    have planted := first a sound
    exact planted.append sound (ih others (planted.grown.sound sound))

theorem planted_graft (t : SourceTree) {a : Arena} (sound : a.Sound) :
    Planted a (graft t a).2 [(graft t a).1] := by
  induction t using Tree.induct generalizing a with
  | step m k ih =>
    obtain ⟨p, -, children, run⟩ := Kind.traverse_run graft k a
    have planted := planted_walk (fun t member a sound => ih t member sound) sound
    rw [← children, ← Kind.children_map] at planted
    rw [graft_node, run]
    exact planted.push sound m

theorem sound_ofTree (t : SourceTree) : (ofTree t).Sound :=
  ((planted_graft t sound_empty).grown.sound sound_empty).setRoot _

/-- The arena of a tree holds the nodes of that tree and no others. -/
theorem postorder_ofTree (t : SourceTree) :
    ((ofTree t).handles (top t)).postorder = (List.range (ofTree t).size).map NodeId.mk := by
  have planted := planted_graft t sound_empty
  have kept : (ofTree t).handles (top t) = (graft t empty).2.handles (graft t empty).1 :=
    (planted.grown.sound sound_empty).handles_of_rows (List.prefix_refl _)
      (planted.inside (List.mem_singleton.mpr rfl))
  have all := planted.postorder
  rw [List.map_singleton, List.flatten_singleton] at all
  rw [kept, all, List.range_eq_range']
  rfl

theorem perm_preorder_ofTree (t : SourceTree) :
    ((ofTree t).preorder (top t)).Perm ((List.range (ofTree t).size).map NodeId.mk) := by
  rw [← postorder_ofTree]
  exact Tree.preorder_perm_postorder _

theorem mem_preorder_ofTree {t : SourceTree} {id : NodeId} :
    id ∈ (ofTree t).preorder (top t) ↔ id.index < (ofTree t).size := by
  rw [(perm_preorder_ofTree t).mem_iff, List.mem_map]
  constructor
  · rintro ⟨i, member, rfl⟩
    exact List.mem_range.mp member
  · exact fun inside => ⟨id.index, List.mem_range.mpr inside, rfl⟩

theorem top_lt_size (t : SourceTree) : (top t).index < (ofTree t).size := by
  rw [← mem_preorder_ofTree, (sound_ofTree t).preorder_eq]
  exact List.mem_cons_self

theorem nodup_preorder_ofTree (t : SourceTree) : ((ofTree t).preorder (top t)).Nodup := by
  rw [(perm_preorder_ofTree t).nodup_iff]
  exact List.nodup_range.map fun i j same => congrArg NodeId.index same

end Arena

/-- What can be asked of an arena: a new node, by its payload or by a builder, or another root. -/
inductive Call where
  | alloc (kind : Kind NodeId) (origin : Origin)
  | rebuild (id : NodeId) (kind : Kind NodeId)
  | identifier (name : String)
  | literal (value : String) (kind : LiteralKind)
  | number (text : String)
  | string (text : String)
  | boolean (value : Bool)
  | nil
  | binary (op : BinaryOp) (left right : NodeId)
  | unary (op : UnaryOp) (operand : NodeId)
  | paren (inner : NodeId)
  | call (callee : NodeId) (args : List NodeId)
  | field (table : NodeId) (name : String)
  | index (table key : NodeId)
  | block (statements : List NodeId)
  | expressionStatement (expression : NodeId)
  | assignment (targets values : List NodeId)
  | localNames (names values : List NodeId)
  | returning (values : List NodeId)
  | ifThen (condition body : NodeId)
  | doBlock (body : NodeId)
  | chunk (body : NodeId)
  | setRoot (id : NodeId)

namespace Call

/-- The edit that answers a call. -/
def edit : Call → Edit NodeId
  | alloc kind origin => Edit.alloc kind origin
  | rebuild id kind => Edit.rebuild id kind
  | identifier name => Edit.identifier name
  | literal value kind => Edit.literal value kind
  | number text => Edit.number text
  | string text => Edit.string text
  | boolean value => Edit.boolean value
  | nil => Edit.nil
  | binary op left right => Edit.binary op left right
  | unary op operand => Edit.unary op operand
  | paren inner => Edit.paren inner
  | call callee args => Edit.call callee args
  | field table name => Edit.field table name
  | index table key => Edit.index table key
  | block statements => Edit.block statements
  | expressionStatement expression => Edit.expressionStatement expression
  | assignment targets values => Edit.assignment targets values
  | localNames names values => Edit.localNames names values
  | returning values => Edit.returning values
  | ifThen condition body => Edit.ifThen condition body
  | doBlock body => Edit.doBlock body
  | chunk body => Edit.chunk body
  | setRoot id => do
    modify (·.setRoot id)
    return id

/-- The given handles that the new node adopts. -/
def adopted : Call → List NodeId
  | alloc kind _ | rebuild _ kind => kind.children
  | identifier _ | literal _ _ | number _ | string _ | boolean _ | nil | setRoot _ => []
  | unary _ child | paren child | field child _ | expressionStatement child | doBlock child
  | chunk child => [child]
  | binary _ left right | index left right | ifThen left right => [left, right]
  | call callee args => callee :: args
  | block list | returning list => list
  | assignment left right | localNames left right => left ++ right

/-- All handles that a call names. -/
def names : Call → List NodeId
  | rebuild id kind => id :: kind.children
  | setRoot id => [id]
  | c => c.adopted

/-- The arena behind a call, whether it succeeds or not. -/
def after (c : Call) (a : Arena) : Arena :=
  (c.edit.run.run a).2

end Call

namespace Edit

/-- A node is checked for shared children, then for missing ones, and then added. -/
theorem run_alloc_eq (k : Kind NodeId) (m : Origin) (a : Arena) :
    (alloc k m).run.run a =
      if ¬ k.children.Nodup then (.error (.sharedChild a.next), a)
      else match k.children.find? (fun child => !a.contains child) with
        | some child => (.error (.missing child), a)
        | none => (.ok a.next, a.push m k) := by
  by_cases distinct : k.children.Nodup
  · simp only [alloc, distinct, not_true_eq_false, if_false]
    change (match k.children.find? (fun child => !a.contains child) with
      | some child => throw (.missing child)
      | none => do set (a.push m k); return a.next : Edit NodeId).run.run a = _
    split <;> rfl
  · simp only [alloc, distinct, not_false_eq_true, if_true]
    rfl

variable {a : Arena} {k : Kind NodeId}

theorem run_alloc_of_shared (shared : ¬ k.children.Nodup) (m : Origin) :
    (alloc k m).run.run a = (.error (.sharedChild a.next), a) := by
  rw [run_alloc_eq, if_pos shared]

theorem run_alloc (distinct : k.children.Nodup) (inside : ∀ c ∈ k.children, c.index < a.size)
    (m : Origin) : (alloc k m).run.run a = (.ok a.next, a.push m k) := by
  have present : k.children.find? (fun child => !a.contains child) = none := by
    rw [List.find?_eq_none]
    intro c member
    simp [Arena.contains, inside c member]
  rw [run_alloc_eq, if_neg (not_not_intro distinct), present]

/-- A node is refused, with no effect, or it names different nodes of the arena and is added. -/
theorem run_alloc_cases (k : Kind NodeId) (m : Origin) (a : Arena) :
    (∃ problem, (alloc k m).run.run a = (.error problem, a)) ∨
      k.children.Nodup ∧ (∀ c ∈ k.children, c.index < a.size) ∧
        (alloc k m).run.run a = (.ok a.next, a.push m k) := by
  by_cases distinct : k.children.Nodup
  · cases found : k.children.find? (fun child => !a.contains child) with
    | some child =>
      refine .inl ⟨.missing child, ?_⟩
      rw [run_alloc_eq, if_neg (not_not_intro distinct), found]
    | none =>
      have inside : ∀ c ∈ k.children, c.index < a.size := fun c member => by
        simpa [Arena.contains] using List.find?_eq_none.mp found c member
      exact .inr ⟨distinct, inside, run_alloc distinct inside m⟩
  · exact .inl ⟨_, run_alloc_of_shared distinct m⟩

theorem run_alloc_grown (distinct : k.children.Nodup)
    (inside : ∀ c ∈ k.children, c.index < a.size) (m : Origin) :
    ∃ id b, (alloc k m).run.run a = (.ok id, b) ∧ a.Grown b :=
  ⟨a.next, a.push m k, run_alloc distinct inside m, .single (.push distinct inside)⟩

theorem run_bind {α β : Type} (e : Edit α) (f : α → Edit β) (a : Arena) :
    (e >>= f).run.run a =
      match e.run.run a with
      | (.ok x, b) => (f x).run.run b
      | (.error problem, b) => (.error problem, b) := by
  rw [ExceptT.run_bind, StateT.run_bind]
  rcases e.run.run a with ⟨problem | x, b⟩
  · rfl
  · rfl

theorem run_rebuild (id : NodeId) (k : Kind NodeId) (a : Arena) :
    (rebuild id k).run.run a = (alloc k (a.origin id)).run.run a := by
  have looked {α : Type} (f : Origin → Edit α) :
      (do f ((← get).origin id) : Edit α).run.run a = (f (a.origin id)).run.run a := rfl
  exact looked (alloc k)

/-- The name is added first, so that it differs from the table. -/
theorem run_field {table : NodeId} (inside : table.index < a.size) (name : String) :
    ∃ id b, (field table name).run.run a = (.ok id, b) ∧ a.Grown b := by
  let named := a.push default (.identifier name)
  have key : (identifier name).run.run a = (.ok a.next, named) :=
    run_alloc (by simp [Kind.children]) (by simp [Kind.children]) _
  have grown : a.Grown named := .single (.push (by simp [Kind.children]) (by simp [Kind.children]))
  have different : table ≠ a.next := by
    rintro rfl
    exact Nat.lt_irrefl _ inside
  obtain ⟨id, b, access, more⟩ := run_alloc_grown (a := named) (k := .access .dot table a.next)
    (by simpa [Kind.children] using different)
    (by simp only [Kind.children, List.mem_cons, List.not_mem_nil, or_false, forall_eq_or_imp,
          forall_eq, named, Arena.size_push, Arena.next]
        omega) default
  refine ⟨id, b, ?_, grown.trans more⟩
  rw [field, run_bind, key]
  exact access

end Edit

namespace Call

variable {c : Call} {a : Arena}

/-- All calls but three add one node that is told in full. -/
theorem edit_cases (c : Call) :
    (∃ k m, k.children = c.adopted ∧ c.edit = Edit.alloc k m) ∨
    (∃ id k, c = rebuild id k) ∨ (∃ table name, c = field table name) ∨ ∃ id, c = setRoot id := by
  cases c
  case rebuild id k => exact .inr (.inl ⟨id, k, rfl⟩)
  case field table name => exact .inr (.inr (.inl ⟨table, name, rfl⟩))
  case setRoot id => exact .inr (.inr (.inr ⟨id, rfl⟩))
  all_goals exact .inl ⟨_, _, rfl, rfl⟩

theorem run_of_shared (shared : ¬ c.adopted.Nodup) :
    c.edit.run.run a = (.error (.sharedChild a.next), a) := by
  obtain ⟨k, m, children, edit⟩ | ⟨id, k, rfl⟩ | ⟨table, name, rfl⟩ | ⟨id, rfl⟩ := c.edit_cases
  · rw [edit]
    exact Edit.run_alloc_of_shared (children ▸ shared) m
  · exact (Edit.run_rebuild id k a).trans (Edit.run_alloc_of_shared shared _)
  · simp [adopted] at shared
  · simp [adopted] at shared

theorem adopted_subset_names (c : Call) : c.adopted ⊆ c.names := by
  cases c <;> simp [adopted, names]

theorem run_of_distinct (distinct : c.adopted.Nodup) (inside : ∀ id ∈ c.names, id.index < a.size) :
    ∃ id b, c.edit.run.run a = (.ok id, b) ∧ a.Grown b := by
  have present : ∀ id ∈ c.adopted, id.index < a.size :=
    fun id member => inside id (c.adopted_subset_names member)
  obtain ⟨k, m, children, edit⟩ | ⟨id, k, rfl⟩ | ⟨table, name, rfl⟩ | ⟨id, rfl⟩ := c.edit_cases
  · rw [edit]
    exact Edit.run_alloc_grown (children ▸ distinct) (children ▸ present) m
  · rw [show (rebuild id k).edit = Edit.rebuild id k from rfl, Edit.run_rebuild]
    exact Edit.run_alloc_grown distinct present _
  · exact Edit.run_field (present table (by simp [adopted])) name
  · exact ⟨id, a.setRoot id, rfl, .single .setRoot⟩

end Call

namespace Arena

/-- One call that names only nodes of the arena. -/
def Step (a b : Arena) : Prop :=
  ∃ c : Call, (∀ id ∈ c.names, a.contains id) ∧ b = c.after a

/-- Any number of calls. -/
def Run : Arena → Arena → Prop :=
  Relation.ReflTransGen Step

/-- The arenas that calls can make of an empty one or of a program. -/
inductive Reached : Arena → Prop where
  | empty : Reached empty
  | parsed {source : String} {t : SourceTree} (parsed : parse source = .ok t) :
      Reached (ofTree t)
  | step {a b : Arena} (reached : Reached a) (step : Step a b) : Reached b

theorem Step.grown {a b : Arena} (step : Step a b) : Grown a b := by
  obtain ⟨c, present, rfl⟩ := step
  have inside : ∀ id ∈ c.names, id.index < a.size :=
    fun id member => contains_iff.mp (present id member)
  by_cases distinct : c.adopted.Nodup
  · obtain ⟨id, b, run, grown⟩ := Call.run_of_distinct distinct inside
    rw [Call.after, run]
    exact grown
  · rw [Call.after, Call.run_of_shared distinct]
    exact .refl

theorem Run.grown {a b : Arena} (run : Run a b) : Grown a b := by
  induction run with
  | refl => exact .refl
  | tail _ step ih => exact ih.trans step.grown

theorem Reached.sound {a : Arena} (reached : Reached a) : a.Sound := by
  induction reached with
  | empty => exact sound_empty
  | parsed _ => exact sound_ofTree _
  | step _ step ih => exact step.grown.sound ih

/-- In every arena that calls can make, children are older than the nodes that name them, the parent
of a node is the last one that names it, no call changes what is below a handle, and a node is
refused, with no effect, just if it would name a child twice. -/
theorem reached_arena_invariant {a : Arena} (reached : Reached a) :
    (∀ p, ∀ c ∈ a.children p, c.index < p.index) ∧
    (∀ c, (∀ p, a.parent c = some p ↔
        c ∈ a.children p ∧ ∀ q, c ∈ a.children q → q.index ≤ p.index) ∧
      (a.parent c = none ↔ ∀ p, c ∉ a.children p)) ∧
    (∀ b, Run a b → ∀ id, a.contains id →
      b.contains id ∧ b.kind id = a.kind id ∧ b.origin id = a.origin id ∧
        b.handles id = a.handles id ∧ b.tree id = a.tree id) ∧
    ∀ c : Call, (∀ id ∈ c.names, a.contains id) →
      if c.adopted.Nodup then ∃ id, c.edit.run.run a = (.ok id, c.after a)
      else c.edit.run.run a = (.error (.sharedChild a.next), a) := by
  have sound := reached.sound
  refine ⟨sound.older, fun c => ⟨fun p => sound.parent_eq_some_iff, sound.parent_eq_none_iff⟩,
    ?_, ?_⟩
  · intro b run id present
    have inside := contains_iff.mp present
    have more := run.grown.rows
    obtain ⟨origin, kind⟩ := get_eq_of_rows more inside
    have still := contains_iff.mpr (Nat.lt_of_lt_of_le inside run.grown.size_le)
    exact ⟨still, kind, origin, sound.handles_of_rows more inside,
      sound.tree_of_rows more inside⟩
  · intro c present
    split
    · next distinct =>
      obtain ⟨id, b, run, -⟩ := Call.run_of_distinct distinct
        fun id member => contains_iff.mp (present id member)
      exact ⟨id, by rw [Call.after, run]⟩
    · next shared => exact Call.run_of_shared shared

/-- A name in parentheses twice over belongs to the later pair, and no node can hold one pair
twice. -/
theorem reached_two_parens :
    let a := (Call.paren ⟨0⟩).after ((Call.paren ⟨0⟩).after ((Call.identifier "x").after empty))
    Reached a ∧ a.parent ⟨0⟩ = some ⟨2⟩ ∧ (∀ q, ⟨0⟩ ∈ a.children q → q.index ≤ 2) ∧
      a.parent ⟨2⟩ = none ∧ (∀ p, ⟨2⟩ ∉ a.children p) ∧
      (Call.binary .add ⟨1⟩ ⟨1⟩).edit.run.run a = (.error (.sharedChild ⟨3⟩), a) := by
  intro a
  have reached : Reached a := by
    refine .step (.step (.step .empty ⟨.identifier "x", ?_, rfl⟩) ⟨.paren ⟨0⟩, ?_, rfl⟩)
      ⟨.paren ⟨0⟩, ?_, rfl⟩ <;> decide
  obtain ⟨-, parents, -, calls⟩ := reached_arena_invariant reached
  have adopted : a.parent ⟨0⟩ = some ⟨2⟩ := by decide
  have free : a.parent ⟨2⟩ = none := by decide
  refine ⟨reached, adopted, (((parents ⟨0⟩).1 ⟨2⟩).mp adopted).2, free, (parents ⟨2⟩).2.mp free, ?_⟩
  have shared := calls (.binary .add ⟨1⟩ ⟨1⟩) (by decide)
  rwa [if_neg (by decide)] at shared

end Arena

end LuaTree
