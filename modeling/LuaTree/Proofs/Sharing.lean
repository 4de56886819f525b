import LuaTree.Proofs.Parsed
import LuaTree.Proofs.Visits
import Mathlib.Data.List.Lattice
import Mathlib.Data.List.Pairwise

/-!
# What old and new programs share

A rewriter of leaves that adds one node for each leaf it replaces rebuilds just
the nodes above those leaves, each once, and keeps all others
(`rewriteRoot_shares`). The new nodes stand in the arena in the order in which
the old ones do. Of what was there before, only the parents of kept children of
rebuilt nodes change.
-/

namespace LuaTree

variable {σ : Type}

namespace Tree

variable {ι : Type}

theorem mark_mem_preorder (t : Tree ι) : t.mark ∈ t.preorder := by
  obtain ⟨m, k⟩ := t
  rw [preorder_node]
  exact List.mem_cons_self

theorem child_mem_preorder {t : Tree ι} {m : ι} {k : Kind (Tree ι)} (child : t ∈ k.children) :
    t.mark ∈ (Tree.node m k).preorder := by
  rw [preorder_node]
  refine List.mem_cons_of_mem _ (List.mem_flatten.mpr ⟨_, List.mem_map_of_mem child, ?_⟩)
  exact t.mark_mem_preorder

end Tree

namespace Arena

variable {a b : Arena}

/-- Every node below a node is named once. -/
theorem Sound.perm_children (sound : a.Sound) (id : NodeId) :
    ((a.preorder id).flatMap a.children).Perm (a.descendants id) := by
  obtain ⟨n⟩ := id
  induction n using Nat.strongRecOn with
  | ind n ih =>
    have below : ((a.children ⟨n⟩).flatMap fun c => (a.preorder c).flatMap a.children).Perm
        ((a.children ⟨n⟩).flatMap fun c => (a.preorder c).tail) :=
      List.Perm.flatMap_left _ fun c member => ih c.index (sound.older ⟨n⟩ c member)
    have whole (c : NodeId) : [c] ++ (a.preorder c).tail = a.preorder c := by
      rw [sound.preorder_eq]
      rfl
    have joined := List.flatMap_append_perm (a.children ⟨n⟩) (fun c => [c])
      fun c => (a.preorder c).tail
    rw [List.flatMap_singleton', funext whole] at joined
    rw [descendants, sound.preorder_eq, List.tail_cons, List.flatMap_cons, List.flatMap_assoc]
    exact (below.append_left _).trans joined

theorem eq_of_mem_children {t : SourceTree} {p q c : NodeId} (first : c ∈ (ofTree t).children p)
    (second : c ∈ (ofTree t).children q) : p = q := by
  have tail : ((ofTree t).descendants (top t)).Nodup := (nodup_preorder_ofTree t).tail
  rw [← ((sound_ofTree t).perm_children (top t)).nodup_iff, List.nodup_flatMap] at tail
  by_contra different
  have inside (x : NodeId) (member : c ∈ (ofTree t).children x) :=
    mem_preorder_ofTree.mpr (index_lt_size member)
  have symmetric : Std.Symm (Function.onFun List.Disjoint (ofTree t).children) :=
    ⟨fun _ _ disjoint => List.Disjoint.symm disjoint⟩
  exact tail.2.forall (inside p first) (inside q second) different first second

theorem parent_ofTree {t : SourceTree} (c p : NodeId) :
    (ofTree t).parent c = some p ↔ c ∈ (ofTree t).children p := by
  constructor
  · intro adopted
    exact ((sound_ofTree t).parent_eq_some_iff.mp adopted).1
  · intro named
    apply (sound_ofTree t).parent_eq_some_iff.mpr
    refine ⟨named, fun q alsoNamed => Nat.le_of_eq ?_⟩
    rw [eq_of_mem_children alsoNamed named]

theorem parent_top (t : SourceTree) : (ofTree t).parent (top t) = none := by
  have sound := sound_ofTree t
  refine sound.parent_eq_none_iff.mpr fun p named => ?_
  have among := List.mem_flatMap.mpr ⟨p, mem_preorder_ofTree.mpr (index_lt_size named), named⟩
  have below := (sound.perm_children (top t)).mem_iff.mp among
  have distinct := nodup_preorder_ofTree t
  rw [descendants, sound.preorder_eq, List.tail_cons] at below
  rw [sound.preorder_eq] at distinct
  exact (List.nodup_cons.mp distinct).1 below

/-- The nodes of `b` that `a` does not have are copies, over moved children, of the nodes of `a`
that are moved. -/
structure Moves (a b : Arena) (moved : NodeId → NodeId) : Prop where
  rows : a.rows <+: b.rows
  fresh : ∀ x, x.index < a.size → moved x = x ∨ a.size ≤ (moved x).index
  children : ∀ x, x.index < a.size → moved x ≠ x → b.children (moved x) = (a.children x).map moved
  covered : ∀ id, a.size ≤ id.index → id.index < b.size → ∃ x, x.index < a.size ∧ moved x = id

namespace Moves

variable {moved : NodeId → NodeId} (moves : Moves a b moved) {c : NodeId}

include moves

theorem children_old {x : NodeId} (inside : x.index < a.size) : b.children x = a.children x :=
  congrArg Kind.children (get_eq_of_rows moves.rows inside).2

/-- A new node names an old one only as a kept child. -/
theorem kept_of_mem (sound : a.Sound) (old : c.index < a.size) {q : NodeId}
    (new : a.size ≤ q.index) (member : c ∈ b.children q) :
    ∃ x, q = moved x ∧ moved x ≠ x ∧ c ∈ a.children x ∧ moved c = c := by
  obtain ⟨x, inside, rfl⟩ := moves.covered q new (index_lt_size member)
  have different : moved x ≠ x := by
    intro same
    rw [same] at new
    omega
  rw [moves.children x inside different, List.mem_map] at member
  obtain ⟨y, named, rfl⟩ := member
  have smaller := sound.older x y named
  obtain same | fresh := moves.fresh y (by omega)
  · rw [same]
    exact ⟨x, rfl, different, named, same⟩
  · omega

variable (sound : a.Sound) (later : b.Sound) (old : c.index < a.size)
  (single : ∀ p q, c ∈ a.children p → c ∈ a.children q → p = q)

include sound later old

include single in
theorem parent_of_kept {p : NodeId} (named : c ∈ a.children p) (rebuilt : moved p ≠ p)
    (kept : moved c = c) : b.parent c = some (moved p) := by
  have inside := index_lt_size named
  refine later.parent_eq_some_iff.mpr ⟨?_, fun q member => ?_⟩
  · rw [moves.children p inside rebuilt]
    exact List.mem_map.mpr ⟨c, named, kept⟩
  · have above := (moves.fresh p inside).resolve_left rebuilt
    by_cases new : a.size ≤ q.index
    · obtain ⟨x, rfl, -, also, -⟩ := moves.kept_of_mem sound old new member
      exact Nat.le_of_eq (congrArg (fun x => (moved x).index) (single x p also named))
    · omega

theorem parent_of_not_kept
    (other : ∀ p, c ∈ a.children p → moved p ≠ p → moved c ≠ c) : b.parent c = a.parent c := by
  have before {q : NodeId} (member : c ∈ b.children q) : c ∈ a.children q := by
    by_cases new : a.size ≤ q.index
    · obtain ⟨x, -, rebuilt, named, kept⟩ := moves.kept_of_mem sound old new member
      exact absurd kept (other x named rebuilt)
    · rwa [moves.children_old (by omega)] at member
  cases adopted : a.parent c with
  | none =>
    have unnamed := sound.parent_eq_none_iff.mp adopted
    exact later.parent_eq_none_iff.mpr fun p member => unnamed p (before member)
  | some p =>
    obtain ⟨named, greatest⟩ := sound.parent_eq_some_iff.mp adopted
    refine later.parent_eq_some_iff.mpr ⟨?_, fun q member => greatest q (before member)⟩
    rwa [moves.children_old (index_lt_size named)]

end Moves

end Arena

namespace Rewriter

variable {r : Rewriter σ} {a : Arena}

theorem Lawful.minimal {v : Visit σ} {k : Kind (Visit σ)} (lawful : r.Lawful a Visit.Minimal v k)
    (leaf : k.isLeaf = true) : v.Minimal := by
  have step := lawful.step
  rwa [if_pos leaf] at step

/-- What takes the place of a node has what took the places of its children. -/
theorem Lawful.children {v : Visit σ} {k : Kind (Visit σ)} (lawful : r.Lawful a Visit.Minimal v k)
    (settled : ∀ c ∈ k.children, c.Settled) :
    v.after.2.children v.result = k.children.map Visit.result := by
  refine lawful.children_result settled fun leaf different => ?_
  obtain ⟨result, -⟩ | ⟨m, k, childless, result, after⟩ := lawful.minimal leaf
  · exact absurd result different
  · rw [result, after, Arena.children_push, if_pos rfl, childless]

/-- A node is replaced just if a leaf below it is. -/
theorem Traced.changed_eq {P : Visit σ → Prop} {p : Tree (Visit σ)} (traced : r.Traced a P p) :
    p.mark.changed = (leafVisits a p).any Visit.changed := by
  induction traced with
  | @node v k children lawful ih =>
    rw [leafVisits_node lawful]
    by_cases leaf : k.isLeaf
    · rw [if_pos leaf, List.any_cons, List.any_nil, Bool.or_false]
      rfl
    · have changed := (lawful.composite_of_traced children leaf).2.2.1
      have below := congrArg (List.any · id) (List.map_congr_left ih)
      simp only [List.any_map, Function.id_comp] at below
      rw [Kind.children_map, List.any_map] at changed
      rw [if_neg leaf, List.any_flatMap]
      exact changed.trans below

/-- The new tree has the results in the order of the nodes. -/
theorem Traced.preorder_after {p : Tree (Visit σ)} (sound : a.Sound)
    (traced : r.Traced a Visit.Minimal p) :
    p.mark.after.2.preorder p.mark.result = p.preorder.map Visit.result := by
  induction traced with
  | @node v k children lawful ih =>
    have named := lawful.children (Traced.settled children)
    have later := lawful.sound_after sound
    have below : k.children.map (fun p => v.after.2.preorder p.mark.result) =
        k.children.map fun p => p.preorder.map Visit.result := by
      refine List.map_congr_left fun p member => ?_
      have before := (children p member).lawful
      rw [← ih p member]
      exact (before.sound_after sound).preorder_of_rows
        (lawful.after_children children member).rows before.settled.inside
    change v.after.2.preorder v.result = _
    rw [later.preorder_eq, named, Tree.preorder_node, List.map_cons, Kind.children_map,
      List.flatMap_map, List.flatMap_map, List.map_flatten, List.map_map]
    exact congrArg (fun parts => v.result :: parts.flatten) below

theorem flatMap_added {f : Tree (Visit σ) → List NodeId} {ps : List (Tree (Visit σ))}
    {start stop : σ × Arena} (threads : Threads Eq start (ps.map Tree.mark) stop)
    (each : ∀ p ∈ ps, p.mark.Settled ∧ f p = Arena.added p.mark.before.2 p.mark.after.2) :
    ps.flatMap f = Arena.added start.2 stop.2 := by
  induction ps generalizing start with
  | nil =>
    cases threads with
    | nil same => simp [same, Arena.added]
  | cons p ps ih =>
    obtain ⟨⟨settled, first⟩, others⟩ := List.forall_mem_cons.mp each
    cases threads with
    | cons passed rest =>
      have later : ∀ v ∈ ps.map Tree.mark, v.Settled :=
        List.forall_mem_map.mpr fun p member => (others p member).1
      rw [List.flatMap_cons, first, ih rest others, passed]
      exact Arena.added_append settled.grown.size_le (rest.grown later).1.size_le

theorem Lawful.added_leaf {v : Visit σ} {k : Kind (Visit σ)}
    (lawful : r.Lawful a Visit.Minimal v k) (leaf : k.isLeaf = true) :
    ([v].filter Visit.changed).map Visit.result = Arena.added v.before.2 v.after.2 := by
  obtain ⟨result, after⟩ | ⟨m, k, childless, result, after⟩ := lawful.minimal leaf
  · simp [Visit.unchanged_iff.mpr result, after, Arena.added]
  · have different := lawful.result_ne lawful.grown result
    simp [Visit.changed_iff.mpr different, after, Arena.added_push, result]

/-- The results that are new take the handles that come next, in the order of the arena. -/
theorem Traced.added {p : Tree (Visit σ)} (traced : r.Traced a Visit.Minimal p) :
    (p.postorder.filter Visit.changed).map Visit.result =
      Arena.added p.mark.before.2 p.mark.after.2 := by
  induction traced with
  | @node v k children lawful ih =>
    change _ = Arena.added v.before.2 v.after.2
    rw [Tree.postorder_node, List.filter_append, List.map_append]
    by_cases leaf : k.isLeaf
    · rw [Kind.children_of_isLeaf leaf]
      exact lawful.added_leaf (by rwa [Kind.isLeaf_map])
    · have changed := (lawful.composite_of_traced children leaf).2.2.1
      have step := lawful.step
      rw [Kind.isLeaf_map, if_neg leaf] at step
      obtain ⟨s, b, threads, more, step⟩ := step
      have first := (threads.grown (Traced.settled children)).1.size_le
      rw [Kind.children_map] at threads
      have below := flatMap_added threads
        fun p member => ⟨(children p member).lawful.settled, ih p member⟩
      rw [List.filter_flatten, List.map_map, List.map_flatten, List.map_map]
      rw [List.flatMap_def] at below
      cases any : (k.map Tree.mark).children.any Visit.changed with
      | false =>
        rw [any] at step changed
        rw [step.2, List.filter_cons_of_neg (by simp [changed])]
        exact (List.append_nil _).trans below
      | true =>
        rw [any] at step changed
        rw [step.2, List.filter_cons_of_pos changed, List.filter_nil, List.map_singleton, step.1]
        refine (congrArg (· ++ [b.next]) below).trans ?_
        rw [← Arena.added_push b (a.origin v.node) ((k.map Tree.mark).map Visit.result)]
        exact Arena.added_append first (by simp)

section Moved

variable {p : Tree (Visit σ)} {moved : NodeId → NodeId} {v : Visit σ} (sound : a.Sound)
  (traced : r.Traced a Visit.Minimal p) (found : ∀ v ∈ p.preorder, moved v.node = v.result)
  (member : v ∈ p.preorder)

include sound traced found member

theorem moved_eq_self_iff : moved v.node = v.node ↔ ∀ y ∈ a.leaves v.node, moved y = y := by
  obtain ⟨q, rfl, inner, subset, -⟩ := traced.exists_of_mem member
  rw [found q.mark member, ← Visit.unchanged_iff, inner.changed_eq, List.any_eq_false,
    ← map_node_leafVisits sound inner, List.forall_mem_map]
  refine forall₂_congr fun w among => ?_
  rw [found w (subset (List.mem_of_mem_filter among)), Bool.not_eq_true, Visit.unchanged_iff]

omit sound in
/-- The visit of a node with those of its children, as the lookup finds them. -/
theorem exists_lawful_of_mem :
    ∃ k : Kind (Visit σ), r.Lawful a Visit.Minimal v k ∧ (∀ c ∈ k.children, c.Settled) ∧
      (a.kind v.node).map moved = k.map Visit.result ∧
      p.mark.after.2.kind (moved v.node) = v.after.2.kind v.result ∧
      p.mark.after.2.origin (moved v.node) = v.after.2.origin v.result := by
  obtain ⟨q, mark, inner, subset, grown⟩ := traced.exists_of_mem member
  cases inner with
  | @node w k children lawful =>
    obtain rfl : w = v := mark
    have seen : ∀ c ∈ (k.map Tree.mark).children, moved c.node = c.result := by
      rw [Kind.children_map, List.forall_mem_map]
      intro q child
      exact found q.mark (subset (Tree.child_mem_preorder child))
    obtain ⟨origin, kind⟩ := Arena.get_eq_of_rows grown.rows lawful.settled.inside
    refine ⟨k.map Tree.mark, lawful, Traced.settled children, ?_, ?_, ?_⟩
    · rw [lawful.kind, Kind.map_map]
      exact Kind.map_congr _ seen
    · rw [found w member, kind]
    · rw [found w member, origin]

omit sound in
theorem children_moved :
    p.mark.after.2.children (moved v.node) = (a.children v.node).map moved := by
  obtain ⟨k, lawful, settled, moves, kind, -⟩ := exists_lawful_of_mem traced found member
  calc p.mark.after.2.children (moved v.node)
    _ = v.after.2.children v.result := congrArg Kind.children kind
    _ = k.children.map Visit.result := lawful.children settled
    _ = (a.children v.node).map moved := by
      rw [Arena.children, ← Kind.children_map, ← Kind.children_map, moves]

omit sound in
theorem kind_moved (composite : (a.kind v.node).isLeaf = false) :
    p.mark.after.2.kind (moved v.node) = (a.kind v.node).map moved ∧
      p.mark.after.2.origin (moved v.node) = a.origin v.node := by
  obtain ⟨k, lawful, settled, moves, kind, origin⟩ := exists_lawful_of_mem traced found member
  rw [lawful.kind, Kind.isLeaf_map] at composite
  obtain ⟨kind', origin', -⟩ := lawful.composite composite settled
  exact ⟨by rw [kind, kind', moves], origin.trans origin'⟩

end Moved

section Added

variable {p : Tree (Visit σ)} (traced : r.Traced a Visit.Minimal p)

include traced

theorem mem_added_iff {id : NodeId} :
    id ∈ Arena.added p.mark.before.2 p.mark.after.2 ↔
      ∃ v ∈ p.preorder, v.changed = true ∧ v.result = id := by
  rw [← traced.added, List.mem_map]
  simp only [List.mem_filter, p.preorder_perm_postorder.mem_iff, and_assoc]

/-- No two nodes have the same new handle. -/
theorem eq_of_result_eq {v w : Visit σ} (first : v ∈ p.preorder) (second : w ∈ p.preorder)
    (changed : v.changed = true) (changed' : w.changed = true) (same : v.result = w.result) :
    v = w := by
  have distinct := Arena.nodup_added p.mark.before.2 p.mark.after.2
  rw [← traced.added] at distinct
  rw [p.preorder_perm_postorder.mem_iff] at first second
  exact List.inj_on_of_nodup_map distinct (List.mem_filter.mpr ⟨first, changed⟩)
    (List.mem_filter.mpr ⟨second, changed'⟩) same

theorem size_eq_add_countP :
    p.mark.after.2.size = p.mark.before.2.size + p.preorder.countP Visit.changed := by
  have length := congrArg List.length traced.added
  have grown := traced.lawful.settled.grown.size_le
  rw [List.length_map, ← List.countP_eq_length_filter, Arena.added, List.length_map,
    List.length_range', ← p.preorder_perm_postorder.countP_eq] at length
  omega

end Added

end Rewriter

namespace Arena

/-- How a tree in `a` and the one that takes its place in `b` share their nodes, where `moved x`
takes the place of `x`. -/
structure Shared (a b : Arena) (root : NodeId) (moved : NodeId → NodeId) : Prop where
  /-- The new tree has the replacements in the places of the old nodes. -/
  preorder : b.preorder (moved root) = (a.preorder root).map moved
  /-- A node is replaced just if a leaf below it is. -/
  unmoved : ∀ x ∈ a.preorder root, moved x = x ↔ ∀ y ∈ a.leaves x, moved y = y
  /-- What is not replaced keeps its handle in the new tree, and nothing else does. -/
  kept : ∀ x ∈ a.preorder root, x ∈ b.preorder (moved root) ↔ moved x = x
  /-- A composite is rebuilt over the replacements of its children, with its span and comments. -/
  rebuilt : ∀ x ∈ a.preorder root, (a.kind x).isLeaf = false →
    b.kind (moved x) = (a.kind x).map moved ∧ b.origin (moved x) = a.origin x
  /-- Each new node takes the place of just one old one. -/
  once : ∀ id, (a.size ≤ id.index ∧ id.index < b.size) ↔
    ∃! x, x ∈ a.preorder root ∧ moved x ≠ x ∧ moved x = id
  growth : b.size = a.size + (a.leaves root).countP (fun x => moved x != x) +
    (a.preorder root).countP fun x =>
      !(a.kind x).isLeaf && (a.leaves x).any fun y => moved y != y
  frame : ∀ id, a.contains id → b.kind id = a.kind id ∧ b.origin id = a.origin id
  /-- The kept children of a rebuilt node belong to what took its place. -/
  adopted : ∀ p, ∀ c ∈ a.children p, moved p ≠ p → moved c = c → b.parent c = some (moved p)
  /-- All other nodes keep their parents. -/
  parent : ∀ id, a.contains id → (∀ p, id ∈ a.children p → moved p ≠ p → moved id ≠ id) →
    b.parent id = a.parent id

end Arena

namespace Rewriter

variable {r : Rewriter σ}

open Arena

section Shared

variable {t : SourceTree} {p : Tree (Visit σ)} {moved : NodeId → NodeId}
  (traced : r.Traced (ofTree t) Visit.Minimal p) (node : p.mark.node = top t)
  (before : p.mark.before.2 = ofTree t) (found : ∀ v ∈ p.preorder, moved v.node = v.result)

include traced node

theorem map_node_preorder : p.preorder.map Visit.node = (ofTree t).preorder (top t) := by
  rw [traced.preorder (sound_ofTree t), node]

theorem exists_visit {x : NodeId} (member : x ∈ (ofTree t).preorder (top t)) :
    ∃ v ∈ p.preorder, v.node = x := by
  rwa [← map_node_preorder traced node, List.mem_map] at member

include before found

theorem moves_of_traced : Moves (ofTree t) p.mark.after.2 moved where
  rows := (traced.lawful.grown.trans traced.lawful.settled.grown).rows
  fresh := by
    intro x inside
    obtain ⟨v, member, rfl⟩ := exists_visit traced node (mem_preorder_ofTree.mpr inside)
    obtain ⟨k, lawful, -⟩ := exists_lawful_of_mem traced found member
    have size := lawful.grown.size_le
    rw [found v member]
    exact lawful.settled.fresh.imp_right fun fresh => Nat.le_trans size fresh
  children := by
    intro x inside _
    obtain ⟨v, member, rfl⟩ := exists_visit traced node (mem_preorder_ofTree.mpr inside)
    exact children_moved traced found member
  covered := by
    intro id new inside
    have added : id ∈ added p.mark.before.2 p.mark.after.2 := by
      rw [before]
      exact mem_added.mpr ⟨new, inside⟩
    obtain ⟨v, member, -, rfl⟩ := (mem_added_iff traced).mp added
    obtain ⟨k, lawful, -⟩ := exists_lawful_of_mem traced found member
    exact ⟨v.node, lawful.inside, found v member⟩

/-- The handles that are new are those of the nodes that are replaced. -/
theorem new_iff {id : NodeId} : ((ofTree t).size ≤ id.index ∧ id.index < p.mark.after.2.size) ↔
    ∃! x, x ∈ (ofTree t).preorder (top t) ∧ moved x ≠ x ∧ moved x = id := by
  have added : id ∈ added (ofTree t) p.mark.after.2 ↔
      ∃ v ∈ p.preorder, v.changed = true ∧ v.result = id := before ▸ mem_added_iff traced
  rw [← mem_added, added]
  constructor
  · rintro ⟨v, member, changed, rfl⟩
    refine ⟨v.node, ⟨?_, ?_, found v member⟩, ?_⟩
    · rw [← map_node_preorder traced node]
      exact List.mem_map_of_mem member
    · rw [found v member]
      exact Visit.changed_iff.mp changed
    · rintro x ⟨inside, different, same⟩
      obtain ⟨w, also, rfl⟩ := exists_visit traced node inside
      rw [found w also] at different same
      rw [eq_of_result_eq traced also member (Visit.changed_iff.mpr different) changed same]
  · rintro ⟨x, ⟨inside, different, rfl⟩, -⟩
    obtain ⟨v, member, rfl⟩ := exists_visit traced node inside
    rw [found v member] at different ⊢
    exact ⟨v, member, Visit.changed_iff.mpr different, rfl⟩

theorem size_eq_of_traced :
    p.mark.after.2.size = (ofTree t).size +
      ((ofTree t).leaves (top t)).countP (fun x => moved x != x) +
      ((ofTree t).preorder (top t)).countP fun x =>
        !((ofTree t).kind x).isLeaf && ((ofTree t).leaves x).any fun y => moved y != y := by
  have nodes := map_node_preorder traced node
  have replaced : p.preorder.countP Visit.changed =
      ((ofTree t).preorder (top t)).countP fun x => moved x != x := by
    rw [← nodes, List.countP_map]
    refine List.countP_congr fun v member => ?_
    rw [Function.comp_apply, found v member]
    rfl
  have composite : (((ofTree t).preorder (top t)).filter
      fun x => !((ofTree t).kind x).isLeaf).countP (fun x => moved x != x) =
      ((ofTree t).preorder (top t)).countP fun x =>
        !((ofTree t).kind x).isLeaf && ((ofTree t).leaves x).any fun y => moved y != y := by
    rw [List.countP_filter]
    refine List.countP_congr fun x member => ?_
    obtain ⟨v, visited, rfl⟩ := exists_visit traced node member
    have unmoved := moved_eq_self_iff (sound_ofTree t) traced found visited
    rw [Bool.and_comm, Bool.and_eq_true, Bool.and_eq_true, bne_iff_ne, ne_eq, unmoved]
    simp
  have total := size_eq_add_countP traced
  rw [before, replaced, List.countP_eq_countP_filter_add _ _ fun x => ((ofTree t).kind x).isLeaf,
    composite, ← Nat.add_assoc] at total
  exact total

theorem shared_of_traced :
    Shared (ofTree t) (p.mark.after.2.setRoot p.mark.result) (top t) moved := by
  have sound := sound_ofTree t
  have moves := moves_of_traced traced node before found
  have later := traced.lawful.sound_after sound
  have rows : p.mark.after.2.rows <+: (p.mark.after.2.setRoot p.mark.result).rows :=
    List.prefix_refl _
  have nodes := map_node_preorder traced node
  have root : moved (top t) = p.mark.result := by
    rw [← node]
    exact found p.mark p.mark_mem_preorder
  have preorder : (p.mark.after.2.setRoot p.mark.result).preorder (moved (top t)) =
      ((ofTree t).preorder (top t)).map moved := by
    rw [root, later.preorder_of_rows rows traced.lawful.settled.inside,
      traced.preorder_after sound, ← nodes, List.map_map]
    exact List.map_congr_left fun v member => (found v member).symm
  refine ⟨preorder, ?_, ?_, ?_, fun id => new_iff traced node before found,
    size_eq_of_traced traced node before found, ?_, ?_, ?_⟩
  · intro x member
    obtain ⟨v, visited, rfl⟩ := exists_visit traced node member
    exact moved_eq_self_iff sound traced found visited
  · intro x member
    rw [preorder, List.mem_map]
    constructor
    · rintro ⟨y, other, rfl⟩
      have old := mem_preorder_ofTree.mp member
      obtain same | fresh := moves.fresh y (mem_preorder_ofTree.mp other)
      · rw [same, same]
      · omega
    · exact fun same => ⟨x, member, same⟩
  · intro x member composite
    obtain ⟨v, visited, rfl⟩ := exists_visit traced node member
    exact kind_moved traced found visited composite
  · intro id present
    exact (get_eq_of_rows moves.rows (contains_iff.mp present)).symm
  · intro p c named rebuilt kept
    have old := Nat.lt_trans (sound.older p c named) (index_lt_size named)
    exact moves.parent_of_kept sound later old (fun _ _ => eq_of_mem_children) named rebuilt kept
  · intro id present other
    exact moves.parent_of_not_kept sound later (contains_iff.mp present) other

end Shared

end Rewriter

end LuaTree
