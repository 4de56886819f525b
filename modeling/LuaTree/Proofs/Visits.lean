import LuaTree.Rewrite.Passes
import LuaTree.Proofs.Descents

/-!
# The visits of a rewriter

A rewriter that looks only at leaves walks over all other nodes. What it does to
a tree is a tree of visits, one for each node (`exists_traced`). Every visit
obeys a law that speaks of the node and its children alone; facts about whole
runs follow by induction on the tree.
-/

namespace LuaTree

variable {σ α β : Type}

namespace Kind

/-- The nodes that a rewriter of leaves may replace. -/
def isLeaf : Kind α → Bool
  | identifier .. | literal .. | varArg | breaking | continuing => true
  | _ => false

@[simp] theorem isLeaf_map (f : α → β) (k : Kind α) : (k.map f).isLeaf = k.isLeaf := by
  cases k <;> rfl

theorem children_of_isLeaf {k : Kind α} (leaf : k.isLeaf = true) : k.children = [] := by
  cases k <;> simp_all [isLeaf, children]

end Kind

/-- The leaves below a node, in order. -/
def Arena.leaves (a : Arena) (id : NodeId) : List NodeId :=
  (a.preorder id).filter fun x => (a.kind x).isLeaf

/-- What a visit hands on to the next: the state as it is, the arena as it was or with more in
it. -/
def Handed (start stop : σ × Arena) : Prop :=
  start.1 = stop.1 ∧ start.2.Grown stop.2

theorem Handed.trans {start mid stop : σ × Arena} (first : Handed start mid)
    (second : Handed mid stop) : Handed start stop :=
  ⟨first.1.trans second.1, first.2.trans second.2⟩

namespace Threads

variable {start mid stop : σ × Arena} {vs ws : List (Visit σ)}

theorem finish (threads : Threads Handed start vs mid) (handed : Handed mid stop) :
    Threads Handed start vs stop := by
  induction threads with
  | nil passed => exact .nil (passed.trans handed)
  | cons passed rest ih => exact .cons passed (ih handed)

theorem append (first : Threads Handed start vs mid) (second : Threads Handed mid ws stop) :
    Threads Handed start (vs ++ ws) stop := by
  induction first with
  | nil passed =>
    cases second with
    | nil last => exact .nil (passed.trans last)
    | cons next rest => exact .cons (passed.trans next) rest
  | cons passed rest ih => exact .cons passed (ih second)

end Threads

namespace Rewriter

/-- A rewriter that overrides only what becomes of leaves: each leaf of the arena, met at any later
time, gives a visit that satisfies `P`. -/
structure Leafwise (r : Rewriter σ) (a : Arena) (P : Visit σ → Prop) : Prop where
  list : r.list = Rewriting.walkList
  node : ∀ d id k, k.isLeaf = false → r.node d id k = d.walk id k
  leaf : ∀ id start, a.contains id → (a.kind id).isLeaf → a.Grown start.2 →
    ∃ result stop, (r.rewrite id).Gives start result stop ∧ P ⟨id, start, result, stop⟩

/-- What a visit of a node does, given those of its children. -/
structure Lawful (r : Rewriter σ) (a : Arena) (P : Visit σ → Prop) (v : Visit σ)
    (k : Kind (Visit σ)) : Prop where
  inside : v.node.index < a.size
  kind : a.kind v.node = k.map Visit.node
  grown : a.Grown v.before.2
  gives : (r.rewrite v.node).Gives v.before v.result v.after
  settled : v.Settled
  step : if k.isLeaf then P v else ∃ s b, Threads Eq v.before k.children (s, b) ∧
    b.Grown v.after.2 ∧ if k.children.any Visit.changed then
      v.result = b.next ∧ v.after = (s, b.push (a.origin v.node) (k.map Visit.result))
    else v.result = v.node ∧ v.after = (s, b)

/-- A tree of visits, each as it should be. -/
inductive Traced (r : Rewriter σ) (a : Arena) (P : Visit σ → Prop) : Tree (Visit σ) → Prop where
  | node {v : Visit σ} {k : Kind (Tree (Visit σ))} (children : ∀ p ∈ k.children, Traced r a P p)
      (lawful : r.Lawful a P v (k.map Tree.mark)) : Traced r a P (.node v k)

variable {r : Rewriter σ} {a : Arena} {P : Visit σ → Prop}

/-- Results that are settled one after another differ. -/
theorem nodup_results {vs : List (Visit σ)} {start stop : σ × Arena}
    (threads : Threads Eq start vs stop) (settled : ∀ v ∈ vs, v.Settled)
    (old : ∀ v ∈ vs, v.node.index < start.2.size) (distinct : (vs.map Visit.node).Nodup) :
    (vs.map Visit.result).Nodup ∧ ∀ v ∈ vs, v.result = v.node ∨ start.2.size ≤ v.result.index := by
  induction threads with
  | nil => exact ⟨List.nodup_nil, by simp⟩
  | @cons start stop v vs passed rest ih =>
    subst passed
    obtain ⟨first, others⟩ := List.forall_mem_cons.mp settled
    obtain ⟨oldFirst, oldOthers⟩ := List.forall_mem_cons.mp old
    rw [List.map_cons, List.nodup_cons] at distinct ⊢
    have more := first.grown.size_le
    have inside := first.inside
    obtain ⟨nodup, placed⟩ := ih others
      (fun w member => Nat.lt_of_lt_of_le (oldOthers w member) more) distinct.2
    refine ⟨⟨?_, nodup⟩, ?_⟩
    · intro again
      obtain ⟨w, member, same⟩ := List.mem_map.mp again
      obtain kept | fresh := placed w member
      · obtain own | added := first.fresh
        · refine distinct.1 (List.mem_map.mpr ⟨w, member, ?_⟩)
          rw [← kept, same, own]
        · have small := oldOthers w member
          rw [← kept, same] at small
          omega
      · rw [same] at fresh
        omega
    · refine List.forall_mem_cons.mpr ⟨first.fresh, fun w member => ?_⟩
      exact (placed w member).imp_right fun fresh => Nat.le_trans more fresh

/-- How a rewriter goes on below a node. -/
def descent (r : Rewriter σ) (id : NodeId) : Descent σ :=
  let visit (child : NodeId) : Rewriting σ NodeId :=
    if child.index < id.index then r.rewrite child else return child
  ⟨visit, r.list visit⟩

theorem node_descent (r : Rewriter σ) {id c : NodeId} (older : c.index < id.index) :
    (r.descent id).node c = r.rewrite c :=
  if_pos older

theorem gives_rewrite {id : NodeId} {s : σ} {b : Arena} {y : NodeId} {stop : σ × Arena}
    (gives : (r.node (r.descent id) id (b.kind id)).Gives (s, b) y stop) :
    (r.rewrite id).Gives (s, b) y stop := by
  rw [rewrite]
  exact (Rewriting.gives_getThe s b).bind gives

section Composite

variable {id : NodeId} {q : Kind (Visit σ)} {start : σ × Arena} {s : σ} {b : Arena}
  (leafwise : r.Leafwise a P) (sound : a.Sound) (inside : id.index < a.size)
  (kind : a.kind id = q.map Visit.node) (grown : a.Grown start.2)
  (settled : ∀ v ∈ q.children, v.Settled) (threads : Threads Eq start q.children (s, b))

include sound kind in
theorem older_of_mem : ∀ v ∈ q.children, v.node.index < id.index := by
  intro v member
  refine sound.older id v.node ?_
  rw [Arena.children, kind, Kind.children_map]
  exact List.mem_map_of_mem member

include sound inside kind grown settled threads in
/-- The children of the new node differ and are there. -/
theorem results_of_threads : (q.map Visit.result).children.Nodup ∧
    ∀ c ∈ (q.map Visit.result).children, c.index < b.size := by
  have old : ∀ v ∈ q.children, v.node.index < start.2.size := by
    intro v member
    have smaller := older_of_mem sound kind v member
    have size := grown.size_le
    omega
  have nodes : (q.children.map Visit.node).Nodup := by
    have distinct := sound.distinct id
    rwa [Arena.children, kind, Kind.children_map] at distinct
  have after := (threads.grown settled).2
  rw [Kind.children_map, List.forall_mem_map]
  refine ⟨(nodup_results threads settled old nodes).1, ?_⟩
  intro v member
  exact Nat.lt_of_lt_of_le (settled v member).inside (after v member).size_le

include leafwise sound inside kind grown settled threads in
/-- A composite is visited by its children and rebuilt if one of them was replaced. -/
theorem Leafwise.gives_composite (composite : q.isLeaf = false)
    (visits : ∀ v ∈ q.children, (r.rewrite v.node).Gives v.before v.result v.after) :
    (r.rewrite id).Gives start (if q.children.any Visit.changed then b.next else id)
      (s, if q.children.any Visit.changed then b.push (a.origin id) (q.map Visit.result)
        else b) := by
  have visited : ∀ v ∈ q.children,
      ((r.descent id).node v.node).Gives v.before v.result v.after := by
    intro v member
    rw [r.node_descent (older_of_mem sound kind v member)]
    exact visits v member
  have list : (r.descent id).list = Rewriting.walkList (r.descent id).node := by
    rw [descent, leafwise.list]
  obtain ⟨distinct, present⟩ := results_of_threads sound inside kind grown settled threads
  have more := (threads.grown settled).1
  have origin : b.origin id = a.origin id :=
    (Arena.get_eq_of_rows (grown.trans more).rows inside).1
  have mapped := Descent.gives_mapM visited threads
  rw [← Kind.children_map, ← Kind.children_map] at mapped
  refine gives_rewrite ?_
  rw [(Arena.get_eq_of_rows grown.rows inside).2,
    leafwise.node _ _ _ (by rw [kind, Kind.isLeaf_map, composite]), kind]
  have unchanged : (q.map Visit.result).children = (q.map Visit.node).children ↔
      q.children.any Visit.changed = false := by
    rw [Kind.children_map, Kind.children_map, Descent.map_result_eq_iff]
  cases changed : q.children.any Visit.changed with
  | false => exact Descent.gives_walk_same list id mapped (unchanged.mpr changed)
  | true =>
    have other : (q.map Visit.result).children ≠ (q.map Visit.node).children := by
      rw [ne_eq, unchanged, changed]
      exact Bool.noConfusion
    have frame : (q.map Visit.result).frame = (q.map Visit.node).frame :=
      (Kind.frame_map _ q).trans (Kind.frame_map _ q).symm
    rw [← origin]
    exact Descent.gives_walk_rebuilt list id mapped other distinct present rfl frame

include leafwise sound inside kind grown settled threads in
theorem Leafwise.lawful_composite (composite : q.isLeaf = false)
    (visits : ∀ v ∈ q.children, (r.rewrite v.node).Gives v.before v.result v.after) :
    ∃ v : Visit σ, v.node = id ∧ v.before = start ∧ r.Lawful a P v q := by
  have gives := leafwise.gives_composite sound inside kind grown settled threads composite visits
  obtain ⟨results, present⟩ := results_of_threads sound inside kind grown settled threads
  have more := (threads.grown settled).1
  have size := grown.size_le
  have total := more.size_le
  cases changed : q.children.any Visit.changed with
  | false =>
    rw [changed] at gives
    refine ⟨⟨id, start, id, (s, b)⟩, rfl, rfl, inside, kind, grown, gives, ?_, ?_⟩
    · exact ⟨more, Nat.lt_of_lt_of_le inside (Nat.le_trans size total), .inl rfl⟩
    · rw [composite, changed]
      exact ⟨s, b, threads, .refl, rfl, rfl⟩
  | true =>
    rw [changed] at gives
    have pushed : b.Grown (b.push (a.origin id) (q.map Visit.result)) :=
      .single (.push results present)
    refine ⟨⟨id, start, b.next, (s, _)⟩, rfl, rfl, inside, kind, grown, gives, ?_, ?_⟩
    · refine ⟨more.trans pushed, ?_, .inr total⟩
      exact Nat.lt_of_lt_of_eq (Nat.lt_succ_self b.size) (Arena.size_push b _ _).symm
    · rw [composite, changed]
      exact ⟨s, b, threads, pushed, rfl, rfl⟩

end Composite

theorem Traced.lawful {p : Tree (Visit σ)} (traced : r.Traced a P p) :
    r.Lawful a P p.mark (p.kind.map Tree.mark) := by
  cases traced with
  | node children lawful => exact lawful

theorem Traced.settled {k : Kind (Tree (Visit σ))} (children : ∀ p ∈ k.children, r.Traced a P p) :
    ∀ v ∈ (k.map Tree.mark).children, v.Settled := by
  rw [Kind.children_map, List.forall_mem_map]
  exact fun p member => (children p member).lawful.settled

/-- Handles whose trees can be visited can be visited one after another. -/
theorem exists_traced_list (ids : List NodeId)
    (each : ∀ id ∈ ids, ∀ start : σ × Arena, a.Grown start.2 →
      ∃ p, r.Traced a P p ∧ p.mark.node = id ∧ p.mark.before = start)
    (start : σ × Arena) (grown : a.Grown start.2) :
    ∃ (ps : List (Tree (Visit σ))) (stop : σ × Arena), (∀ p ∈ ps, r.Traced a P p) ∧
      ps.map (fun p => p.mark.node) = ids ∧ Threads Eq start (ps.map Tree.mark) stop := by
  induction ids generalizing start with
  | nil => exact ⟨[], start, by simp, rfl, .nil rfl⟩
  | cons id ids ih =>
    obtain ⟨first, others⟩ := List.forall_mem_cons.mp each
    obtain ⟨p, traced, node, before⟩ := first start grown
    have more := traced.lawful.settled.grown
    rw [before] at more
    obtain ⟨ps, stop, all, nodes, threads⟩ := ih others p.mark.after (grown.trans more)
    refine ⟨p :: ps, stop, List.forall_mem_cons.mpr ⟨traced, all⟩, ?_, .cons before.symm threads⟩
    rw [List.map_cons, node, nodes]

/-- A rewriter of leaves succeeds on every tree. -/
theorem Leafwise.exists_traced (leafwise : r.Leafwise a P)
    (settled : ∀ v : Visit σ, v.node.index < v.before.2.size → P v → v.Settled)
    (sound : a.Sound) {id : NodeId} (inside : id.index < a.size) (start : σ × Arena)
    (grown : a.Grown start.2) :
    ∃ p, r.Traced a P p ∧ p.mark.node = id ∧ p.mark.before = start := by
  obtain ⟨n⟩ := id
  induction n using Nat.strongRecOn generalizing start with
  | ind n ih =>
    have spare : Tree (Visit σ) := .node ⟨⟨n⟩, start, ⟨n⟩, start⟩ .breaking
    by_cases leaf : (a.kind ⟨n⟩).isLeaf
    · obtain ⟨result, stop, gives, holds⟩ :=
        leafwise.leaf ⟨n⟩ start (Arena.contains_iff.mpr inside) leaf grown
      have childless : [].map (fun p : Tree (Visit σ) => p.mark.node) = (a.kind ⟨n⟩).children :=
        (Kind.children_of_isLeaf leaf).symm
      obtain ⟨q, nodes, children⟩ := Kind.exists_map_eq spare childless
      refine ⟨.node ⟨⟨n⟩, start, result, stop⟩ q, .node (by simp [children]) ?_, rfl, rfl⟩
      have present := Nat.lt_of_lt_of_le inside grown.size_le
      refine ⟨inside, ?_, grown, gives, settled _ present holds, ?_⟩
      · rw [Kind.map_map]
        exact nodes.symm
      · rw [← nodes, Kind.isLeaf_map] at leaf
        rwa [Kind.isLeaf_map, if_pos leaf]
    · have smaller : ∀ c ∈ a.children ⟨n⟩, c.index < n := sound.older ⟨n⟩
      obtain ⟨ps, stop, all, nodes, threads⟩ := exists_traced_list (a.children ⟨n⟩)
        (fun c member start grown => ih c.index (smaller c member) start grown
          (Nat.lt_trans (smaller c member) inside)) start grown
      obtain ⟨q, kind, children⟩ := Kind.exists_map_eq spare nodes
      rw [← children, ← Kind.children_map] at threads
      rw [← kind, Kind.isLeaf_map, Bool.not_eq_true] at leaf
      have named : a.kind ⟨n⟩ = (q.map Tree.mark).map Visit.node := by
        rw [Kind.map_map]
        exact kind.symm
      have traced : ∀ p ∈ q.children, r.Traced a P p := children ▸ all
      have visits : ∀ v ∈ (q.map Tree.mark).children,
          (r.rewrite v.node).Gives v.before v.result v.after := by
        rw [Kind.children_map, List.forall_mem_map]
        exact fun p member => (traced p member).lawful.gives
      obtain ⟨v, node, before, lawful⟩ := leafwise.lawful_composite sound inside named grown
        (Traced.settled traced) threads (by rwa [Kind.isLeaf_map]) visits
      exact ⟨.node v q, .node traced lawful, node, before⟩

theorem Lawful.sound_after {v : Visit σ} {k : Kind (Visit σ)} (lawful : r.Lawful a P v k)
    (sound : a.Sound) : v.after.2.Sound :=
  (lawful.grown.trans lawful.settled.grown).sound sound

/-- A node that is added later is not the old one. -/
theorem Lawful.result_ne {v : Visit σ} {k : Kind (Visit σ)} {b : Arena}
    (lawful : r.Lawful a P v k) (grown : a.Grown b) (result : v.result = b.next) :
    v.result ≠ v.node := by
  intro same
  have old := Nat.lt_of_lt_of_le lawful.inside grown.size_le
  rw [← same, result] at old
  exact Nat.lt_irrefl _ old

/-- Rebuilt or not, what takes the place of a composite has its origin and what took the places of
its children. -/
theorem Lawful.composite {v : Visit σ} {k : Kind (Visit σ)} (lawful : r.Lawful a P v k)
    (notLeaf : k.isLeaf = false) (settled : ∀ c ∈ k.children, c.Settled) :
    v.after.2.kind v.result = k.map Visit.result ∧ v.after.2.origin v.result = a.origin v.node ∧
      v.changed = k.children.any Visit.changed ∧ ∀ c ∈ k.children, c.after.2.Grown v.after.2 := by
  have step := lawful.step
  rw [notLeaf] at step
  obtain ⟨s, b, threads, more, step⟩ := step
  obtain ⟨grown, after⟩ := threads.grown settled
  have kept : ∀ c ∈ k.children, c.after.2.Grown v.after.2 :=
    fun c member => (after c member).trans more
  have later := lawful.grown.trans grown
  cases changed : k.children.any Visit.changed with
  | false =>
    rw [changed] at step
    obtain ⟨result, stop⟩ := step
    obtain ⟨origin, kind⟩ := Arena.get_eq_of_rows later.rows lawful.inside
    have same : k.map Visit.node = k.map Visit.result := by
      refine Kind.map_congr k fun c member => ?_
      exact (Visit.unchanged_iff.mp (by simpa using List.any_eq_false.mp changed c member)).symm
    refine ⟨?_, ?_, Visit.unchanged_iff.mpr result, kept⟩
    · rw [stop, result, kind, lawful.kind, same]
    · rw [stop, result, origin]
  | true =>
    rw [changed] at step
    obtain ⟨result, stop⟩ := step
    have different := lawful.result_ne later result
    refine ⟨?_, ?_, Visit.changed_iff.mpr different, kept⟩
    · rw [stop, result, Arena.kind_push, if_pos rfl]
    · rw [stop, result, Arena.origin_push, if_pos rfl]

/-- What takes the place of a node has what took the places of its children, if what takes the
place of a leaf is childless. -/
theorem Lawful.children_result {v : Visit σ} {k : Kind (Visit σ)} (lawful : r.Lawful a P v k)
    (settled : ∀ c ∈ k.children, c.Settled)
    (childless : k.isLeaf = true → v.result ≠ v.node → v.after.2.children v.result = []) :
    v.after.2.children v.result = k.children.map Visit.result := by
  by_cases leaf : k.isLeaf
  · rw [Kind.children_of_isLeaf leaf, List.map_nil]
    by_cases same : v.result = v.node
    · have later := lawful.grown.trans lawful.settled.grown
      have kind := (Arena.get_eq_of_rows later.rows lawful.inside).2
      rw [same, Arena.children, kind, lawful.kind, Kind.children_map, Kind.children_of_isLeaf leaf,
        List.map_nil]
    · exact childless leaf same
  · have kind := (lawful.composite (by simpa using leaf) settled).1
    rw [Arena.children, kind, Kind.children_map]

/-- There is one visit for each node of the tree. -/
theorem Traced.handles {p : Tree (Visit σ)} (sound : a.Sound) (traced : r.Traced a P p) :
    p.mapMark Visit.node = a.handles p.mark.node := by
  induction traced with
  | @node v k children lawful ih =>
    rw [Tree.mapMark_node, sound.handles_eq]
    change _ = Tree.node v.node ((a.kind v.node).map a.handles)
    rw [lawful.kind, Kind.map_map, Kind.map_map]
    exact congrArg (Tree.node v.node) (Kind.map_congr k fun p member => ih p member)

theorem Traced.preorder {p : Tree (Visit σ)} (sound : a.Sound) (traced : r.Traced a P p) :
    p.preorder.map Visit.node = a.preorder p.mark.node := by
  rw [← Tree.preorder_mapMark, traced.handles sound]
  rfl

theorem Lawful.composite_of_traced {v : Visit σ} {k : Kind (Tree (Visit σ))}
    (lawful : r.Lawful a P v (k.map Tree.mark)) (children : ∀ p ∈ k.children, r.Traced a P p)
    (notLeaf : ¬ k.isLeaf = true) :
    v.after.2.kind v.result = (k.map Tree.mark).map Visit.result ∧
      v.after.2.origin v.result = a.origin v.node ∧
      v.changed = (k.map Tree.mark).children.any Visit.changed ∧
      ∀ c ∈ (k.map Tree.mark).children, c.after.2.Grown v.after.2 := by
  rw [Bool.not_eq_true] at notLeaf
  exact lawful.composite (by rwa [Kind.isLeaf_map]) (Traced.settled children)

theorem Lawful.after_children {v : Visit σ} {k : Kind (Tree (Visit σ))}
    (lawful : r.Lawful a P v (k.map Tree.mark)) (children : ∀ p ∈ k.children, r.Traced a P p)
    {p : Tree (Visit σ)} (member : p ∈ k.children) : p.mark.after.2.Grown v.after.2 := by
  have among : p.mark ∈ (k.map Tree.mark).children := by
    rw [Kind.children_map]
    exact List.mem_map_of_mem member
  have notLeaf : ¬ k.isLeaf = true := by
    intro leaf
    rw [Kind.children_of_isLeaf leaf] at member
    exact List.not_mem_nil member
  exact (lawful.composite_of_traced children notLeaf).2.2.2 p.mark among

/-- Below each visit are the visits of the tree below its node. -/
theorem Traced.exists_of_mem {p : Tree (Visit σ)} (traced : r.Traced a P p) {v : Visit σ}
    (member : v ∈ p.preorder) :
    ∃ q : Tree (Visit σ), q.mark = v ∧ r.Traced a P q ∧ q.preorder ⊆ p.preorder ∧
      v.after.2.Grown p.mark.after.2 := by
  induction traced with
  | @node w k children lawful ih =>
    rw [Tree.preorder_node] at member ⊢
    obtain rfl | below := List.mem_cons.mp member
    · refine ⟨.node v k, rfl, .node children lawful, ?_, .refl⟩
      rw [Tree.preorder_node]
      exact List.Subset.refl _
    · obtain ⟨_, among, below⟩ := List.mem_flatten.mp below
      obtain ⟨p, child, rfl⟩ := List.mem_map.mp among
      obtain ⟨q, mark, traced, subset, grown⟩ := ih p child below
      refine ⟨q, mark, traced, ?_, grown.trans (lawful.after_children children child)⟩
      intro x inside
      exact List.mem_cons_of_mem _ (List.mem_flatten.mpr ⟨_, among, subset inside⟩)

/-- The visits of leaves. -/
def leafVisits (a : Arena) (p : Tree (Visit σ)) : List (Visit σ) :=
  p.preorder.filter fun v => (a.kind v.node).isLeaf

theorem map_node_leafVisits {p : Tree (Visit σ)} (sound : a.Sound) (traced : r.Traced a P p) :
    (leafVisits a p).map Visit.node = a.leaves p.mark.node := by
  rw [leafVisits, Arena.leaves, ← traced.preorder sound, List.filter_map]
  rfl

theorem leafVisits_node {v : Visit σ} {k : Kind (Tree (Visit σ))}
    (lawful : r.Lawful a P v (k.map Tree.mark)) :
    leafVisits a (.node v k) = if k.isLeaf then [v] else k.children.flatMap (leafVisits a) := by
  have kind : (a.kind v.node).isLeaf = k.isLeaf := by
    rw [lawful.kind, Kind.isLeaf_map, Kind.isLeaf_map]
  rw [leafVisits, Tree.preorder_node]
  by_cases leaf : k.isLeaf
  · rw [if_pos leaf, Kind.children_of_isLeaf leaf, List.map_nil, List.flatten_nil,
      List.filter_cons_of_pos (by rw [kind, leaf]), List.filter_nil]
  · rw [if_neg leaf, List.filter_cons_of_neg (by rw [kind]; exact leaf), List.filter_flatten,
      List.map_map]
    rfl

theorem threads_flatMap {f : Tree (Visit σ) → List (Visit σ)} {ps : List (Tree (Visit σ))}
    {start stop : σ × Arena} (threads : Threads Eq start (ps.map Tree.mark) stop)
    (each : ∀ p ∈ ps, Threads Handed p.mark.before (f p) p.mark.after) :
    Threads Handed start (ps.flatMap f) stop := by
  induction ps generalizing start with
  | nil =>
    cases threads with
    | nil same => exact same ▸ .nil ⟨rfl, .refl⟩
  | cons p ps ih =>
    obtain ⟨first, others⟩ := List.forall_mem_cons.mp each
    cases threads with
    | cons passed rest =>
      rw [passed, List.flatMap_cons]
      exact first.append (ih rest others)

/-- Between two visits of leaves the state stays as it is. -/
theorem threads_leafVisits {p : Tree (Visit σ)} (traced : r.Traced a P p) :
    Threads Handed p.mark.before (leafVisits a p) p.mark.after := by
  induction traced with
  | @node v k children lawful ih =>
    rw [leafVisits_node lawful]
    by_cases leaf : k.isLeaf
    · rw [if_pos leaf]
      exact .cons ⟨rfl, .refl⟩ (.nil ⟨rfl, .refl⟩)
    · rw [if_neg leaf]
      have step := lawful.step
      rw [Kind.isLeaf_map, if_neg leaf, Kind.children_map] at step
      obtain ⟨s, b, threads, more, step⟩ := step
      refine (threads_flatMap threads ih).finish ⟨?_, more⟩
      split at step
      · exact (congrArg Prod.fst step.2).symm
      · exact (congrArg Prod.fst step.2).symm

/-- A run comes to the leaves below a node in order, to each once, and hands its state from one to
the next. -/
structure LeafRun (r : Rewriter σ) (a : Arena) (root : NodeId) (start : σ × Arena)
    (visits : List (Visit σ)) (stop : σ × Arena) : Prop where
  nodes : visits.map Visit.node = a.leaves root
  gives : ∀ v ∈ visits, (r.rewrite v.node).Gives v.before v.result v.after
  threads : Threads Handed start visits stop

theorem gives_rewriteRoot {root y : NodeId} {start : σ × Arena} {s : σ} {b : Arena}
    (gives : (r.rewrite root).Gives start y (s, b)) :
    (r.rewriteRoot root).Gives start y (s, b.setRoot y) :=
  gives.bind ((Rewriting.gives_modifyThe (·.setRoot y) s b).bind (Rewriting.gives_pure _ _))

theorem Traced.leafRun {p : Tree (Visit σ)} (sound : a.Sound) (traced : r.Traced a P p) :
    r.LeafRun a p.mark.node p.mark.before (leafVisits a p)
      (p.mark.after.1, p.mark.after.2.setRoot p.mark.result) := by
  refine ⟨map_node_leafVisits sound traced, fun v member => ?_, ?_⟩
  · obtain ⟨q, rfl, inner, -⟩ := traced.exists_of_mem (List.mem_of_mem_filter member)
    exact inner.lawful.gives
  · exact (threads_leafVisits traced).finish ⟨rfl, .single .setRoot⟩

/-- Values for the members of a list, found by keys that differ. -/
theorem exists_lookup {α β γ : Type} {xs : List α} {key : α → β} (distinct : (xs.map key).Nodup)
    (value : α → γ) (spare : γ) : ∃ f : β → γ, ∀ x ∈ xs, f (key x) = value x := by
  classical
  refine ⟨fun k => if found : ∃ x ∈ xs, key x = k then value found.choose else spare, ?_⟩
  intro x member
  have found : ∃ y ∈ xs, key y = key x := ⟨x, member, rfl⟩
  have same : found.choose = x :=
    List.inj_on_of_nodup_map distinct found.choose_spec.1 member found.choose_spec.2
  simp only [dif_pos found, same]

theorem Leafwise.mono {Q : Visit σ → Prop} (leafwise : r.Leafwise a P)
    (weaken : ∀ v : Visit σ, v.node.index < v.before.2.size → P v → Q v) : r.Leafwise a Q := by
  refine ⟨leafwise.list, leafwise.node, fun id start present leaf grown => ?_⟩
  obtain ⟨result, stop, gives, holds⟩ := leafwise.leaf id start present leaf grown
  refine ⟨result, stop, gives, weaken _ ?_ holds⟩
  exact Nat.lt_of_lt_of_le (Arena.contains_iff.mp present) grown.size_le

theorem gives_walk_leaf (d : Descent σ) (id : NodeId) {k : Kind NodeId} (leaf : k.isLeaf = true)
    (start : σ × Arena) : (d.walk id k).Gives start id start := by
  have traversed : ((k.traverse d.one d.many).run false).Gives start (k, false) start := by
    cases k <;> simp only [Kind.isLeaf, Bool.false_eq_true] at leaf <;> rfl
  exact traversed.bind (Rewriting.gives_pure _ _)

/-- Renaming looks at identifiers only. -/
theorem leafwise_rename (old new : String) (a : Arena) :
    (rename old new).Leafwise a Visit.Minimal := by
  refine ⟨rfl, fun d id k composite => ?_, fun id start present leaf grown => ?_⟩
  · cases k <;> simp only [Kind.isLeaf, Bool.true_eq_false] at composite <;> rfl
  · obtain ⟨s, b⟩ := start
    have kind := (Arena.get_eq_of_rows grown.rows (Arena.contains_iff.mp present)).2
    by_cases named : a.kind id = .identifier old
    · have rebuilt : (Edit.rebuild id (.identifier new)).run.run b =
          (.ok b.next, b.push (b.origin id) (.identifier new)) := by
        rw [Edit.run_rebuild]
        exact Edit.run_alloc (by simp [Kind.children]) (by simp [Kind.children]) _
      refine ⟨b.next, (s, b.push (b.origin id) (.identifier new)), gives_rewrite ?_,
        .inr ⟨_, _, rfl, rfl, rfl⟩⟩
      rw [kind, named]
      simp only [rename, if_true]
      exact Rewriting.gives_lift rebuilt
    · refine ⟨id, (s, b), gives_rewrite ?_, .inl ⟨rfl, rfl⟩⟩
      have walks (d : Descent Unit) :
          (rename old new).node d id (a.kind id) = d.walk id (a.kind id) := by
        generalize a.kind id = k at named
        cases k
        case identifier name =>
          have different : name ≠ old := fun same => named (same ▸ rfl)
          simp only [rename, if_neg different]
        all_goals rfl
      rw [kind, walks]
      exact gives_walk_leaf _ id leaf _

end Rewriter

end LuaTree
