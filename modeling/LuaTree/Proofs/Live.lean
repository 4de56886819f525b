import LuaTree.Proofs.Parented
import LuaTree.Proofs.Sharing

/-!
# Live trees

A rewriter leaves old nodes behind that still name nodes of the new tree. A visit
takes away only what is below the node it visits (`Traced.parent_eq`), and every
rebuilt node adopts all that it names, so that the tree below the root is owned
again after each run of a rewriter of leaves, however many there were
(`rewritten_live`).
-/

namespace LuaTree

variable {σ : Type}

namespace Visit

/-- The visit gives the node itself or a childless node that it added, and all nodes that were there
keep their parents. -/
structure Modest (v : Visit σ) : Prop where
  grown : v.before.2.Grown v.after.2
  result : v.result = v.node ∨ v.before.2.size ≤ v.result.index ∧
    v.after.2.contains v.result ∧ v.after.2.children v.result = []
  parents : ∀ id, v.before.2.contains id → v.after.2.parent id = v.before.2.parent id

variable {v : Visit σ}

theorem Modest.settled (present : v.node.index < v.before.2.size) (modest : v.Modest) :
    v.Settled := by
  obtain result | ⟨fresh, inside, -⟩ := modest.result
  · refine ⟨modest.grown, ?_, .inl result⟩
    rw [result]
    exact Nat.lt_of_lt_of_le present modest.grown.size_le
  · exact ⟨modest.grown, Arena.contains_iff.mp inside, .inr fresh⟩

/-- To add one childless node is modest. -/
theorem Minimal.modest (present : v.node.index < v.before.2.size) (minimal : v.Minimal) :
    v.Modest := by
  have settled := minimal.settled present
  refine ⟨settled.grown, ?_, ?_⟩
  · obtain ⟨result, -⟩ | ⟨m, k, childless, result, after⟩ := minimal
    · exact .inl result
    · refine .inr ⟨result ▸ Nat.le_refl _, Arena.contains_iff.mpr settled.inside, ?_⟩
      rw [result, after, Arena.children_push, if_pos rfl, childless]
  · intro id _
    obtain ⟨-, after⟩ | ⟨m, k, childless, -, after⟩ := minimal
    · rw [after]
    · have outside : id ∉ k.children := by
        rw [childless]
        exact List.not_mem_nil
      rw [after, Arena.parent_push _ _ _ (by simp [childless]), if_neg outside]

end Visit

namespace Threads

variable {start stop : σ × Arena} {vs : List (Visit σ)}

theorem size_le_before (threads : Threads Eq start vs stop) (settled : ∀ v ∈ vs, v.Settled) :
    ∀ v ∈ vs, start.2.size ≤ v.before.2.size := by
  induction threads with
  | nil => simp
  | cons passed rest ih =>
    subst passed
    obtain ⟨first, others⟩ := List.forall_mem_cons.mp settled
    refine List.forall_mem_cons.mpr ⟨Nat.le_refl _, fun w member => ?_⟩
    exact Nat.le_trans first.grown.size_le (ih others w member)

/-- A node that keeps its parent in each visit keeps it in all of them. -/
theorem parent_eq {z : NodeId} (threads : Threads Eq start vs stop)
    (settled : ∀ v ∈ vs, v.Settled) (inside : z.index < start.2.size)
    (each : ∀ v ∈ vs, z.index < v.before.2.size → v.after.2.parent z = v.before.2.parent z) :
    stop.2.parent z = start.2.parent z := by
  induction threads with
  | nil same => rw [same]
  | cons passed rest ih =>
    subst passed
    obtain ⟨first, others⟩ := List.forall_mem_cons.mp settled
    obtain ⟨kept, later⟩ := List.forall_mem_cons.mp each
    rw [ih others (Nat.lt_of_lt_of_le inside first.grown.size_le) later, kept inside]

end Threads

namespace Rewriter

variable {r : Rewriter σ} {a : Arena} {p : Tree (Visit σ)}

theorem Lawful.modest {v : Visit σ} {k : Kind (Visit σ)} (lawful : r.Lawful a Visit.Modest v k)
    (leaf : k.isLeaf = true) : v.Modest := by
  have step := lawful.step
  rwa [if_pos leaf] at step

theorem Lawful.children_modest {v : Visit σ} {k : Kind (Tree (Visit σ))}
    (lawful : r.Lawful a Visit.Modest v (k.map Tree.mark))
    (children : ∀ p ∈ k.children, r.Traced a Visit.Modest p) :
    v.after.2.children v.result = k.children.map fun p => p.mark.result := by
  rw [lawful.children_result (Traced.settled children), Kind.children_map, List.map_map]
  · rfl
  · intro leaf different
    exact ((lawful.modest leaf).result.resolve_left different).2.2

theorem Lawful.child_mem {v : Visit σ} {k : Kind (Tree (Visit σ))} {P : Visit σ → Prop}
    (lawful : r.Lawful a P v (k.map Tree.mark)) (child : p ∈ k.children) :
    p.mark.node ∈ a.children v.node := by
  rw [Arena.children, lawful.kind, Kind.children_map, Kind.children_map, List.map_map]
  exact List.mem_map_of_mem child

section Composite

variable {v : Visit σ} {k : Kind (Tree (Visit σ))} (sound : a.Sound)
  (lawful : r.Lawful a Visit.Modest v (k.map Tree.mark))
  (children : ∀ p ∈ k.children, r.Traced a Visit.Modest p) (composite : ¬ k.isLeaf = true)

include sound lawful children composite

/-- The visits of the children of a composite; a node that is added in the end adopts their
results. -/
theorem Lawful.exists_threads :
    ∃ s b, Threads Eq v.before (k.children.map Tree.mark) (s, b) ∧ b.Grown v.after.2 ∧
      (v.result = b.next ∧ (∀ z, v.after.2.parent z =
          if z ∈ k.children.map (fun p => p.mark.result) then some v.result else b.parent z) ∨
        v.result = v.node ∧ v.after.2 = b ∧ ∀ p ∈ k.children, p.mark.result = p.mark.node) := by
  have step := lawful.step
  rw [Kind.isLeaf_map, if_neg composite] at step
  obtain ⟨s, b, threads, more, step⟩ := step
  have inside := (results_of_threads sound lawful.inside lawful.kind lawful.grown
    (Traced.settled children) threads).2
  rw [Kind.children_map] at threads step
  refine ⟨s, b, threads, more, ?_⟩
  split at step
  · next changed =>
    obtain ⟨result, after⟩ := step
    refine .inl ⟨result, fun z => ?_⟩
    rw [result, after, Arena.parent_push _ _ _ inside, Kind.children_map, Kind.children_map,
      List.map_map]
    rfl
  · next unchanged =>
    refine .inr ⟨step.1, congrArg Prod.snd step.2, fun p member => ?_⟩
    rw [List.any_map, Bool.not_eq_true, List.any_eq_false] at unchanged
    exact Visit.unchanged_iff.mp (by simpa using unchanged p member)

end Composite

variable (sound : a.Sound)

include sound

/-- A visit takes away only what is below its node. -/
theorem Traced.parent_eq (traced : r.Traced a Visit.Modest p) {z : NodeId}
    (inside : z.index < p.mark.before.2.size) (outside : z ∉ a.descendants p.mark.node) :
    p.mark.after.2.parent z = p.mark.before.2.parent z := by
  induction traced with
  | @node v k children lawful ih =>
    change z.index < v.before.2.size at inside
    change v.after.2.parent z = v.before.2.parent z
    by_cases leaf : k.isLeaf
    · exact (lawful.modest (by rwa [Kind.isLeaf_map])).parents z (Arena.contains_iff.mpr inside)
    obtain ⟨s, b, threads, -, step⟩ := lawful.exists_threads sound children leaf
    have settled := Traced.settled children
    rw [Kind.children_map] at settled
    have kept : b.parent z = v.before.2.parent z := by
      refine threads.parent_eq settled inside (List.forall_mem_map.mpr fun p child here => ?_)
      refine ih p child here fun below => outside ?_
      obtain ⟨c, next, below⟩ := sound.mem_descendants_iff.mp below
      exact sound.mem_descendants_iff.mpr ⟨p.mark.node, lawful.child_mem child,
        sound.mem_preorder_iff.mpr (.inr ⟨c, next, below⟩)⟩
    obtain ⟨result, parent⟩ | ⟨-, after, -⟩ := step
    · have free : z ∉ k.children.map (fun p => p.mark.result) := by
        intro among
        obtain ⟨p, child, rfl⟩ := List.mem_map.mp among
        have size := threads.size_le_before settled p.mark (List.mem_map_of_mem child)
        obtain same | fresh := (children p child).lawful.settled.fresh
        · refine outside (sound.mem_descendants_iff.mpr ⟨_, lawful.child_mem child, ?_⟩)
          rw [same]
          exact sound.self_mem_preorder _
        · omega
      rw [parent, if_neg free, kept]
    · rw [after, kept]

/-- What is below the result of a visit was below its node or is new. -/
theorem Traced.mem_preorder (traced : r.Traced a Visit.Modest p) {x : NodeId}
    (member : x ∈ p.mark.after.2.preorder p.mark.result) :
    x ∈ a.preorder p.mark.node ∨ p.mark.before.2.size ≤ x.index := by
  induction traced with
  | @node v k children lawful ih =>
    change x ∈ v.after.2.preorder v.result at member
    change x ∈ a.preorder v.node ∨ v.before.2.size ≤ x.index
    obtain rfl | ⟨c, named, below⟩ := (lawful.sound_after sound).mem_preorder_iff.mp member
    · refine lawful.settled.fresh.imp_left fun same => ?_
      rw [same]
      exact sound.self_mem_preorder _
    · rw [lawful.children_modest children, List.mem_map] at named
      obtain ⟨q, child, rfl⟩ := named
      have before := (children q child).lawful
      rw [(before.sound_after sound).preorder_of_rows (lawful.after_children children child).rows
        before.settled.inside] at below
      refine (ih q child below).imp (fun old => ?_) (fun new => ?_)
      · exact sound.mem_preorder_iff.mpr (.inr ⟨_, lawful.child_mem child, old⟩)
      · have composite : ¬ k.isLeaf = true := by
          intro leaf
          rw [Kind.children_of_isLeaf leaf] at child
          exact List.not_mem_nil child
        obtain ⟨s, b, threads, -⟩ := lawful.exists_threads sound children composite
        have settled := Traced.settled children
        rw [Kind.children_map] at settled
        have size := threads.size_le_before settled q.mark (List.mem_map_of_mem child)
        exact Nat.le_trans size new

omit sound in
/-- What is visited first has its nodes before those that the next visit adds. -/
theorem size_le_of_threads {ps : List (Tree (Visit σ))} {start stop : σ × Arena}
    (threads : Threads Eq start (ps.map Tree.mark) stop)
    (traced : ∀ p ∈ ps, r.Traced a Visit.Modest p) :
    ∀ p ∈ ps, start.2.size ≤ p.mark.before.2.size := by
  have settled : ∀ v ∈ ps.map Tree.mark, v.Settled :=
    List.forall_mem_map.mpr fun p member => (traced p member).lawful.settled
  exact fun p member => threads.size_le_before settled p.mark (List.mem_map_of_mem member)

theorem Traced.not_mem_descendants {q : Tree (Visit σ)} (first : r.Traced a Visit.Modest p)
    (second : r.Traced a Visit.Modest q)
    (apart : (a.preorder p.mark.node).Disjoint (a.preorder q.mark.node)) {x : NodeId}
    (member : x ∈ p.mark.after.2.preorder p.mark.result) : x ∉ a.descendants q.mark.node := by
  intro below
  have inside : x ∈ a.preorder q.mark.node :=
    sound.mem_preorder_iff.mpr (.inr (sound.mem_descendants_iff.mp below))
  obtain old | new := first.mem_preorder sound member
  · exact apart old inside
  · have small := sound.index_le inside
    have present := second.lawful.inside
    have size := first.lawful.grown.size_le
    omega

theorem Traced.disjoint {q : Tree (Visit σ)} (first : r.Traced a Visit.Modest p)
    (second : r.Traced a Visit.Modest q)
    (apart : (a.preorder p.mark.node).Disjoint (a.preorder q.mark.node))
    (later : p.mark.after.2.size ≤ q.mark.before.2.size) :
    (p.mark.after.2.preorder p.mark.result).Disjoint
      (q.mark.after.2.preorder q.mark.result) := by
  intro x here there
  have small := (first.lawful.sound_after sound).index_le here
  have inside := first.lawful.settled.inside
  have size := first.lawful.grown.size_le
  have more := first.lawful.settled.grown.size_le
  obtain old | new := first.mem_preorder sound here
  · have least := sound.index_le old
    have present := first.lawful.inside
    obtain old' | new' := second.mem_preorder sound there
    · exact apart old old'
    · omega
  · obtain old' | new' := second.mem_preorder sound there
    · have least := sound.index_le old'
      have present := second.lawful.inside
      omega
    · omega

/-- Visits of owned trees that are apart give owned trees that are apart. -/
theorem owned_of_threads {ps : List (Tree (Visit σ))} {start stop : σ × Arena}
    (threads : Threads Eq start (ps.map Tree.mark) stop) (grown : a.Grown start.2)
    (traced : ∀ p ∈ ps, r.Traced a Visit.Modest p)
    (each : ∀ p ∈ ps, p.mark.before.2.Owned p.mark.node → p.mark.after.2.Owned p.mark.result)
    (owned : ∀ p ∈ ps, start.2.Owned p.mark.node)
    (apart : ps.Pairwise fun p q => (a.preorder p.mark.node).Disjoint (a.preorder q.mark.node)) :
    (∀ p ∈ ps, p.mark.after.2.Grown stop.2 ∧ stop.2.Owned p.mark.result) ∧
      ps.Pairwise fun p q =>
        (stop.2.preorder p.mark.result).Disjoint (stop.2.preorder q.mark.result) := by
  induction ps generalizing start with
  | nil => simp
  | cons p ps ih =>
    cases threads with
    | @cons _ _ _ _ passed rest =>
      subst passed
      obtain ⟨first, others⟩ := List.forall_mem_cons.mp traced
      obtain ⟨keeps, keepsOthers⟩ := List.forall_mem_cons.mp each
      obtain ⟨own, ownOthers⟩ := List.forall_mem_cons.mp owned
      obtain ⟨away, awayOthers⟩ := List.pairwise_cons.mp apart
      have settled : ∀ v ∈ ps.map Tree.mark, v.Settled :=
        List.forall_mem_map.mpr fun q member => (others q member).lawful.settled
      have more := first.lawful.settled.grown
      have total := (rest.grown settled).1
      have later := first.lawful.sound_after sound
      -- the first visit takes nothing from the trees that are still to be visited
      have waiting : ∀ q ∈ ps, p.mark.after.2.Owned q.mark.node := by
        intro q member
        have inside := (others q member).lawful.inside
        have present := Nat.lt_of_lt_of_le inside grown.size_le
        refine (ownOthers q member).mono (grown.sound sound) more present fun x below => ?_
        rw [Arena.descendants, sound.preorder_of_rows grown.rows inside] at below
        have among := List.mem_of_mem_tail below
        have small := Nat.lt_of_le_of_lt (sound.index_le among) inside
        refine first.parent_eq sound (Nat.lt_of_lt_of_le small grown.size_le) fun also => ?_
        exact away q member (sound.mem_preorder_iff.mpr (.inr (sound.mem_descendants_iff.mp also)))
          among
      obtain ⟨done, separate⟩ := ih rest (grown.trans more) others keepsOthers waiting awayOthers
      refine ⟨List.forall_mem_cons.mpr ⟨⟨total, ?_⟩, done⟩, List.pairwise_cons.mpr ⟨?_, separate⟩⟩
      -- nor do the later visits from what the first one left
      · refine (keeps own).mono later total first.lawful.settled.inside fun x below => ?_
        have among := List.mem_of_mem_tail below
        refine rest.parent_eq settled (Nat.lt_of_le_of_lt (later.index_le among)
          first.lawful.settled.inside) (List.forall_mem_map.mpr fun q member here => ?_)
        exact (others q member).parent_eq sound here
          (first.not_mem_descendants sound (others q member) (away q member) among)
      · intro q member
        have second := others q member
        rw [later.preorder_of_rows total.rows first.lawful.settled.inside,
          (second.lawful.sound_after sound).preorder_of_rows (done q member).1.rows
            second.lawful.settled.inside]
        exact first.disjoint sound second (away q member)
          (size_le_of_threads rest others q member)

section Composite

variable {v : Visit σ} {k : Kind (Tree (Visit σ))}
  (lawful : r.Lawful a Visit.Modest v (k.map Tree.mark))
  (children : ∀ p ∈ k.children, r.Traced a Visit.Modest p) (owned : v.before.2.Owned v.node)

omit sound in
include lawful in
theorem Lawful.children_before :
    v.before.2.children v.node = k.children.map fun p => p.mark.node := by
  rw [Arena.children, (Arena.get_eq_of_rows lawful.grown.rows lawful.inside).2, lawful.kind,
    Kind.children_map, Kind.children_map, List.map_map]
  rfl

omit sound in
include lawful in
theorem Lawful.child_mem_before (child : p ∈ k.children) :
    p.mark.node ∈ v.before.2.children v.node := by
  rw [lawful.children_before]
  exact List.mem_map_of_mem child

include lawful children owned

theorem Lawful.apart : k.children.Pairwise fun p q =>
    (a.preorder p.mark.node).Disjoint (a.preorder q.mark.node) := by
  have before := lawful.grown.sound sound
  have distinct := before.distinct v.node
  rw [lawful.children_before, List.Nodup, List.pairwise_map] at distinct
  refine distinct.imp_of_mem fun {p q} first second different => ?_
  have apart := owned.disjoint_children before (before.self_mem_preorder v.node)
    (lawful.child_mem_before first) (lawful.child_mem_before second) different
  rwa [sound.preorder_of_rows lawful.grown.rows (children p first).lawful.inside,
    sound.preorder_of_rows lawful.grown.rows (children q second).lawful.inside] at apart

/-- No visit of a child takes away a child. -/
theorem Lawful.parent_child {s : σ} {b : Arena}
    (threads : Threads Eq v.before (k.children.map Tree.mark) (s, b)) (child : p ∈ k.children) :
    b.parent p.mark.node = some v.node := by
  have before := lawful.grown.sound sound
  have here := before.self_mem_preorder v.node
  have settled := Traced.settled children
  rw [Kind.children_map] at settled
  have inside := (children p child).lawful.inside
  rw [threads.parent_eq settled (Nat.lt_of_lt_of_le inside lawful.grown.size_le),
    owned v.node here _ (lawful.child_mem_before child)]
  refine List.forall_mem_map.mpr fun q sibling present => ?_
  refine (children q sibling).parent_eq sound present fun below => ?_
  refine owned.not_mem_descendants before here (lawful.child_mem_before sibling)
    (lawful.child_mem_before child) ?_
  rwa [Arena.descendants,
    sound.preorder_of_rows lawful.grown.rows (children q sibling).lawful.inside]

end Composite

/-- What takes the place of an owned tree is owned. -/
theorem Traced.owned (traced : r.Traced a Visit.Modest p)
    (owned : p.mark.before.2.Owned p.mark.node) : p.mark.after.2.Owned p.mark.result := by
  induction traced with
  | @node v k children lawful ih =>
    change v.before.2.Owned v.node at owned
    change v.after.2.Owned v.result
    refine (lawful.sound_after sound).owned_of_children ?_
    rw [lawful.children_modest children, List.forall_mem_map]
    by_cases leaf : k.isLeaf
    · rw [Kind.children_of_isLeaf leaf]
      exact fun p child => absurd child List.not_mem_nil
    obtain ⟨s, b, threads, more, step⟩ := lawful.exists_threads sound children leaf
    have before := lawful.grown.sound sound
    obtain ⟨done, separate⟩ := owned_of_threads sound threads lawful.grown children ih
      (fun p child => owned.below before
        (before.child_mem_preorder (before.self_mem_preorder v.node)
          (lawful.child_mem_before child)))
      (lawful.apart sound children owned)
    intro p child
    obtain ⟨-, parent⟩ | ⟨result, after, kept⟩ := step
    · have later := (done p child).1.sound ((children p child).lawful.sound_after sound)
      have inside := Nat.lt_of_lt_of_le (children p child).lawful.settled.inside
        (done p child).1.size_le
      refine ⟨?_, (done p child).2.mono later more inside fun x below => ?_⟩
      · rw [parent, if_pos (List.mem_map_of_mem child)]
      · -- a node below one result is not another
        have free : x ∉ k.children.map fun p => p.mark.result := by
          intro among
          obtain ⟨q, sibling, rfl⟩ := List.mem_map.mp among
          have different : p ≠ q := by
            rintro rfl
            exact Nat.lt_irrefl _ (later.index_lt below)
          have symmetric : Std.Symm fun p q : Tree (Visit σ) =>
              (b.preorder p.mark.result).Disjoint (b.preorder q.mark.result) :=
            ⟨fun _ _ disjoint => List.Disjoint.symm disjoint⟩
          exact separate.forall child sibling different (List.mem_of_mem_tail below)
            (later.self_mem_preorder _)
        rw [parent, if_neg free]
    · rw [after, result, kept p child]
      refine ⟨lawful.parent_child sound children owned threads child, ?_⟩
      rw [← kept p child]
      exact (done p child).2

omit sound in
theorem Traced.isLeaf_result (traced : r.Traced a Visit.Modest p)
    (composite : (a.kind p.mark.node).isLeaf = false) :
    (p.mark.after.2.kind p.mark.result).isLeaf = false := by
  have lawful := traced.lawful
  rw [lawful.kind, Kind.isLeaf_map] at composite
  cases traced with
  | node children _ =>
    rw [(lawful.composite composite (Traced.settled children)).1, Kind.isLeaf_map, composite]

/-- Nothing names what takes the place of a composite that nothing names. -/
theorem Traced.parent_result (traced : r.Traced a Visit.Modest p)
    (composite : (a.kind p.mark.node).isLeaf = false)
    (top : p.mark.before.2.parent p.mark.node = none) :
    p.mark.after.2.parent p.mark.result = none := by
  have kept : p.mark.after.2.parent p.mark.node = none := by
    have present := Nat.lt_of_lt_of_le traced.lawful.inside traced.lawful.grown.size_le
    rw [traced.parent_eq sound present fun below => Nat.lt_irrefl _ (sound.index_lt below), top]
  have notLeaf := composite
  rw [traced.lawful.kind, Kind.isLeaf_map, Kind.isLeaf_map, ← Bool.not_eq_true] at notLeaf
  cases traced with
  | @node v k children lawful =>
    change v.after.2.parent v.result = none
    obtain ⟨s, b, -, -, ⟨result, parent⟩ | ⟨result, -⟩⟩ :=
      lawful.exists_threads sound children notLeaf
    · have unnamed : v.result ∉ k.children.map fun p => p.mark.result := by
        rw [← lawful.children_modest children]
        exact fun named => Nat.lt_irrefl _ ((lawful.sound_after sound).older _ _ named)
      rw [parent, if_neg unnamed, result]
      exact Arena.parent_of_size_le (Nat.le_refl _)
    · rw [result]
      exact kept

end Rewriter

namespace Arena

/-- The root is a composite, and the tree below it is parented. -/
structure Live (a : Arena) (root : NodeId) : Prop extends a.Parented root where
  current : a.root = some root
  inside : root.index < a.size
  composite : (a.kind root).isLeaf = false

theorem live_ofTree {source : String} {t : SourceTree} (parsed : parse source = .ok t) :
    (ofTree t).Live (top t) := by
  have sound := sound_ofTree t
  refine ⟨⟨sound, parent_top t, fun x _ c child => (parent_ofTree c x).mpr child⟩, root_ofTree t,
    top_lt_size t, ?_⟩
  obtain ⟨c', chunk⟩ := parseTokens_ok_iff.mp parsed
  have tree := tree_ofTree t
  rw [sound.tree_eq] at tree
  obtain ⟨readBody, stop⟩ := chunk
  rw [← Kind.isLeaf_map (ofTree _).tree, (Tree.node.inj tree).2]
  rfl

/-- Which node is the root does not matter to the links. -/
theorem Owned.setRoot {a : Arena} {id : NodeId} (owned : a.Owned id) (sound : a.Sound)
    (inside : id.index < a.size) : (a.setRoot id).Owned id :=
  owned.mono sound (.single .setRoot) inside fun _ _ => rfl

/-- A run of a rewriter of leaves succeeds on a live tree and leaves one. -/
theorem Live.rewriteRoot {a : Arena} {root : NodeId} (live : a.Live root) {r : Rewriter σ}
    (leafwise : r.Leafwise a Visit.Modest) (s : σ) :
    ∃ y stop, (r.rewriteRoot root).Gives (s, a) y stop ∧ stop.2.Live y := by
  obtain ⟨p, traced, node, before⟩ := leafwise.exists_traced
    (fun v present modest => modest.settled present) live.sound live.inside (s, a) .refl
  have lawful := traced.lawful
  have gives := Rewriter.gives_rewriteRoot lawful.gives
  rw [before, node] at gives
  have sound := lawful.sound_after live.sound
  have composite := node.symm ▸ live.composite
  have top := traced.parent_result live.sound composite (by rw [before, node]; exact live.top)
  have owned := traced.owned live.sound (by rw [before, node]; exact live.owned)
  exact ⟨_, _, gives, ⟨sound.setRoot _, top, owned.setRoot sound lawful.settled.inside⟩, rfl,
    lawful.settled.inside, traced.isLeaf_result composite⟩

/-- The arenas that rewriters of leaves make of a program, one after another. -/
inductive Rewritten : Arena → Prop where
  | parsed {source : String} {t : SourceTree} (parsed : parse source = .ok t) :
      Rewritten (ofTree t)
  | rewrite {σ : Type} {r : Rewriter σ} {s : σ} {a : Arena} {root y : NodeId} {stop : σ × Arena}
      (rewritten : Rewritten a) (current : a.root = some root)
      (leafwise : r.Leafwise a Visit.Modest)
      (gives : (r.rewriteRoot root).Gives (s, a) y stop) : Rewritten stop.2

theorem Rewritten.live {a : Arena} (rewritten : a.Rewritten) : ∃ root, a.Live root := by
  induction rewritten with
  | parsed parsed => exact ⟨_, live_ofTree parsed⟩
  | @rewrite σ r s a root y stop _ current leafwise gives ih =>
    obtain ⟨top, live⟩ := ih
    obtain rfl := Option.some.inj (current.symm.trans live.current)
    obtain ⟨y', stop', gives', live⟩ := live.rewriteRoot leafwise s
    obtain ⟨-, rfl⟩ := gives.unique gives'
    exact ⟨y', live⟩

/-- The links up and the links down of the tree below the root of an arena fit together. -/
structure WellLinked (a : Arena) (root : NodeId) : Prop where
  current : a.root = some root
  top : a.parent root = none
  reached : ∀ x, x ∈ a.preorder root ↔ ∃ path, a.follow root path = some x
  once : ∀ x ∈ a.preorder root, ∃! path, a.follow root path = some x
  /-- The parent of a node is the one node of the tree that names it. -/
  parent : ∀ x ∈ a.preorder root, x ≠ root → ∃ p ∈ a.preorder root, a.parent x = some p ∧
    ∀ q ∈ a.preorder root, x ∈ a.children q ↔ q = p
  rootOf : ∀ x ∈ a.preorder root, a.rootOf x = root
  ancestors : ∀ x ∈ a.preorder root, ∀ y ∈ a.preorder root,
    x ∈ a.descendants y ↔ y ∈ a.ancestors x
  index : ∀ x ∈ a.preorder root, x ≠ root → ∃ p i, a.parent x = some p ∧
    a.indexInParent? x = some i ∧ (a.children p)[i]? = some x
  siblings : ∀ x ∈ a.preorder root, ∀ y ∈ a.preorder root,
    a.nextSibling? x = some y ↔ a.previousSibling? y = some x

theorem Live.wellLinked {a : Arena} {root : NodeId} (live : a.Live root) : a.WellLinked root where
  current := live.current
  top := live.top
  reached _ := live.sound.mem_preorder_iff_follow
  once _ member := live.exists_unique_follow member
  parent _ member other := live.exists_parent member other
  rootOf _ member := live.rootOf_eq member
  ancestors _ _ _ member := live.owned.mem_descendants_iff live.sound member
  index _ member other := live.exists_indexInParent member other
  siblings _ member _ member' :=
    (live.nextSibling?_eq_some_iff member).trans (live.previousSibling?_eq_some_iff member').symm

/-- However often rewriters of leaves run over a program, each run succeeds, and the links of the
tree that it leaves fit together. -/
theorem rewritten_live {a : Arena} (rewritten : a.Rewritten) :
    ∃ root, a.WellLinked root ∧ ∀ (σ : Type) (r : Rewriter σ) (s : σ),
      r.Leafwise a Visit.Modest →
        ∃ y stop, (r.rewriteRoot root).Gives (s, a) y stop ∧ stop.2.root = some y ∧
          stop.2.Rewritten := by
  obtain ⟨root, live⟩ := rewritten.live
  refine ⟨root, live.wellLinked, fun σ r s leafwise => ?_⟩
  obtain ⟨y, stop, gives, next⟩ := live.rewriteRoot leafwise s
  exact ⟨y, stop, gives, next.current, .rewrite rewritten live.current leafwise gives⟩

/-- Renaming a name twice. -/
theorem rewritten_live_rename :
    ∃ t first a second b, parse "local x = 1 f(x, y) return x" = .ok t ∧
      ((Rewriter.rename "x" "y").rewriteRoot (top t)).Gives ((), ofTree t) first ((), a) ∧
      ((Rewriter.rename "y" "z").rewriteRoot first).Gives ((), a) second ((), b) ∧
      b.Rewritten ∧ b.WellLinked second := by
  obtain ⟨t, parsed⟩ : ∃ t, parse "local x = 1 f(x, y) return x" = .ok t :=
    exists_parse (by decide +kernel)
  have leafwise (old new : String) (a : Arena) :
      (Rewriter.rename old new).Leafwise a Visit.Modest :=
    (Rewriter.leafwise_rename old new a).mono fun _ present minimal => minimal.modest present
  obtain ⟨root, linked, run⟩ := rewritten_live (.parsed parsed)
  obtain rfl := Option.some.inj (linked.current.symm.trans (root_ofTree t))
  obtain ⟨first, ⟨⟨⟩, a⟩, gives, current, rewritten⟩ := run _ _ () (leafwise "x" "y" _)
  obtain ⟨root, linked, run⟩ := rewritten_live rewritten
  obtain rfl := Option.some.inj (linked.current.symm.trans current)
  obtain ⟨second, ⟨⟨⟩, b⟩, gives', current, rewritten⟩ := run _ _ () (leafwise "y" "z" _)
  obtain ⟨root, linked, -⟩ := rewritten_live rewritten
  obtain rfl := Option.some.inj (linked.current.symm.trans current)
  exact ⟨t, _, a, _, b, parsed, gives, gives', rewritten, linked⟩

end Arena

end LuaTree
