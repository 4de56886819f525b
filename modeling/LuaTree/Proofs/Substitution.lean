import LuaTree.Proofs.Parsed
import LuaTree.Proofs.Visits

/-!
# Rewriting is substitution

A rewriter of leaves gives the tree in which each leaf is replaced by the tree
that it gave for it, and everything else is as before
(`rewriteRoot_substitutes`). It comes to the leaves in the order in which they
stand, to each once, and hands its state from one to the next.
-/

namespace LuaTree

variable {σ ι κ : Type}

namespace Tree

/-- Replace each leaf by a tree, and mark the other nodes anew. -/
def substitute (f : ι → Tree κ) (g : ι → κ) : Tree ι → Tree κ :=
  fold fun m k => if k.isLeaf then f m else .node (g m) k

theorem substitute_node (f : ι → Tree κ) (g : ι → κ) (m : ι) (k : Kind (Tree ι)) :
    substitute f g (.node m k) =
      if k.isLeaf then f m else .node (g m) (k.map (substitute f g)) := by
  rw [substitute, fold_node, Kind.isLeaf_map]

theorem substitute_mapMark {ι' : Type} (f : ι → Tree κ) (g : ι → κ) (h : ι' → ι) (t : Tree ι') :
    (t.mapMark h).substitute f g = t.substitute (fun m => f (h m)) fun m => g (h m) :=
  fold_mapMark _ _ _

theorem substitute_congr {f f' : ι → Tree κ} (g : ι → κ) {t : Tree ι}
    (same : ∀ m ∈ t.preorder, f m = f' m) : t.substitute f g = t.substitute f' g := by
  induction t using Tree.induct with
  | step m k ih =>
    rw [preorder_node, List.forall_mem_cons] at same
    obtain ⟨here, below⟩ := same
    rw [substitute_node, substitute_node, here]
    have children : k.map (substitute f g) = k.map (substitute f' g) := by
      refine Kind.map_congr k fun t member => ih t member fun m among => below m ?_
      exact List.mem_flatten.mpr ⟨t.preorder, List.mem_map_of_mem member, among⟩
    rw [children]

end Tree

namespace Rewriter

variable {r : Rewriter σ} {a : Arena} {P : Visit σ → Prop}

/-- What is below a result is what is below the results of the leaves, in the shape of the tree. -/
theorem Traced.tree {p : Tree (Visit σ)} (sound : a.Sound) (traced : r.Traced a P p) :
    p.mark.after.2.tree p.mark.result =
      p.substitute (fun v => v.after.2.tree v.result) fun v => a.origin v.node := by
  induction traced with
  | @node v k children lawful ih =>
    rw [Tree.substitute_node]
    by_cases leaf : k.isLeaf
    · rw [if_pos leaf]
      rfl
    · rw [if_neg leaf]
      obtain ⟨kind, origin, -, -⟩ := lawful.composite_of_traced children leaf
      change v.after.2.tree v.result = _
      rw [(lawful.sound_after sound).tree_eq, origin, kind, Kind.map_map, Kind.map_map]
      refine congrArg (Tree.node (a.origin v.node)) (Kind.map_congr k fun p member => ?_)
      have before := (children p member).lawful
      have later := lawful.after_children children member
      rw [← ih p member]
      exact (before.sound_after sound).tree_of_rows later.rows before.settled.inside

end Rewriter

end LuaTree
