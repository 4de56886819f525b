import LuaTree.Proofs.Visits

/-!
# A rewriter that overrides nothing

What other rewriters can make of an arena is limited only by what calls can do:
they add nodes and choose a root (`Growing`). However an arena came about by calls
and by runs of such rewriters, its links down go to smaller indices. A rewriter
that overrides nothing therefore comes to all nodes below a handle and leaves the
arena as it is (`rewrite_default`).
-/

namespace LuaTree

variable {σ α β : Type}

namespace Edit

/-- The edit only adds nodes and chooses roots, also where it fails. -/
def Growing (e : Edit α) : Prop :=
  ∀ a : Arena, a.Grown (e.run.run a).2

theorem growing_pure (y : α) : (pure y : Edit α).Growing :=
  fun _ => .refl

theorem Growing.bind {e : Edit α} {f : α → Edit β} (first : e.Growing)
    (second : ∀ y, (f y).Growing) : (e >>= f).Growing := by
  intro a
  have grown := first a
  rw [run_bind]
  rcases run : e.run.run a with ⟨problem | y, b⟩
  · rwa [run] at grown
  · rw [run] at grown
    exact grown.trans (second y b)

theorem growing_alloc (k : Kind NodeId) (m : Origin) : (alloc k m).Growing := by
  intro a
  obtain ⟨problem, run⟩ | ⟨distinct, inside, run⟩ := run_alloc_cases k m a
  · rw [run]
    exact .refl
  · rw [run]
    exact .single (.push distinct inside)

theorem growing_rebuild (id : NodeId) (k : Kind NodeId) : (rebuild id k).Growing := by
  intro a
  rw [run_rebuild]
  exact growing_alloc k _ a

/-- A call only adds nodes or chooses a root, also if it names nodes that are not there. -/
theorem growing_call (c : Call) : c.edit.Growing := by
  obtain ⟨k, m, -, edit⟩ | ⟨id, k, rfl⟩ | ⟨table, name, rfl⟩ | ⟨id, rfl⟩ := c.edit_cases
  · rw [edit]
    exact growing_alloc k m
  · exact growing_rebuild id k
  · exact (growing_alloc _ _).bind fun key => growing_alloc _ _
  · exact fun a => .single .setRoot

end Edit

namespace Rewriting

/-- The action only adds nodes and chooses roots, whatever its state. -/
def Growing (x : Rewriting σ α) : Prop :=
  ∀ s, Edit.Growing (x.run s)

theorem growing_pure (y : α) : (pure y : Rewriting σ α).Growing :=
  fun s => Edit.growing_pure (y, s)

theorem growing_getThe : (getThe Arena : Rewriting σ Arena).Growing :=
  fun _ _ => .refl

theorem growing_lift {e : Edit α} (growing : e.Growing) :
    (liftM e : Rewriting σ α).Growing :=
  fun s => growing.bind fun y => Edit.growing_pure (y, s)

theorem Growing.bind {x : Rewriting σ α} {f : α → Rewriting σ β} (first : x.Growing)
    (second : ∀ y, (f y).Growing) : (x >>= f).Growing := by
  intro s
  rw [StateT.run_bind]
  exact (first s).bind fun y => second y.1 y.2

theorem Growing.mapM {visit : α → Rewriting σ β} {xs : List α}
    (each : ∀ x ∈ xs, (visit x).Growing) : (xs.mapM visit).Growing := by
  induction xs with
  | nil => exact growing_pure []
  | cons x xs ih =>
    obtain ⟨first, others⟩ := List.forall_mem_cons.mp each
    rw [List.mapM_cons]
    exact first.bind fun y => (ih others).bind fun ys => growing_pure (y :: ys)

end Rewriting

open Rewriting

theorem Descent.growing_walk {d : Descent σ} (list : d.list = walkList d.node)
    (node : ∀ c, (d.node c).Growing) (id : NodeId) (k : Kind NodeId) : (d.walk id k).Growing := by
  rw [walk_eq list]
  refine Growing.bind (.mapM fun c _ => node c) fun ys => ?_
  split
  · exact growing_pure id
  · exact growing_lift (Edit.growing_rebuild id _)

namespace Rewriter

/-- Where it is told how to go on by adding nodes and choosing roots, the rewriter does no more
itself. -/
def Growing (r : Rewriter σ) : Prop :=
  ∀ visit : NodeId → Rewriting σ NodeId, (∀ c, (visit c).Growing) →
    ∀ id k, (r.node ⟨visit, r.list visit⟩ id k).Growing

theorem Growing.rewrite {r : Rewriter σ} (growing : r.Growing) (id : NodeId) :
    (r.rewrite id).Growing := by
  obtain ⟨n⟩ := id
  induction n using Nat.strongRecOn with
  | ind n ih =>
    rw [Rewriter.rewrite]
    refine growing_getThe.bind fun a => growing _ (fun c => ?_) _ _
    split
    next smaller => exact ih c.index smaller
    next => exact growing_pure c

theorem Growing.rewriteRoot {r : Rewriter σ} (growing : r.Growing) (root : NodeId) :
    (r.rewriteRoot root).Growing :=
  (growing.rewrite root).bind fun y =>
    Growing.bind (fun _ _ => .single .setRoot) fun _ => growing_pure y

theorem growing_rename (old new : String) : (rename old new).Growing := by
  intro visit growing id k
  have walks := Descent.growing_walk (d := ⟨visit, walkList visit⟩) rfl growing id k
  cases k
  case identifier name =>
    simp only [rename]
    split
    · exact growing_lift (Edit.growing_rebuild id _)
    · exact walks
  all_goals exact walks

end Rewriter

namespace Arena

/-- The arenas that come about by calls and by runs of rewriters, which may fail. -/
inductive Arrived : Arena → Prop where
  | empty : Arrived empty
  | parsed {source : String} {t : SourceTree} (parsed : parse source = .ok t) :
      Arrived (ofTree t)
  | call {a : Arena} (arrived : Arrived a) (c : Call) : Arrived (c.after a)
  | rewrite {σ : Type} {r : Rewriter σ} {s : σ} {a b : Arena} {id : NodeId}
      {outcome : Except EditError (NodeId × σ)} (arrived : Arrived a) (growing : r.Growing)
      (run : ((r.rewrite id).run s).run.run a = (outcome, b)) : Arrived b
  | rewriteRoot {σ : Type} {r : Rewriter σ} {s : σ} {a b : Arena} {root : NodeId}
      {outcome : Except EditError (NodeId × σ)} (arrived : Arrived a) (growing : r.Growing)
      (run : ((r.rewriteRoot root).run s).run.run a = (outcome, b)) : Arrived b

theorem Arrived.sound {a : Arena} (arrived : a.Arrived) : a.Sound := by
  induction arrived with
  | empty => exact sound_empty
  | parsed _ => exact sound_ofTree _
  | @call a _ c ih => exact (Edit.growing_call c a).sound ih
  | @rewrite σ r s a b id _ _ growing run ih =>
    have grown := growing.rewrite id s a
    rw [run] at grown
    exact grown.sound ih
  | @rewriteRoot σ r s a b root _ _ growing run ih =>
    have grown := growing.rewriteRoot root s a
    rw [run] at grown
    exact grown.sound ih

end Arena

namespace Rewriting

variable {visit : NodeId → Rewriting σ NodeId} {ids : List NodeId} {start : σ × Arena}

theorem gives_mapM_self (each : ∀ c ∈ ids, (visit c).Gives start c start) :
    (ids.mapM visit).Gives start ids start := by
  induction ids with
  | nil => exact gives_pure [] start
  | cons c ids ih =>
    obtain ⟨first, others⟩ := List.forall_mem_cons.mp each
    rw [List.mapM_cons]
    exact first.bind ((ih others).bind (gives_pure _ start))

/-- A list of which no element changes is not copied. -/
theorem gives_walkList_none (each : ∀ c ∈ ids, (visit c).Gives start c start) :
    (walkList visit ids).Gives start none start := by
  refine (gives_mapM_self each).bind ?_
  rw [if_pos rfl]
  exact gives_pure none start

end Rewriting

namespace Rewriter

theorem gives_rewrite_self {a : Arena} (sound : a.Sound) (s : σ) (id : NodeId) :
    (({} : Rewriter σ).rewrite id).Gives (s, a) id (s, a) := by
  obtain ⟨n⟩ := id
  -- links down go to smaller indices, so that the walk is never cut short
  induction n using Nat.strongRecOn with
  | ind n ih =>
    have visited : ((a.kind ⟨n⟩).children.mapM (({} : Rewriter σ).descent ⟨n⟩).node).Gives (s, a)
        (a.kind ⟨n⟩).children (s, a) := by
      refine gives_mapM_self fun c member => ?_
      have smaller := sound.older ⟨n⟩ c member
      rw [node_descent _ smaller]
      exact ih c.index smaller
    exact gives_rewrite (Descent.gives_walk_same rfl ⟨n⟩ visited rfl)

/-- Whatever calls and rewriters made of an arena, a rewriter that overrides nothing rewrites all
that is below a handle, gives back the handle, and the same list for a list of handles, and leaves
the arena and its state as they are. -/
theorem rewrite_default {a : Arena} (arrived : a.Arrived) (s : σ) :
    let r : Rewriter σ := {}
    (∀ id, ∀ c ∈ a.children id, (r.descent id).node c = r.rewrite c) ∧
      (∀ id, (r.rewrite id).Gives (s, a) id (s, a)) ∧
      (∀ ids, (r.list r.rewrite ids).Gives (s, a) none (s, a)) ∧
      ∀ root, a.root = some root → (r.rewriteRoot root).Gives (s, a) root (s, a) := by
  intro r
  have sound := arrived.sound
  have same (id : NodeId) : (r.rewrite id).Gives (s, a) id (s, a) := gives_rewrite_self sound s id
  refine ⟨fun id c member => r.node_descent (sound.older id c member), same,
    fun ids => gives_walkList_none fun c _ => same c, fun root current => ?_⟩
  have rooted : a.setRoot root = a := by rw [Arena.setRoot, ← current]
  simpa only [rooted] using gives_rewriteRoot (same root)

/-- Two pairs of parentheses around one name, which the older pair has lost to the newer one, and a
copy of the older pair that a renaming added. -/
theorem rewrite_default_parens :
    let r : Rewriter Nat := {}
    let a := (Call.paren ⟨0⟩).after ((Call.paren ⟨0⟩).after
      ((Call.identifier "x").after Arena.empty))
    ∃ b, ((rename "x" "y").rewrite ⟨1⟩).Gives ((), a) ⟨4⟩ ((), b) ∧
      b.parent ⟨0⟩ = some ⟨2⟩ ∧ b.children ⟨1⟩ = [⟨0⟩] ∧ b.children ⟨2⟩ = [⟨0⟩] ∧
      (∀ id, (r.rewrite id).Gives (7, b) id (7, b)) ∧
      (r.list r.rewrite [⟨4⟩, ⟨1⟩, ⟨2⟩]).Gives (7, b) none (7, b) := by
  intro r a
  let named := a.push default (.identifier "y")
  have arrived : a.Arrived :=
    .call (.call (.call .empty (.identifier "x")) (.paren ⟨0⟩)) (.paren ⟨0⟩)
  have name : ((rename "x" "y").rewrite ⟨0⟩).Gives ((), a) ⟨3⟩ ((), named) := gives_rewrite rfl
  let d := (rename "x" "y").descent ⟨1⟩
  have visits : ∀ v ∈ [(⟨⟨0⟩, ((), a), ⟨3⟩, ((), named)⟩ : Visit Unit)],
      (d.node v.node).Gives v.before v.result v.after := by
    simpa [d, descent] using name
  have visited := Descent.gives_mapM visits (.cons rfl (.nil rfl))
  have walk := Descent.gives_walk_rebuilt (d := d) (k := .paren ⟨0⟩) (l := .paren ⟨3⟩) rfl ⟨1⟩
    visited (by decide) (by decide) (by decide) rfl rfl
  have copied : ((rename "x" "y").rewrite ⟨1⟩).Gives ((), a) ⟨4⟩ _ := gives_rewrite walk
  obtain ⟨-, same, lists, -⟩ :=
    rewrite_default (.rewrite arrived (growing_rename "x" "y") copied) 7
  exact ⟨_, copied, by decide, by decide, by decide, same, lists _⟩

end Rewriter

end LuaTree
