import LuaTree.Rewrite.Basic
import LuaTree.Proofs.Adoption
import LuaTree.Proofs.Traversals

/-!
# Descents

To walk over a node is to visit its children in order, each once, and to rebuild
it if one of them was replaced (`walk_eq`). The walk carries a note whether a
child was replaced; in the end the results tell as much, as they are other
handles than the children. A visit records where the run of a rewriter stood
before and after, and the handle that took the node's place.
-/

namespace LuaTree

variable {σ α β : Type}

namespace Rewriting

/-- The action succeeds and leads from one state and arena to others. -/
def Gives (x : Rewriting σ α) (start : σ × Arena) (y : α) (stop : σ × Arena) : Prop :=
  (x.run start.1).run.run start.2 = (.ok (y, stop.1), stop.2)

variable {x : Rewriting σ α} {start mid stop : σ × Arena} {y : α}

theorem gives_pure (y : α) (st : σ × Arena) : Gives (pure y) st y st :=
  rfl

theorem gives_getThe (s : σ) (a : Arena) :
    Gives (getThe Arena : Rewriting σ Arena) (s, a) a (s, a) :=
  rfl

theorem gives_modifyThe (f : Arena → Arena) (s : σ) (a : Arena) :
    Gives (modifyThe Arena f : Rewriting σ Unit) (s, a) () (s, f a) :=
  rfl

theorem Gives.bind {f : α → Rewriting σ β} {z : β} (first : Gives x start y mid)
    (second : Gives (f y) mid z stop) : Gives (x >>= f) start z stop := by
  unfold Gives at first ⊢
  rw [StateT.run_bind, Edit.run_bind, first]
  exact second

theorem Gives.unique {z : α} {other : σ × Arena} (first : Gives x start y stop)
    (second : Gives x start z other) : y = z ∧ stop = other := by
  obtain ⟨result, arena⟩ := Prod.mk.inj (first.symm.trans second)
  obtain ⟨same, state⟩ := Prod.mk.inj (Except.ok.inj result)
  exact ⟨same, Prod.ext state arena⟩

theorem gives_lift {e : Edit α} {s : σ} {a b : Arena} (run : e.run.run a = (.ok y, b)) :
    Gives (liftM e : Rewriting σ α) (s, a) y (s, b) := by
  change (e >>= fun y => pure (y, s) : Edit (α × σ)).run.run a = _
  rw [Edit.run_bind, run]
  rfl

end Rewriting

/-- One call of a rewriter: the node, the handle that takes its place, and the state and arena on
either side. -/
structure Visit (σ : Type) where
  node : NodeId
  before : σ × Arena
  result : NodeId
  after : σ × Arena

namespace Visit

/-- Whether the node was replaced. -/
def changed (v : Visit σ) : Bool :=
  v.result != v.node

theorem changed_iff {v : Visit σ} : v.changed = true ↔ v.result ≠ v.node :=
  bne_iff_ne

theorem unchanged_iff {v : Visit σ} : v.changed = false ↔ v.result = v.node := by
  simp [changed]

/-- The result is the node itself or was added by the visit. -/
structure Settled (v : Visit σ) : Prop where
  grown : v.before.2.Grown v.after.2
  inside : v.result.index < v.after.2.size
  fresh : v.result = v.node ∨ v.before.2.size ≤ v.result.index

/-- The visit leaves everything as it is, or adds one childless node, which is the result. -/
def Minimal (v : Visit σ) : Prop :=
  v.result = v.node ∧ v.after.2 = v.before.2 ∨
    ∃ m k, k.children = [] ∧ v.result = v.before.2.next ∧ v.after.2 = v.before.2.push m k

theorem Minimal.settled {v : Visit σ} (present : v.node.index < v.before.2.size)
    (minimal : v.Minimal) : v.Settled := by
  obtain ⟨result, after⟩ | ⟨m, k, childless, result, after⟩ := minimal
  · refine ⟨after ▸ .refl, ?_, .inl result⟩
    rwa [result, after]
  · refine ⟨after ▸ .single (.push ?_ ?_), ?_, .inr (result ▸ Nat.le_refl _)⟩
    · rw [childless]
      exact List.nodup_nil
    · rw [childless]
      exact fun c member => absurd member List.not_mem_nil
    · rw [result, after, Arena.size_push]
      exact Nat.lt_succ_self _

end Visit

/-- Visits one after another; `pass` says how a visit finds what the one before it left. -/
inductive Threads (pass : σ × Arena → σ × Arena → Prop) :
    σ × Arena → List (Visit σ) → σ × Arena → Prop where
  | nil {start stop : σ × Arena} (passed : pass start stop) : Threads pass start [] stop
  | cons {start stop : σ × Arena} {v : Visit σ} {vs : List (Visit σ)} (passed : pass start v.before)
      (rest : Threads pass v.after vs stop) : Threads pass start (v :: vs) stop

theorem Threads.grown {vs : List (Visit σ)} {start stop : σ × Arena}
    (threads : Threads Eq start vs stop) (settled : ∀ v ∈ vs, v.Settled) :
    start.2.Grown stop.2 ∧ ∀ v ∈ vs, v.after.2.Grown stop.2 := by
  induction threads with
  | nil same =>
    subst same
    exact ⟨.refl, by simp⟩
  | cons passed rest ih =>
    subst passed
    obtain ⟨first, others⟩ := List.forall_mem_cons.mp settled
    obtain ⟨grown, after⟩ := ih others
    exact ⟨first.grown.trans grown, List.forall_mem_cons.mpr ⟨grown, after⟩⟩

namespace Descent

theorem gives_mapM {vs : List (Visit σ)} {visit : NodeId → Rewriting σ NodeId}
    (visits : ∀ v ∈ vs, (visit v.node).Gives v.before v.result v.after) {start stop : σ × Arena}
    (threads : Threads Eq start vs stop) :
    ((vs.map Visit.node).mapM visit).Gives start (vs.map Visit.result) stop := by
  induction threads with
  | nil same =>
    subst same
    exact Rewriting.gives_pure _ _
  | cons passed rest ih =>
    subst passed
    obtain ⟨first, others⟩ := List.forall_mem_cons.mp visits
    rw [List.map_cons, List.mapM_cons]
    exact first.bind ((ih others).bind (Rewriting.gives_pure _ _))

theorem map_result_eq_iff {vs : List (Visit σ)} :
    vs.map Visit.result = vs.map Visit.node ↔ vs.any Visit.changed = false := by
  rw [List.map_inj_left, List.any_eq_false]
  exact forall₂_congr fun v member => by rw [Bool.not_eq_true, Visit.unchanged_iff]

variable {d : Descent σ}

theorem run_lift (x : Rewriting σ α) (flag : Bool) :
    (liftM x : StateT Bool (Rewriting σ) α).run flag = (do
      let y ← x
      return (y, flag)) :=
  rfl

theorem run_one (d : Descent σ) (c : NodeId) (flag : Bool) :
    (d.one c).run flag = (do
      let y ← d.node c
      return (y, flag || decide (y ≠ c))) := by
  rw [one, StateT.run_bind, run_lift, bind_assoc]
  refine bind_congr fun y => ?_
  rw [pure_bind]
  by_cases same : y = c <;> simp [same]

theorem run_mapM_one (d : Descent σ) (cs : List NodeId) (flag : Bool) :
    (cs.mapM d.one).run flag = (do
      let ys ← cs.mapM d.node
      return (ys, flag || decide (ys ≠ cs))) := by
  induction cs generalizing flag with
  | nil => simp
  | cons c cs ih =>
    simp only [List.mapM_cons, StateT.run_bind, run_one, ih, bind_assoc, pure_bind, StateT.run_pure]
    refine bind_congr fun y => bind_congr fun ys => ?_
    by_cases first : y = c <;> simp [first]

/-- A list of children is no more than its members, unless the rewriter treats lists otherwise. -/
theorem many_eq (list : d.list = Rewriting.walkList d.node) : d.many = List.mapM d.one := by
  funext cs
  refine StateT.ext fun flag => ?_
  rw [run_mapM_one, many, StateT.run_bind, run_lift, list, Rewriting.walkList, bind_assoc,
    bind_assoc]
  refine bind_congr fun ys => ?_
  rw [pure_bind, pure_bind]
  by_cases same : ys = cs <;> simp [same]

/-- A walk rewrites the children of a node in order, each once, and rebuilds the node with what
comes of them if that is something else. -/
theorem walk_eq (list : d.list = Rewriting.walkList d.node) (id : NodeId) (k : Kind NodeId) :
    d.walk id k = (do
      let ys ← k.children.mapM d.node
      if ys = k.children then return id else Edit.rebuild id (k.refill ys)) := by
  rw [walk, many_eq list, Kind.traverse_eq, StateT.run_bind, run_mapM_one, bind_assoc, bind_assoc]
  refine bind_congr fun ys => ?_
  rw [pure_bind, StateT.run_pure, pure_bind]
  by_cases same : ys = k.children <;> simp [same]

section Gives

variable (list : d.list = Rewriting.walkList d.node) (id : NodeId) {k : Kind NodeId}
  {ys : List NodeId} {start mid : σ × Arena} (visited : (k.children.mapM d.node).Gives start ys mid)

include list visited

theorem gives_walk_same (same : ys = k.children) : (d.walk id k).Gives start id mid := by
  rw [walk_eq list]
  refine visited.bind ?_
  rw [if_pos same]
  exact Rewriting.gives_pure id mid

theorem gives_walk_rebuilt (other : ys ≠ k.children) (distinct : ys.Nodup)
    (inside : ∀ y ∈ ys, y.index < mid.2.size) {l : Kind NodeId} (children : l.children = ys)
    (frame : l.frame = k.frame) :
    (d.walk id k).Gives start mid.2.next (mid.1, mid.2.push (mid.2.origin id) l) := by
  subst children
  rw [walk_eq list]
  refine visited.bind ?_
  rw [if_neg other, Kind.refill_eq frame]
  refine Rewriting.gives_lift ?_
  rw [Edit.run_rebuild]
  exact Edit.run_alloc distinct inside _

end Gives

end Descent

end LuaTree
