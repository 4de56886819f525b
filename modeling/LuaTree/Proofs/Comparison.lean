import LuaTree.Proofs.Levels
import LuaTree.Proofs.LineBreaks

/-!
# Comparing trees

Two trees are compared node by node, with the children of a node as one list. The shape
of a node tells how such a list is shared out between its fields, except that it does not
tell the last branch of an `if` from the others (`Kind.eq_of_sameShape`). Where these are
in order, comparing trees decides whether they are equal but for their marks
(`Tree.same_iff`), and comparing handles whether they unfold to the same tree
(`same_decides_equality`).
-/

namespace LuaTree

namespace Kind

variable {α β γ : Type}

def isElseIf : Kind α → Bool
  | elseIf .. => true
  | _ => false

def isElseBlock : Kind α → Bool
  | elseBlock _ => true
  | _ => false

/-- The branches with a condition behind the first one. -/
def clauses : Kind α → List α
  | ifChain _ _ clauses _ => clauses
  | _ => []

/-- The branch without a condition. -/
def lastBranch : Kind α → Option α
  | ifChain _ _ _ branch => branch
  | _ => none

/-- Each branch is of the kind that belongs in its place. -/
def Sorted (kindOf : α → Kind β) (k : Kind α) : Prop :=
  (∀ c ∈ k.clauses, (kindOf c).isElseIf = true) ∧
    ∀ c ∈ k.lastBranch, (kindOf c).isElseBlock = true

instance (kindOf : α → Kind β) (k : Kind α) : Decidable (k.Sorted kindOf) :=
  inferInstanceAs (Decidable (_ ∧ _))

@[simp] theorem isElseIf_map (f : α → β) (k : Kind α) : (k.map f).isElseIf = k.isElseIf := by
  cases k <;> rfl

@[simp] theorem isElseBlock_map (f : α → β) (k : Kind α) :
    (k.map f).isElseBlock = k.isElseBlock := by
  cases k <;> rfl

theorem clauses_map (f : α → β) (k : Kind α) : (k.map f).clauses = k.clauses.map f := by
  cases k <;> rfl

theorem lastBranch_map (f : α → β) (k : Kind α) :
    (k.map f).lastBranch = k.lastBranch.map f := by
  cases k <;> rfl

theorem sorted_map_iff {f : α → β} {kindOf : β → Kind γ} {k : Kind α} :
    (k.map f).Sorted kindOf ↔ k.Sorted (kindOf ∘ f) := by
  simp [Sorted, clauses_map, lastBranch_map]

theorem sorted_congr {kindOf : α → Kind β} {kindOf' : α → Kind γ}
    (clause : ∀ c, (kindOf c).isElseIf = (kindOf' c).isElseIf)
    (last : ∀ c, (kindOf c).isElseBlock = (kindOf' c).isElseBlock) (k : Kind α) :
    k.Sorted kindOf ↔ k.Sorted kindOf' := by
  simp only [Sorted, clause, last]

/-- Branches in order can be told apart in one list of them all. -/
theorem filter_branches {kindOf : α → Kind β} {k : Kind α} (sorted : k.Sorted kindOf) :
    (k.clauses ++ k.lastBranch.toList).filter (fun c => (kindOf c).isElseIf) = k.clauses := by
  obtain ⟨conditions, last⟩ := sorted
  have none_last : k.lastBranch.toList.filter (fun c => (kindOf c).isElseIf) = [] := by
    rw [List.filter_eq_nil_iff]
    intro c member
    have block := last c (Option.mem_toList.mp member)
    generalize kindOf c = k at block
    cases k <;> first | (cases block; done) | exact Bool.false_ne_true
  rw [List.filter_append, List.filter_eq_self.mpr conditions, none_last, List.append_nil]

/-- Nodes of the same shape with the same children are the same. -/
theorem eq_of_sameShape {kindOf : α → Kind β} {k l : Kind α} (left : k.Sorted kindOf)
    (right : l.Sorted kindOf) (shape : k.sameShape l = true) (same : k.children = l.children) :
    k = l := by
  have option {x y : Option α} (listed : x.toList = y.toList) : x = y := by
    cases x <;> cases y <;> simp_all
  cases l <;> cases k <;> first | (cases shape; done) | skip
  case assignment.assignment ts' vs' ts vs =>
    obtain ⟨rfl, rfl⟩ := List.append_inj same (beq_iff_eq.mp shape)
    rfl
  case localNames.localNames ns' vs' ns vs =>
    obtain ⟨rfl, rfl⟩ := List.append_inj same (beq_iff_eq.mp shape)
    rfl
  case genericFor.genericFor ns' es' b' ns es b =>
    obtain ⟨lists, body⟩ := List.append_inj' same rfl
    obtain ⟨rfl, rfl⟩ := List.append_inj lists (beq_iff_eq.mp shape)
    rw [List.singleton_inj.mp body]
  case numericFor.numericFor n' e₁' e₂' e₃' b' n e₁ e₂ e₃ b =>
    obtain ⟨lists, last⟩ := List.append_inj' same rfl
    simp only [List.cons.injEq] at lists last
    obtain rfl := option lists.2.2.2
    simp_all
  case field.field style' key' e' style key e =>
    obtain ⟨lists, last⟩ := List.append_inj' same rfl
    rw [beq_iff_eq.mp shape, option lists, List.singleton_inj.mp last]
  -- only here does the shape not tell the fields: the kinds of the branches do
  case ifChain.ifChain e' b' clauses' branch' e b clauses branch =>
    simp only [children, List.cons_append, List.cons.injEq] at same
    obtain ⟨rfl, rfl, branches⟩ := same
    obtain rfl : clauses = clauses' := calc
      clauses = (clauses ++ branch.toList).filter _ := (filter_branches left).symm
      _ = (clauses' ++ branch'.toList).filter _ := congrArg _ branches
      _ = clauses' := filter_branches right
    rw [option (List.append_cancel_left branches)]
  all_goals simp_all [sameShape, children]

/-- The shape does not tell a branch in the list from one behind it. -/
example : (ifChain 0 1 [2] none).sameShape (ifChain 0 1 [] (some 2)) = true := rfl

end Kind

theorem map_eq_of_zip {α β γ : Type} {f : α → γ} {g : β → γ} {xs : List α} {ys : List β}
    (length : xs.length = ys.length) (each : ∀ p ∈ xs.zip ys, f p.1 = g p.2) :
    xs.map f = ys.map g := by
  calc
    xs.map f = ((xs.zip ys).map Prod.fst).map f := by rw [List.map_fst_zip length.le]
    _ = (xs.zip ys).map fun p => f p.1 := List.map_map
    _ = (xs.zip ys).map fun p => g p.2 := List.map_congr_left each
    _ = ((xs.zip ys).map Prod.snd).map g := List.map_map.symm
    _ = ys.map g := by rw [List.map_snd_zip length.ge]

namespace Tree

variable {ι κ : Type}

theorem same_node_iff {m : ι} {k : Kind (Tree ι)} {m' : κ} {l : Kind (Tree κ)} :
    (node m k).same (node m' l) = true ↔
      k.sameShape l = true ∧ k.children.length = l.children.length ∧
        ∀ p ∈ k.children.zip l.children, p.1.same p.2 = true := by
  rw [same_node, Bool.and_eq_true, Bool.and_eq_true, beq_iff_eq, and_assoc,
    ← List.map_uncurry_zip_eq_zipWith, List.all_map, List.all_eq_true]
  rfl

theorem Every.imp {p q : Kind (Tree ι) → Prop} {t : Tree ι} (every : t.Every p)
    (implies : ∀ k, p k → q k) : t.Every q := by
  induction every with
  | node here _ ih => exact .node (implies _ here) ih

/-- What the shape of a node tells is the same for all nodes of trees that are the same. -/
theorem Every.of_same {p : Kind (Tree ι) → Prop} {q : Kind (Tree κ) → Prop} {t : Tree ι}
    {u : Tree κ} (every : u.Every q) (shape : ∀ k l, k.sameShape l = true → q l → p k)
    (same : t.same u = true) : t.Every p := by
  induction t using Tree.induct generalizing u with
  | step m k ih =>
    obtain ⟨m', l⟩ := u
    obtain ⟨shaped, length, children⟩ := same_node_iff.mp same
    obtain ⟨here, below⟩ := every_node_iff.mp every
    refine .node (shape k l shaped here) fun c member => ?_
    rw [← List.map_fst_zip length.le] at member
    obtain ⟨⟨c, d⟩, paired, rfl⟩ := List.mem_map.mp member
    obtain ⟨left, right⟩ := List.of_mem_zip paired
    exact ih c left (below d right) (children _ paired)

/-- All branches of the tree are in order. -/
def Sorted (t : Tree ι) : Prop :=
  t.Every (Kind.Sorted kind)

/-- The kind of a node does not depend on its mark. -/
theorem sorted_unmarked_iff {k : Kind (Tree ι)} :
    (k.map unmarked).Sorted kind ↔ k.Sorted kind := by
  have kind_unmarked (t : Tree ι) : t.unmarked.kind = t.kind.map unmarked := kind_mapMark _ t
  rw [Kind.sorted_map_iff]
  exact k.sorted_congr (fun t => by simp [kind_unmarked]) fun t => by simp [kind_unmarked]

theorem unmarked_eq_of_same {t : Tree ι} {u : Tree κ} (left : t.Sorted) (right : u.Sorted)
    (same : t.same u = true) : t.unmarked = u.unmarked := by
  induction t using Tree.induct generalizing u with
  | step m k ih =>
    obtain ⟨m', l⟩ := u
    obtain ⟨shape, length, children⟩ := same_node_iff.mp same
    obtain ⟨here, below⟩ := every_node_iff.mp left
    obtain ⟨here', below'⟩ := every_node_iff.mp right
    rw [unmarked_node, unmarked_node]
    refine congrArg (node ()) (Kind.eq_of_sameShape (sorted_unmarked_iff.mpr here)
      (sorted_unmarked_iff.mpr here') ?_ ?_)
    · rwa [Kind.sameShape_map]
    · rw [Kind.children_map, Kind.children_map]
      refine map_eq_of_zip length fun p paired => ?_
      obtain ⟨first, second⟩ := List.of_mem_zip paired
      exact ih _ first (below _ first) (below' _ second) (children p paired)

/-- Trees with their branches in order are the same just if they differ in their marks only. -/
theorem same_iff {t : Tree ι} {u : Tree κ} (left : t.Sorted) (right : u.Sorted) :
    t.same u = true ↔ t.unmarked = u.unmarked :=
  ⟨unmarked_eq_of_same left right, same_of_mapMark_eq⟩

end Tree

namespace Arena

/-- The tree below a handle, without marks. -/
def shape (a : Arena) (id : NodeId) : Tree Unit :=
  a.unfold (fun _ => ()) id

/-- All branches in the arena are in order. -/
def Sorted (a : Arena) : Prop :=
  ∀ id, (a.kind id).Sorted a.kind

/-- Behind the end of the table there are no branches. -/
theorem sorted_iff {a : Arena} : a.Sorted ↔ ∀ i < a.size, (a.kind ⟨i⟩).Sorted a.kind := by
  refine ⟨fun sorted i _ => sorted ⟨i⟩, fun sorted id => ?_⟩
  by_cases inside : id.index < a.size
  · exact sorted id.index inside
  · rw [kind_of_size_le (Nat.le_of_not_lt inside)]
    simp [Kind.Sorted, Kind.clauses, Kind.lastBranch]

instance (a : Arena) : Decidable a.Sorted :=
  decidable_of_iff _ sorted_iff.symm

variable {a b : Arena}

theorem shape_eq_unmarked (a : Arena) (id : NodeId) : a.shape id = (a.handles id).unmarked :=
  unfold_eq_mapMark a _ id

theorem unmarked_tree (a : Arena) (id : NodeId) : (a.tree id).unmarked = a.shape id := by
  rw [tree, unfold_eq_mapMark, Tree.unmarked_mapMark, shape_eq_unmarked]

/-- The nodes of two handles are compared first, then their children in pairs. -/
theorem Sound.same_eq (sound : a.Sound) (sound' : b.Sound) (x y : NodeId) :
    a.same x b y = ((a.kind x).sameShape (b.kind y) &&
      (a.children x).length == (b.children y).length &&
      ((a.children x).zip (b.children y)).all fun p => a.same p.1 b p.2) := by
  rw [same, sound.handles_eq, sound'.handles_eq, Tree.same_node]
  change (Kind.sameShape _ ((b.kind y).map _) && _ == ((b.kind y).map _).children.length &&
    (List.zipWith Tree.same _ ((b.kind y).map _).children).all id) = _
  rw [Kind.sameShape_map, Kind.children_map, Kind.children_map, List.length_map, List.length_map,
    List.zipWith_map, ← List.map_uncurry_zip_eq_zipWith, List.all_map]
  rfl

theorem Sound.sorted_handles (sound : a.Sound) (sorted : a.Sorted) (id : NodeId) :
    (a.handles id).Sorted := by
  have kind_handles (c : NodeId) : (a.handles c).kind = (a.kind c).map a.handles :=
    congrArg Tree.kind (sound.handles_eq c)
  obtain ⟨n⟩ := id
  induction n using Nat.strongRecOn with
  | ind n ih =>
    rw [sound.handles_eq, Tree.Sorted, Tree.every_node_iff, Kind.sorted_map_iff,
      Kind.children_map, List.forall_mem_map]
    refine ⟨?_, fun c member => ih c.index (sound.older ⟨n⟩ c member)⟩
    refine (Kind.sorted_congr (fun c => ?_) (fun c => ?_) _).mp (sorted ⟨n⟩)
    all_goals simp [kind_handles]

theorem Sound.same_iff (sound : a.Sound) (sound' : b.Sound) (sorted : a.Sorted)
    (sorted' : b.Sorted) (x y : NodeId) : a.same x b y = true ↔ a.shape x = b.shape y := by
  rw [shape_eq_unmarked, shape_eq_unmarked]
  exact Tree.same_iff (sound.sorted_handles sorted x) (sound'.sorted_handles sorted' y)

/-- Where each node has its place, branches do. -/
theorem Sound.sorted (sound : a.Sound) (placed : ∀ id, ∃ slot, (a.tree id).stands slot = true) :
    a.Sorted := by
  intro id
  refine ⟨fun c member => ?_, fun c member => ?_⟩
  · have admits : Slot.elseIf.admits (a.kind c) = true := by
      refine sound.admits_part placed (rfl : a.kind id = _) .elseIf fun slot => ?_
      cases kind : a.kind id <;> simp_all [Kind.clauses, Slot.parts]
    obtain ⟨e, b, kind⟩ := Slot.exists_of_admits_elseIf admits
    rw [kind]
    rfl
  · have admits : Slot.elseBlock.admits (a.kind c) = true := by
      refine sound.admits_part placed (rfl : a.kind id = _) .elseBlock fun slot => ?_
      cases kind : a.kind id <;> simp_all [Kind.lastBranch, Slot.parts]
    obtain ⟨b, kind⟩ := Slot.exists_of_admits_elseBlock admits
    rw [kind]
    rfl

/-- Whatever parses has its branches in order. -/
theorem sorted_of_parse {source : String} {t : SourceTree} (parsed : parse source = .ok t) :
    (ofTree t).Sorted :=
  (sound_ofTree t).sorted (exists_stands_ofTree (stands_of_parse parsed))

/-- Handles of the same nodes under other numbers unfold to the same tree. -/
theorem Sound.shape_of_renumbered (sound : a.Sound) (sound' : b.Sound) {f : NodeId → NodeId}
    {x : NodeId} (renumbered : ∀ i ∈ a.preorder x, b.kind (f i) = (a.kind i).map f) :
    b.shape (f x) = a.shape x := by
  obtain ⟨n⟩ := x
  induction n using Nat.strongRecOn with
  | ind n ih =>
    rw [sound.preorder_eq, List.forall_mem_cons, List.forall_mem_flatMap] at renumbered
    obtain ⟨here, below⟩ := renumbered
    rw [shape, shape, sound.unfold_eq, sound'.unfold_eq, here, Kind.map_map]
    refine congrArg (Tree.node ()) (Kind.map_congr _ fun c member => ?_)
    exact ih c.index (sound.older ⟨n⟩ c member) (below c member)

end Arena

/-- A handle of an arena that calls can make and that has its branches in order. -/
structure Subtree where
  arena : Arena
  root : NodeId
  reached : arena.Reached
  sorted : arena.Sorted

namespace Subtree

variable (x y : Subtree)

/-- Whether two subtrees, of any arenas, are the same. -/
def same : Bool :=
  x.arena.same x.root y.arena y.root

/-- The unfolded subtree, without handles and origins. -/
def shape : Tree Unit :=
  x.arena.shape x.root

/-- How two subtrees are compared, and what comes of it. -/
structure Compared : Prop where
  /-- Two nodes are compared first, then their children in pairs. -/
  step : x.same y =
    ((x.arena.kind x.root).sameShape (y.arena.kind y.root) &&
      (x.arena.children x.root).length == (y.arena.children y.root).length &&
      ((x.arena.children x.root).zip (y.arena.children y.root)).all fun p =>
        x.arena.same p.1 y.arena p.2)
  /-- Children are older, so that there is an end to it. -/
  older : ∀ c ∈ x.arena.children x.root, c.index < x.root.index
  unfolds : x.shape = .node () ((x.arena.kind x.root).map x.arena.shape)
  decides : x.same y = true ↔ x.shape = y.shape

/-- The nodes of one subtree are those of the other under other handles. -/
structure Renumbered (f : NodeId → NodeId) : Prop where
  root : y.root = f x.root
  kinds : ∀ id ∈ x.arena.preorder x.root, y.arena.kind (f id) = (x.arena.kind id).map f

theorem compared : x.Compared y where
  step := x.reached.sound.same_eq y.reached.sound x.root y.root
  older := x.reached.sound.older x.root
  unfolds := x.reached.sound.unfold_eq x.root _
  decides := x.reached.sound.same_iff y.reached.sound x.sorted y.sorted x.root y.root

end Subtree

/-- Comparing two subtrees comes to an end and tells whether they unfold to the same tree. It is an
equivalence therefore, across all arenas, for which handles, origins and parents do not count. -/
theorem same_decides_equality :
    (∀ x y : Subtree, x.Compared y) ∧ Equivalence (fun x y : Subtree => x.same y = true) ∧
      ∀ (x y : Subtree) (f : NodeId → NodeId), x.Renumbered y f → x.same y = true := by
  refine ⟨Subtree.compared, ⟨fun x => ?_, fun {x y} same => ?_, fun {x y z} first second => ?_⟩,
    fun x y f renumbered => ?_⟩
  · exact (x.compared x).decides.mpr rfl
  · exact (y.compared x).decides.mpr ((x.compared y).decides.mp same).symm
  · have left := (x.compared y).decides.mp first
    exact (x.compared z).decides.mpr (left.trans ((y.compared z).decides.mp second))
  · refine (x.compared y).decides.mpr ?_
    rw [Subtree.shape, Subtree.shape, renumbered.root]
    exact (x.reached.sound.shape_of_renumbered y.reached.sound renumbered.kinds).symm

open Arena Call in
/-- An `if` with all its branches, and the same behind another node and with other spans. -/
theorem same_chain_renumbered :
    let chain (n : Nat) (m : Origin) : List Call :=
      [.identifier "x", .block [], .identifier "y", .block [], .alloc (.elseIf ⟨n + 2⟩ ⟨n + 3⟩) m,
        .block [], .alloc (.elseBlock ⟨n + 5⟩) m,
        .alloc (.ifChain ⟨n⟩ ⟨n + 1⟩ [⟨n + 4⟩] (some ⟨n + 6⟩)) m]
    let a := (chain 0 default).foldl (fun a c => c.after a) empty
    let b := (.nil :: chain 1 (.ofSpan ⟨0, 9, ⟨1, 1⟩, ⟨2, 4⟩⟩)).foldl (fun a c => c.after a) empty
    Reached a ∧ Reached b ∧ a.Sorted ∧ b.Sorted ∧ a.same ⟨7⟩ b ⟨8⟩ = true ∧
      a.shape ⟨7⟩ = b.shape ⟨8⟩ ∧ a.shape ⟨7⟩ ≠ b.shape ⟨5⟩ := by
  intro chain a b
  have reached : Reached a := by
    repeat refine .step ?_ ⟨_, by decide, rfl⟩
    exact .empty
  have reached' : Reached b := by
    repeat refine .step ?_ ⟨_, by decide, rfl⟩
    exact .empty
  have sorted : a.Sorted := by decide +kernel
  have sorted' : b.Sorted := by decide +kernel
  have kinds : ∀ id ∈ a.preorder ⟨7⟩,
      b.kind ⟨id.index + 1⟩ = (a.kind id).map fun id => ⟨id.index + 1⟩ := by decide +kernel
  have different : a.same ⟨7⟩ b ⟨5⟩ = false := by decide +kernel
  obtain ⟨compared, -, copies⟩ := same_decides_equality
  let x : Subtree := ⟨a, ⟨7⟩, reached, sorted⟩
  have same := copies x ⟨b, ⟨8⟩, reached', sorted'⟩ (fun id => ⟨id.index + 1⟩) ⟨rfl, kinds⟩
  refine ⟨reached, reached', sorted, sorted', same, (compared x _).decides.mp same, fun equal => ?_⟩
  have other : a.same ⟨7⟩ b ⟨5⟩ = true :=
    (compared x ⟨b, ⟨5⟩, reached', sorted'⟩).decides.mpr equal
  exact Bool.false_ne_true (different.symm.trans other)

end LuaTree
