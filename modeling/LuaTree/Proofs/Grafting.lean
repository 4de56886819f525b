import LuaTree.Proofs.Notes

/-!
# Trees in arenas

Grafting a tree onto an arena adds its nodes behind those that are there,
children before parents, and the handle it gives unfolds to the tree. The arena
of a tree therefore holds just that tree (`tree_ofTree`), its nodes in postorder
(`origin_ofTree`).
-/

namespace LuaTree

namespace Kind

variable {σ α β γ : Type}

/-- Run an action for each member of a list in turn, and pair the members with the results. -/
def walk (f : α → StateM σ β) : List α → σ → List (α × β) × σ
  | [], s => ([], s)
  | x :: xs, s => ((x, (f x s).1) :: (walk f xs (f x s).2).1, (walk f xs (f x s).2).2)

theorem walk_append (f : α → StateM σ β) (xs ys : List α) (s : σ) :
    walk f (xs ++ ys) s = ((walk f xs s).1 ++ (walk f ys (walk f xs s).2).1,
      (walk f ys (walk f xs s).2).2) := by
  induction xs generalizing s with
  | nil => rfl
  | cons x xs ih => simp [walk, ih]

theorem map_fst_walk (f : α → StateM σ β) (xs : List α) (s : σ) :
    (walk f xs s).1.map Prod.fst = xs := by
  induction xs generalizing s with
  | nil => rfl
  | cons x xs ih => simp [walk, ih]

theorem mapM_run (f : α → StateM σ β) (xs : List α) (s : σ) :
    xs.mapM f s = ((walk f xs s).1.map Prod.snd, (walk f xs s).2) := by
  induction xs generalizing s with
  | nil => rfl
  | cons x xs ih =>
    rw [List.mapM_cons]
    change (let p := f x s; let q := xs.mapM f p.2; (p.1 :: q.1, q.2)) = _
    simp [ih, walk]

/-- The node whose children are paired with the results of an action on each in turn. -/
theorem traverse_run (f : α → StateM σ β) (k : Kind α) (s : σ) :
    ∃ p : Kind (α × β), p.map Prod.fst = k ∧ p.children = (walk f k.children s).1 ∧
      k.traverse f (List.mapM f) s = (p.map Prod.snd, (walk f k.children s).2) := by
  have pairs := map_fst_walk f
  have many : List.mapM f = fun xs s => ((walk f xs s).1.map Prod.snd, (walk f xs s).2) :=
    funext fun xs => funext (mapM_run f xs)
  rw [many]
  cases k with
  | breaking => exact ⟨.breaking, rfl, rfl, rfl⟩
  | continuing => exact ⟨.continuing, rfl, rfl, rfl⟩
  | identifier n => exact ⟨.identifier n, rfl, rfl, rfl⟩
  | literal l => exact ⟨.literal l, rfl, rfl, rfl⟩
  | varArg => exact ⟨.varArg, rfl, rfl, rfl⟩
  | chunk b => exact ⟨.chunk (b, _), rfl, rfl, rfl⟩
  | doBlock b => exact ⟨.doBlock (b, _), rfl, rfl, rfl⟩
  | elseBlock b => exact ⟨.elseBlock (b, _), rfl, rfl, rfl⟩
  | expressionStatement e => exact ⟨.expressionStatement (e, _), rfl, rfl, rfl⟩
  | unary op e => exact ⟨.unary op (e, _), rfl, rfl, rfl⟩
  | paren e => exact ⟨.paren (e, _), rfl, rfl, rfl⟩
  | compoundAssignment op t v => exact ⟨.compoundAssignment op (t, _) (v, _), rfl, rfl, rfl⟩
  | elseIf e b => exact ⟨.elseIf (e, _) (b, _), rfl, rfl, rfl⟩
  | whileLoop e b => exact ⟨.whileLoop (e, _) (b, _), rfl, rfl, rfl⟩
  | repeatLoop b e => exact ⟨.repeatLoop (b, _) (e, _), rfl, rfl, rfl⟩
  | binary op l r => exact ⟨.binary op (l, _) (r, _), rfl, rfl, rfl⟩
  | methodName e n => exact ⟨.methodName (e, _) (n, _), rfl, rfl, rfl⟩
  | access style t e => exact ⟨.access style (t, _) (e, _), rfl, rfl, rfl⟩
  | block ss => exact ⟨.block _, congrArg block (pairs ss s), rfl, rfl⟩
  | returning vs => exact ⟨.returning _, congrArg returning (pairs vs s), rfl, rfl⟩
  | table fs => exact ⟨.table _, congrArg table (pairs fs s), rfl, rfl⟩
  | functionCall e args =>
    exact ⟨.functionCall (e, _) _, congrArg (functionCall e) (pairs args _), rfl, rfl⟩
  | methodCall e n args =>
    exact ⟨.methodCall (e, _) (n, _) _, congrArg (methodCall e n) (pairs args _), rfl, rfl⟩
  | assignment ts vs =>
    refine ⟨.assignment (walk f ts s).1 (walk f vs (walk f ts s).2).1, ?_⟩
    simp only [map, pairs, children, walk_append, true_and]
    rfl
  | localNames ns vs =>
    refine ⟨.localNames (walk f ns s).1 (walk f vs (walk f ns s).2).1, ?_⟩
    simp only [map, pairs, children, walk_append, true_and]
    rfl
  | genericFor ns es b =>
    refine ⟨.genericFor (walk f ns s).1 (walk f es (walk f ns s).2).1
      (b, (f b (walk f es (walk f ns s).2).2).1), ?_⟩
    simp only [map, pairs, children, walk_append, walk, true_and]
    rfl
  | anonymousFunction ps b =>
    refine ⟨.anonymousFunction (walk f ps s).1 (b, (f b (walk f ps s).2).1), ?_⟩
    simp only [map, pairs, children, walk_append, walk, true_and]
    rfl
  | localFunction n ps b =>
    refine ⟨.localFunction (n, (f n s).1) (walk f ps (f n s).2).1
      (b, (f b (walk f ps (f n s).2).2).1), ?_⟩
    simp only [map, pairs, children, List.cons_append, walk_append, walk, true_and]
    rfl
  | function n ps b =>
    refine ⟨.function (n, (f n s).1) (walk f ps (f n s).2).1
      (b, (f b (walk f ps (f n s).2).2).1), ?_⟩
    simp only [map, pairs, children, List.cons_append, walk_append, walk, true_and]
    rfl
  | ifChain e b clauses branch =>
    generalize first : (f b (f e s).2).2 = s₁
    cases branch with
    | none =>
      refine ⟨.ifChain (e, (f e s).1) (b, (f b (f e s).2).1) (walk f clauses s₁).1 none, ?_⟩
      simp only [map, pairs, children, Option.toList_none, List.append_nil, walk, Option.map_none,
        true_and, ← first]
      rfl
    | some t =>
      refine ⟨.ifChain (e, (f e s).1) (b, (f b (f e s).2).1) (walk f clauses s₁).1
        (some (t, (f t (walk f clauses s₁).2).1)), ?_⟩
      simp only [map, pairs, children, List.cons_append, Option.toList_some, walk_append, walk,
        Option.map_some, true_and, ← first]
      rfl
  | numericFor n e₁ e₂ e₃ b =>
    cases e₃ with
    | none => exact ⟨.numericFor (n, _) (e₁, _) (e₂, _) none (b, _), rfl, rfl, rfl⟩
    | some e => exact ⟨.numericFor (n, _) (e₁, _) (e₂, _) (some (e, _)) (b, _), rfl, rfl, rfl⟩
  | field style key e =>
    cases key with
    | none => exact ⟨.field style none (e, _), rfl, rfl, rfl⟩
    | some k => exact ⟨.field style (some (k, _)) (e, _), rfl, rfl, rfl⟩

theorem traverse_map {m : Type → Type} [Monad m] (g : γ → α) (one : α → m β)
    (many : List α → m (List β)) (k : Kind γ) :
    (k.map g).traverse one many = k.traverse (fun x => one (g x)) fun xs => many (xs.map g) := by
  cases k
  case ifChain e b clauses branch => cases branch <;> rfl
  case numericFor n e₁ e₂ e₃ b => cases e₃ <;> rfl
  case field style key e => cases key <;> rfl
  all_goals rfl

end Kind

namespace Tree

variable {ι κ : Type}

theorem postorder_node (m : ι) (k : Kind (Tree ι)) :
    postorder (.node m k) = (k.children.map postorder).flatten ++ [m] := by
  rw [postorder, fold_node, Kind.children_map]

theorem preorder_node (m : ι) (k : Kind (Tree ι)) :
    preorder (.node m k) = m :: (k.children.map preorder).flatten := by
  rw [preorder, fold_node, Kind.children_map]

theorem preorder_mapMark (f : ι → κ) (t : Tree ι) :
    (t.mapMark f).preorder = t.preorder.map f := by
  induction t using Tree.induct with
  | step m k ih =>
    have children : (k.children.map fun t => (t.mapMark f).preorder) =
        k.children.map fun t => t.preorder.map f := List.map_congr_left ih
    rw [mapMark_node, preorder_node, preorder_node, Kind.children_map, List.map_cons,
      List.map_flatten, List.map_map, List.map_map]
    exact congrArg (fun parts => f m :: parts.flatten) children

theorem postorder_mapMark (f : ι → κ) (t : Tree ι) :
    (t.mapMark f).postorder = t.postorder.map f := by
  induction t using Tree.induct with
  | step m k ih =>
    have children : (k.children.map fun t => (t.mapMark f).postorder) =
        k.children.map fun t => t.postorder.map f := List.map_congr_left ih
    rw [mapMark_node, postorder_node, postorder_node, Kind.children_map, List.map_append,
      List.map_flatten, List.map_map, List.map_map]
    exact congrArg (fun parts => parts.flatten ++ [f m]) children

end Tree

namespace Arena

/-- What the nodes of an arena are, apart from their parents. -/
def rows (a : Arena) : List (Origin × Kind NodeId) :=
  a.nodes.toList.map fun node => (node.origin, node.kind)

theorem length_rows (a : Arena) : a.rows.length = a.size := by
  simp [rows, size]

theorem rows_adopt (nodes : Array Node) (owner : NodeId) (children : List NodeId) :
    (adopt nodes owner children).toList.map (fun node => (node.origin, node.kind)) =
      nodes.toList.map fun node => (node.origin, node.kind) := by
  unfold adopt
  induction children generalizing nodes with
  | nil => rfl
  | cons child children ih =>
    rw [List.foldl_cons, ih]
    refine List.ext_getElem? fun i => ?_
    simp only [List.getElem?_map, Array.getElem?_toList, Array.getElem?_modify]
    split
    · cases nodes[i]? <;> rfl
    · rfl

@[simp] theorem rows_push (a : Arena) (m : Origin) (k : Kind NodeId) :
    (a.push m k).rows = a.rows ++ [(m, k)] := by
  simp [rows, push, rows_adopt]

theorem get_of_rows {a : Arena} {id : NodeId} {m : Origin} {k : Kind NodeId}
    (row : a.rows[id.index]? = some (m, k)) : a.origin id = m ∧ a.kind id = k := by
  simp only [rows, List.getElem?_map, Array.getElem?_toList, Option.map_eq_some_iff] at row
  obtain ⟨node, found, same⟩ := row
  obtain ⟨rfl, rfl⟩ := Prod.mk.inj same
  simp [origin, kind, get, Array.getD_eq_getD_getElem?, found]

theorem origin_eq (a : Arena) (id : NodeId) :
    a.origin id = ((a.rows.map Prod.fst)[id.index]?).getD default := by
  simp only [rows, List.map_map, List.getElem?_map, Array.getElem?_toList, origin, get,
    Array.getD_eq_getD_getElem?]
  cases a.nodes[id.index]? <;> rfl

theorem tree_eq (a : Arena) (id : NodeId) :
    a.tree id = .node (a.origin id) ((a.kind id).map fun child =>
      if child.index < id.index then a.tree child else .node (a.origin child) default) := by
  rw [tree, unfold]
  rfl

/-- A handle below which every later arena has the given tree. -/
def Holds (a : Arena) (t : SourceTree) (id : NodeId) : Prop :=
  id.index < a.size ∧ ∀ b : Arena, a.rows <+: b.rows → b.tree id = t

theorem Holds.mono {a b : Arena} {t : SourceTree} {id : NodeId} (holds : a.Holds t id)
    (more : a.rows <+: b.rows) : b.Holds t id := by
  refine ⟨?_, fun c later => holds.2 c (more.trans later)⟩
  have longer := more.length_le
  rw [length_rows, length_rows] at longer
  exact Nat.lt_of_lt_of_le holds.1 longer

/-- A new node over children that are there. -/
theorem holds_push {a : Arena} {m : Origin} {p : Kind (SourceTree × NodeId)}
    (children : ∀ x ∈ p.children, a.Holds x.1 x.2) :
    (a.push m (p.map Prod.snd)).Holds (.node m (p.map Prod.fst)) a.next := by
  refine ⟨by simp [next], fun b later => ?_⟩
  have row : b.rows[a.next.index]? = some (m, p.map Prod.snd) := by
    obtain ⟨more, same⟩ := later
    simp [← same, next, ← length_rows]
  obtain ⟨origin, kind⟩ := get_of_rows row
  rw [tree_eq, origin, kind, Kind.map_map]
  refine congrArg (Tree.node m) (Kind.map_congr p fun x member => ?_)
  obtain ⟨inside, unfolds⟩ := children x member
  have earlier : a.rows <+: b.rows := by
    rw [rows_push] at later
    exact (List.prefix_append _ _).trans later
  simp only [Function.comp_apply, next, if_pos inside, unfolds b earlier]

/-- The arena behind a grafted tree, or behind several. -/
structure Grafted (a b : Arena) (origins : List Origin) : Prop where
  rows : ∃ more, b.rows = a.rows ++ more ∧ more.map Prod.fst = origins
  root : b.root = a.root

theorem Grafted.trans {a b c : Arena} {first second : List Origin} (left : Grafted a b first)
    (right : Grafted b c second) : Grafted a c (first ++ second) := by
  obtain ⟨⟨more, rows, origins⟩, root⟩ := left
  obtain ⟨⟨more', rows', origins'⟩, root'⟩ := right
  refine ⟨⟨more ++ more', ?_, ?_⟩, root'.trans root⟩
  · rw [rows', rows, List.append_assoc]
  · rw [List.map_append, origins, origins']

theorem Grafted.isPrefix {a b : Arena} {origins : List Origin} (grafted : Grafted a b origins) :
    a.rows <+: b.rows := by
  obtain ⟨more, rows, -⟩ := grafted.rows
  exact rows ▸ List.prefix_append _ _

theorem graft_node (m : Origin) (k : Kind SourceTree) (a : Arena) :
    graft (.node m k) a =
      let (kind, b) := k.traverse graft (List.mapM graft) a
      (b.next, b.push m kind) := by
  have many : (fun ts : List SourceTree => List.mapM id (ts.map graft)) = List.mapM graft := by
    funext ts
    rw [List.mapM_map]
    rfl
  have step : graft (.node m k) = (do
      let kind ← (k.map graft).traverse id (List.mapM id)
      modifyGet fun a => (a.next, a.push m kind) : StateM Arena NodeId) := Tree.fold_node _ _ _
  rw [step, Kind.traverse_map, many]
  rfl

/-- Grafting trees one after another. -/
theorem walk_graft {ts : List SourceTree}
    (each : ∀ t ∈ ts, ∀ a, Grafted a (graft t a).2 t.postorder ∧
      (graft t a).2.Holds t (graft t a).1) (a : Arena) :
    Grafted a (Kind.walk graft ts a).2 (ts.map Tree.postorder).flatten ∧
      ∀ x ∈ (Kind.walk graft ts a).1, (Kind.walk graft ts a).2.Holds x.1 x.2 := by
  induction ts generalizing a with
  | nil => exact ⟨⟨⟨[], by simp [Kind.walk]⟩, rfl⟩, by simp [Kind.walk]⟩
  | cons t ts ih =>
    obtain ⟨first, others⟩ := List.forall_mem_cons.mp each
    obtain ⟨grafted, holds⟩ := first a
    obtain ⟨grafted', holds'⟩ := ih others (graft t a).2
    refine ⟨grafted.trans grafted', List.forall_mem_cons.mpr ⟨?_, holds'⟩⟩
    exact holds.mono grafted'.isPrefix

theorem graft_spec (t : SourceTree) (a : Arena) :
    Grafted a (graft t a).2 t.postorder ∧ (graft t a).2.Holds t (graft t a).1 := by
  induction t using Tree.induct generalizing a with
  | step m k ih =>
    obtain ⟨p, pairs, children, run⟩ := Kind.traverse_run graft k a
    obtain ⟨grafted, holds⟩ := walk_graft ih a
    rw [graft_node, run, Tree.postorder_node]
    refine ⟨grafted.trans ⟨⟨[_], rows_push _ _ _, rfl⟩, rfl⟩, ?_⟩
    have pushed := holds_push (m := m) (children ▸ holds)
    rwa [pairs] at pushed

/-- The handle of the whole tree in its arena. -/
def top (t : SourceTree) : NodeId :=
  (graft t empty).1

theorem root_ofTree (t : SourceTree) : (ofTree t).root = some (top t) :=
  rfl

@[simp] theorem tree_ofTree (t : SourceTree) : (ofTree t).tree (top t) = t :=
  (graft_spec t empty).2.2 (ofTree t) (List.prefix_refl _)

theorem origin_ofTree (t : SourceTree) (id : NodeId) :
    (ofTree t).origin id = (t.postorder[id.index]?).getD default := by
  obtain ⟨more, rows, origins⟩ := (graft_spec t empty).1.rows
  have all : (ofTree t).rows.map Prod.fst = t.postorder := by
    rw [← origins]
    exact congrArg (List.map Prod.fst) rows
  rw [origin_eq, all]

theorem size_ofTree (t : SourceTree) : (ofTree t).size = t.postorder.length := by
  obtain ⟨more, rows, origins⟩ := (graft_spec t empty).1.rows
  rw [← length_rows, ← origins, List.length_map]
  exact congrArg List.length rows

/-- What is equal of the origins in two trees is equal of all nodes of their arenas. -/
theorem map_origin_ofTree {α : Type} (f : Origin → α) {t u : SourceTree}
    (same : t.mapMark f = u.mapMark f) (id : NodeId) :
    f ((ofTree t).origin id) = f ((ofTree u).origin id) := by
  have byOrder (t : SourceTree) :
      f ((ofTree t).origin id) = ((t.mapMark f).postorder[id.index]?).getD (f default) := by
    rw [origin_ofTree, Tree.postorder_mapMark, List.getElem?_map]
    cases t.postorder[id.index]? <;> rfl
  rw [byOrder, byOrder, same]

/-- Equal notes on two trees are equal notes on all nodes of their arenas. -/
theorem notes_ofTree {t u : SourceTree} (same : t.notes = u.notes) (id : NodeId) :
    ((ofTree t).origin id).notes = ((ofTree u).origin id).notes :=
  map_origin_ofTree Origin.notes same id

end Arena

namespace Kind

variable {α β γ δ : Type}

theorem map_id (k : Kind α) : k.map id = k := by
  cases k <;> simp [map]

theorem sameShape_map (f : α → β) (g : γ → δ) (k : Kind α) (k' : Kind γ) :
    (k.map f).sameShape (k'.map g) = k.sameShape k' := by
  cases k <;> cases k' <;> first | rfl | simp [map, sameShape]

theorem sameShape_map_left (f : α → β) (k : Kind α) (k' : Kind γ) :
    (k.map f).sameShape k' = k.sameShape k' := by
  have mapped := sameShape_map f id k k'
  rwa [map_id] at mapped

theorem sameShape_self (k : Kind α) : k.sameShape k = true := by
  cases k <;> simp [sameShape, name]

end Kind

namespace Tree

variable {ι κ ι' κ' : Type}

theorem same_node (m : ι) (k : Kind (Tree ι)) (u : Tree κ) :
    (Tree.node m k).same u = (k.sameShape u.kind && k.children.length == u.children.length &&
      (List.zipWith same k.children u.children).all id) := by
  refine (congrFun (fold_node _ m k) u).trans ?_
  change ((k.map same).sameShape u.kind && (k.map same).children.length == u.children.length &&
    (List.zipWith (fun equal child => equal child) (k.map same).children u.children).all id) = _
  rw [Kind.sameShape_map_left, Kind.children_map, List.length_map, List.zipWith_map_left]

theorem same_mapMark (f : ι → ι') (g : κ → κ') (t : Tree ι) (u : Tree κ) :
    (t.mapMark f).same (u.mapMark g) = t.same u := by
  induction t using Tree.induct generalizing u with
  | step m k ih =>
    obtain ⟨m', k'⟩ := u
    rw [mapMark_node, mapMark_node, same_node, same_node]
    change (Kind.sameShape _ (k'.map _) && _ == (k'.map _).children.length &&
      (List.zipWith same _ (k'.map _).children).all id) = _
    rw [Kind.sameShape_map, Kind.children_map, Kind.children_map, List.length_map, List.length_map,
      List.zipWith_map]
    have children : List.zipWith (fun t u => (mapMark f t).same (mapMark g u)) k.children
        k'.children = List.zipWith same k.children k'.children := by
      have each := List.map_congr_left fun t member => funext fun u => ih t member u
      have zipped := congrArg (fun ps => List.zipWith (fun p u => p u) ps k'.children) each
      simpa only [List.zipWith_map_left] using zipped
    rw [children]
    rfl

theorem same_self (t : Tree ι) : t.same t = true := by
  induction t using Tree.induct with
  | step m k ih =>
    rw [same_node]
    change (k.sameShape k && k.children.length == k.children.length &&
      (List.zipWith same k.children k.children).all id) = true
    have children : (List.zipWith same k.children k.children).all id = true := by
      rw [List.zipWith_self, List.all_eq_true]
      intro b member
      obtain ⟨t, among, rfl⟩ := List.mem_map.mp member
      exact ih t among
    rw [Kind.sameShape_self, beq_self_eq_true, children]
    rfl

/-- Trees that can be marked alike are equal but for their marks. -/
theorem same_of_mapMark_eq {f : ι → ι'} {g : κ → ι'} {t : Tree ι} {u : Tree κ}
    (marked : t.mapMark f = u.mapMark g) : t.same u = true := by
  rw [← same_mapMark f g, marked, same_self]

end Tree

namespace Arena

theorem unfold_eq_mapMark {ι : Type} (a : Arena) (mark : NodeId → ι) (id : NodeId) :
    a.unfold mark id = (a.handles id).mapMark mark := by
  obtain ⟨n⟩ := id
  induction n using Nat.strongRecOn with
  | ind n ih =>
    rw [handles, unfold, unfold, Tree.mapMark_node, Kind.map_map]
    refine congrArg (Tree.node (mark ⟨n⟩)) (Kind.map_congr _ fun child member => ?_)
    simp only [Function.comp_apply]
    split
    · next smaller => exact ih child.index smaller
    · rw [Tree.mapMark_node]
      rfl

/-- Whether two handles have equal trees does not depend on handles. -/
theorem same_eq (a b : Arena) (x y : NodeId) : a.same x b y = (a.tree x).same (b.tree y) := by
  rw [same, tree, tree, unfold_eq_mapMark, unfold_eq_mapMark, Tree.same_mapMark]

end Arena

end LuaTree
