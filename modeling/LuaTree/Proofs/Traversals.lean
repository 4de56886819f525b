import LuaTree.Proofs.Grafting

/-!
# Traversals

A node is its frame with its children in it, so that other children can be put in
the places of the old ones (`refill`). Traversing a node and listing its children
are two accounts of the same fields: in every lawful monad a traversal visits the
children in their order, each once, and puts the results in their places
(`traverse_eq`).
-/

namespace LuaTree.Kind

variable {α β γ : Type}

/-- Give out the values of a list one by one. -/
def handOut (spare : β) (_ : α) : StateM (List β) β :=
  fun values => (values.headD spare, values.tail)

theorem walk_handOut (spare : β) (f : β → α) (ys : List β) :
    (walk (handOut spare) (ys.map f) ys).1 = ys.map fun y => (f y, y) := by
  induction ys with
  | nil => rfl
  | cons y ys ih => simpa [walk, handOut] using ih

/-- Other values can take the place of the children of a node, one for each. -/
theorem exists_map_eq (spare : β) {f : β → α} {k : Kind α} {ys : List β}
    (same : ys.map f = k.children) : ∃ q : Kind β, q.map f = k ∧ q.children = ys := by
  obtain ⟨p, pairs, children, -⟩ := traverse_run (handOut spare) k ys
  rw [← same, walk_handOut] at children
  refine ⟨p.map Prod.snd, ?_, ?_⟩
  · rw [map_map, ← pairs]
    refine map_congr p fun x member => ?_
    rw [children, List.mem_map] at member
    obtain ⟨y, -, rfl⟩ := member
    rfl
  · rw [children_map, children, List.map_map]
    exact List.map_id ys

/-- The node without its children: what it is, its operator, name, value or style, how long its
lists are and which of its optional children it has. -/
def frame (k : Kind α) : Kind Unit :=
  k.map fun _ => ()

theorem frame_map (f : α → β) (k : Kind α) : (k.map f).frame = k.frame := by
  rw [frame, map_map]
  rfl

section Refill

variable [Inhabited β]

/-- The node with other children, taken from a list in order. -/
def refill (k : Kind α) (ys : List β) : Kind β :=
  (k.traverse (handOut default) (List.mapM (handOut default)) ys).1

theorem refill_map (f : α → γ) (k : Kind α) (ys : List β) :
    (k.map f).refill ys = k.refill ys := by
  have many : (fun xs : List α => (xs.map f).mapM (handOut (default : β))) =
      List.mapM (handOut default) := funext fun _ => List.mapM_map
  rw [refill, refill, traverse_map, many]
  rfl

theorem refill_children (k : Kind β) : k.refill k.children = k := by
  obtain ⟨p, pairs, children, run⟩ := traverse_run (handOut (default : β)) k k.children
  have diagonal := walk_handOut (default : β) id k.children
  rw [List.map_id] at diagonal
  rw [diagonal] at children
  rw [refill, run]
  change p.map Prod.snd = k
  rw [← pairs]
  refine map_congr p fun x member => ?_
  rw [children] at member
  obtain ⟨y, -, rfl⟩ := List.mem_map.mp member
  rfl

/-- The frame of a node and its children are all of it. -/
theorem refill_eq {k : Kind α} {l : Kind β} (same : l.frame = k.frame) :
    k.refill l.children = l := by
  rw [← refill_map (fun _ => ()) k, ← frame, ← same, frame, refill_map, refill_children]

theorem children_refill {k : Kind α} {ys : List β} (same : ys.length = k.children.length) :
    (k.refill ys).children = ys ∧ (k.refill ys).frame = k.frame := by
  have count : ys.length = k.frame.children.length := by
    rw [frame, children_map, List.length_map, same]
  obtain ⟨q, frames, children⟩ :=
    exists_map_eq default (List.map_fst_zip (Nat.le_of_eq count.symm))
  have filled : (q.map Prod.snd).children = ys := by
    rw [children_map, children, List.map_snd_zip (Nat.le_of_eq count)]
  have framed : (q.map Prod.snd).frame = k.frame := by
    rw [frame_map, ← frame_map Prod.fst, frames]
    exact frame_map _ k
  rw [← filled, refill_eq framed]
  exact ⟨rfl, framed⟩

end Refill

section Order

variable {m : Type → Type} [Monad m] [LawfulMonad m]

/-- What follows a visit of all members of a list need only be told for as many results. -/
theorem mapM_bind_congr {f : α → m β} {xs : List α} {g h : List β → m γ}
    (same : ∀ ys, ys.length = xs.length → g ys = h ys) :
    xs.mapM f >>= g = xs.mapM f >>= h := by
  induction xs generalizing g h with
  | nil => simpa using same [] rfl
  | cons x xs ih =>
    simp only [List.mapM_cons, bind_assoc, pure_bind]
    refine bind_congr fun y => ih fun ys length => same (y :: ys) ?_
    rw [List.length_cons, List.length_cons, length]

theorem units_eq {xs : List α} {ys : List β} (same : ys.length = xs.length) :
    ys.map (fun _ => ()) = xs.map fun _ => () := by
  rw [List.map_const', List.map_const', same]

/-- A child that may be missing is visited like a list of at most one. -/
theorem mapM_option_bind_congr {f : α → m β} {o : Option α} {g : Option β → m γ}
    {h : List β → m γ}
    (same : ∀ c : Option β, c.map (fun _ => ()) = o.map (fun _ => ()) → g c = h c.toList) :
    o.mapM f >>= g = o.toList.mapM f >>= h := by
  cases o with
  | none => simpa using same none rfl
  | some x => simpa using bind_congr fun y => same (some y) rfl

/-- To traverse a node is to visit its children in order, each once, and to put the results in their
places. -/
theorem traverse_eq [Inhabited β] (f : α → m β) (k : Kind α) :
    k.traverse f (List.mapM f) = (do
      let ys ← k.children.mapM f
      return k.refill ys) := by
  have filled {l : Kind β} (same : l.frame = k.frame) :
      (pure l : m (Kind β)) = pure (k.refill l.children) := by rw [refill_eq same]
  cases k <;> simp only [traverse, children, List.cons_append, List.mapM_append, List.mapM_cons,
    List.mapM_nil, bind_assoc, pure_bind]
  case breaking | continuing | identifier | literal | varArg => exact filled rfl
  case chunk | doBlock | elseBlock | expressionStatement | unary | paren =>
    exact bind_congr fun _ => filled rfl
  case compoundAssignment | elseIf | whileLoop | repeatLoop | binary | methodName | access =>
    exact bind_congr fun _ => bind_congr fun _ => filled rfl
  case block | returning | table =>
    refine mapM_bind_congr fun ys length => filled ?_
    rw [frame, frame, map, map, units_eq length]
  case functionCall =>
    refine bind_congr fun _ => mapM_bind_congr fun ys length => filled ?_
    rw [frame, frame, map, map, units_eq length]
  case methodCall =>
    refine bind_congr fun _ => bind_congr fun _ => mapM_bind_congr fun ys length => filled ?_
    rw [frame, frame, map, map, units_eq length]
  case assignment | localNames =>
    refine mapM_bind_congr fun xs first => mapM_bind_congr fun ys second => filled ?_
    rw [frame, frame, map, map, units_eq first, units_eq second]
  case genericFor =>
    refine mapM_bind_congr fun xs first => mapM_bind_congr fun ys second => bind_congr fun _ =>
      filled ?_
    rw [frame, frame, map, map, units_eq first, units_eq second]
  case anonymousFunction =>
    refine mapM_bind_congr fun ys length => bind_congr fun _ => filled ?_
    rw [frame, frame, map, map, units_eq length]
  case localFunction | function =>
    refine bind_congr fun _ => mapM_bind_congr fun ys length => bind_congr fun _ => filled ?_
    rw [frame, frame, map, map, units_eq length]
  case ifChain =>
    refine bind_congr fun _ => bind_congr fun _ => mapM_bind_congr fun ys length =>
      mapM_option_bind_congr fun c units => filled ?_
    rw [frame, frame, map, map, units_eq length, units]
  case numericFor =>
    refine bind_congr fun _ => bind_congr fun _ => bind_congr fun _ => ?_
    refine mapM_option_bind_congr fun c units => bind_congr fun _ => filled ?_
    rw [frame, frame, map, map, units]
  case field =>
    refine mapM_option_bind_congr fun c units => bind_congr fun _ => filled ?_
    rw [frame, frame, map, map, units]

end Order

end LuaTree.Kind
