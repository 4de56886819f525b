import LuaTree.Outline
import LuaTree.Proofs.Parented
import Mathlib.Logic.Function.Iterate

/-!
# The rows of an outline

An outline lists the nodes of a tree in the order in which a stack of handles
meets them, and writes their depths beside them. Each row but the first stands
below the row of a node that names its own (`Nests`), and the rows below a row
that are one step deeper are the children of its node (`childRows`). The depths
and the handles therefore tell the tree, also where a node is shared.

The rows of a list of trees are made of the rows below the first of them and the
rows of the others. All facts about rows follow by induction on this
(`Sound.list_induct`).
-/

namespace LuaTree

section Lists

variable {α : Type}

/-- An element of two lists in a row is in the first or in the second. -/
theorem append_eq_append_cons {xs ys before after : List α} {x : α}
    (same : xs ++ ys = before ++ x :: after) :
    (∃ rest, xs = before ++ x :: rest ∧ after = rest ++ ys) ∨
      ∃ between, before = xs ++ between ∧ ys = between ++ x :: after := by
  obtain ⟨between, first, second⟩ | ⟨rest, first, second⟩ := List.append_eq_append_iff.mp same
  · exact .inr ⟨between, first, second⟩
  · cases rest with
    | nil => exact .inr ⟨[], by simpa using first.symm, by simpa using second.symm⟩
    | cons y rest =>
      obtain ⟨rfl, tail⟩ := List.cons.inj second
      exact .inl ⟨rest, first, tail⟩

theorem takeWhile_append_eq {p : α → Bool} {xs ys : List α} (all : ∀ x ∈ xs, p x)
    (stop : ∀ y ∈ ys.head?, p y = false) : (xs ++ ys).takeWhile p = xs := by
  rw [List.takeWhile_append_of_pos all]
  cases ys with
  | nil => simp
  | cons y ys => simp [stop y rfl]

end Lists

namespace OutlineRow

/-- Row `j` is the latest above row `i` that is one step less deep. -/
structure Nests (rows : List OutlineRow) (j i : Nat) : Prop where
  above : j < i
  inside : i < rows.length
  step : rows[j].depth + 1 = rows[i].depth
  latest : ∀ k (_ : j < k) (_ : k < i), rows[k].depth ≠ rows[j].depth

/-- The rows one step deeper than row `j`, between it and the next row that is no deeper than it. -/
def childRows (rows : List OutlineRow) (j : Nat) : List OutlineRow :=
  let depth := (rows[j]?.map OutlineRow.depth).getD 0
  ((rows.drop (j + 1)).takeWhile fun row => depth < row.depth).filter fun row =>
    row.depth = depth + 1

theorem exists_nests {rows first between : List OutlineRow} {parent : OutlineRow} {i : Nat}
    (inside : i < rows.length) (above : rows.take i = first ++ parent :: between)
    (step : parent.depth + 1 = rows[i].depth)
    (deep : ∀ other ∈ between, rows[i].depth ≤ other.depth) :
    ∃ j, ∃ _ : j < i, Nests rows j i ∧ rows[j] = parent := by
  have count : i = first.length + (between.length + 1) := by
    have lengths := congrArg List.length above
    simp only [List.length_take, List.length_append, List.length_cons] at lengths
    omega
  have taken (k : Nat) (before : k < i) : rows[k]? = (first ++ parent :: between)[k]? := by
    rw [← above, List.getElem?_take_of_lt before]
  have here : rows[first.length]? = some parent := by
    rw [taken _ (by omega)]
    simp
  have before : first.length < i := by omega
  have parent_eq : rows[first.length] = parent :=
    (List.getElem?_eq_some_iff.mp here).2
  refine ⟨first.length, before, ⟨before, inside, by rw [parent_eq, step], ?_⟩, parent_eq⟩
  intro k below above
  have there := taken k above
  rw [List.getElem?_append_right (Nat.le_of_lt below), List.getElem?_cons,
    if_neg (by omega), List.getElem?_eq_getElem (by omega)] at there
  have among := deep rows[k] (List.mem_of_getElem? there.symm)
  rw [parent_eq]
  omega

/-- What a row tells of the tree. -/
def place (row : OutlineRow) : Nat × NodeId :=
  (row.depth, row.node)

end OutlineRow

open OutlineRow

namespace Arena

variable {a b : Arena}

/-- The rows list the tree below a handle. -/
structure Outlines (a : Arena) (id : NodeId) (rows : List OutlineRow) : Prop where
  nodes : rows.map OutlineRow.node = a.preorder id
  first : (rows.head?.map place) = some (0, id)
  parent : ∀ i (_ : i < rows.length), 0 < i →
    ∃ j, ∃ _ : j < i, Nests rows j i ∧ rows[i].node ∈ a.children rows[j].node
  children : ∀ j (_ : j < rows.length),
    (childRows rows j).map OutlineRow.node = a.children rows[j].node

/-- The rows of the trees below several handles at one depth. -/
def outlineBelow (a : Arena) (ids : List NodeId) (depth : Nat) : List OutlineRow :=
  ids.flatMap fun id => (a.handles id).outlineFrom depth

theorem outlineRows_eq (a : Arena) (id : NodeId) : a.outlineRows id = a.outlineBelow [id] 0 := by
  rw [outlineBelow, List.flatMap_singleton, outlineRows]

theorem outlineBelow_nil (a : Arena) (depth : Nat) : a.outlineBelow [] depth = [] :=
  rfl

/-- Behind other rows a row is nested below one of a node that names its own; the rows between them
are no less deep than it is. -/
def NestsBehind (a : Arena) (before : List OutlineRow) (row : OutlineRow) : Prop :=
  ∃ first parent between, before = first ++ parent :: between ∧ parent.depth + 1 = row.depth ∧
    row.node ∈ a.children parent.node ∧ ∀ other ∈ between, row.depth ≤ other.depth

theorem NestsBehind.append {before : List OutlineRow} {row : OutlineRow}
    (nests : a.NestsBehind before row) (more : List OutlineRow) :
    a.NestsBehind (more ++ before) row := by
  obtain ⟨first, parent, between, rfl, rest⟩ := nests
  exact ⟨more ++ first, parent, between, (List.append_assoc _ _ _).symm, rest⟩

section Sound

variable (sound : a.Sound)

include sound

/-- What holds of the children of a node and of other nodes holds of these together with that node.
Links go to smaller indices, so that all lists are reached. -/
theorem Sound.list_induct {motive : List NodeId → Prop} (nil : motive [])
    (cons : ∀ id ids, motive (a.children id) → motive ids → motive (id :: ids))
    (ids : List NodeId) : motive ids := by
  have among (ids : List NodeId) (each : ∀ id ∈ ids, motive (a.children id)) : motive ids := by
    induction ids with
    | nil => exact nil
    | cons id ids ih =>
      obtain ⟨here, others⟩ := List.forall_mem_cons.mp each
      exact cons id ids here (ih others)
  have each (n : Nat) : motive (a.children ⟨n⟩) := by
    induction n using Nat.strongRecOn with
    | ind n ih => exact among _ fun c member => ih c.index (sound.older ⟨n⟩ c member)
  exact among ids fun id _ => each id.index

theorem Sound.outlineBelow_cons (id : NodeId) (ids : List NodeId) (depth : Nat) :
    a.outlineBelow (id :: ids) depth = ⟨depth, (a.kind id).label, id⟩ ::
      (a.outlineBelow (a.children id) (depth + 1) ++ a.outlineBelow ids depth) := by
  rw [outlineBelow, List.flatMap_cons, sound.handles_eq, Tree.outlineFrom, Tree.fold_node,
    Kind.children_map, Kind.children_map, List.flatMap_map, List.flatMap_map, Kind.label_map,
    Kind.label_map]
  rfl

theorem Sound.map_node_outlineBelow (ids : List NodeId) (depth : Nat) :
    (a.outlineBelow ids depth).map OutlineRow.node = ids.flatMap a.preorder := by
  induction ids using sound.list_induct generalizing depth with
  | nil => rfl
  | cons id ids children others =>
    rw [sound.outlineBelow_cons, List.map_cons, List.map_append, children, others,
      List.flatMap_cons, sound.preorder_eq, List.cons_append]

theorem Sound.le_depth {ids : List NodeId} {depth : Nat} :
    ∀ row ∈ a.outlineBelow ids depth, depth ≤ row.depth := by
  induction ids using sound.list_induct generalizing depth with
  | nil => simp [outlineBelow_nil]
  | cons id ids children others =>
    rw [sound.outlineBelow_cons]
    refine List.forall_mem_cons.mpr ⟨Nat.le_refl _, List.forall_mem_append.mpr ⟨?_, others⟩⟩
    exact fun row member => Nat.le_of_succ_le (children row member)

theorem Sound.depth_of_head {ids : List NodeId} {depth : Nat} :
    ∀ row ∈ (a.outlineBelow ids depth).head?, row.depth = depth := by
  cases ids with
  | nil => simp [outlineBelow_nil]
  | cons id ids => simp [sound.outlineBelow_cons]

/-- The rows of the roots. -/
theorem Sound.map_node_filter_depth (ids : List NodeId) (depth : Nat) :
    ((a.outlineBelow ids depth).filter fun row => row.depth = depth).map OutlineRow.node = ids := by
  induction ids using sound.list_induct generalizing depth with
  | nil => rfl
  | cons id ids _ others =>
    have deeper : (a.outlineBelow (a.children id) (depth + 1)).filter
        (fun row => row.depth = depth) = [] := by
      rw [List.filter_eq_nil_iff]
      intro row member
      have below := sound.le_depth row member
      simp only [decide_eq_true_eq]
      omega
    rw [sound.outlineBelow_cons, List.filter_cons_of_pos (by simp), List.filter_append, deeper,
      List.nil_append, List.map_cons, others]

/-- Behind a row stand the rows of the children of its node, and behind those a row that is no
deeper, if there is one. -/
theorem Sound.rows_behind {ids : List NodeId} {depth : Nat} {before after : List OutlineRow}
    {row : OutlineRow} (rows : a.outlineBelow ids depth = before ++ row :: after) :
    ∃ rest, after = a.outlineBelow (a.children row.node) (row.depth + 1) ++ rest ∧
      ∀ next ∈ rest.head?, next.depth ≤ row.depth := by
  induction ids using sound.list_induct generalizing depth before after with
  | nil => simp [outlineBelow_nil] at rows
  | cons id ids children others =>
    rw [sound.outlineBelow_cons] at rows
    cases before with
    | nil =>
      obtain ⟨rfl, rfl⟩ := List.cons.inj rows
      exact ⟨_, rfl, fun next head => Nat.le_of_eq (sound.depth_of_head next head)⟩
    | cons top before =>
      obtain ⟨rest, inner, rfl⟩ | ⟨between, -, inner⟩ :=
        append_eq_append_cons (List.cons.inj rows).2
      · -- behind the last row below the first root comes another root, or nothing
        obtain ⟨rest, rfl, stop⟩ := children inner
        refine ⟨rest ++ a.outlineBelow ids depth, List.append_assoc _ _ _, fun next head => ?_⟩
        cases rest with
        | nil =>
          have inside : row ∈ a.outlineBelow (a.children id) (depth + 1) := by simp [inner]
          have deep := sound.le_depth row inside
          have same := sound.depth_of_head next head
          omega
        | cons next' rest => exact stop next head
      · exact others inner

/-- A row that is not one of the roots is nested behind those above it. -/
theorem Sound.rows_above {ids : List NodeId} {depth : Nat} {before after : List OutlineRow}
    {row : OutlineRow} (rows : a.outlineBelow ids depth = before ++ row :: after) :
    row.depth = depth ∧ row.node ∈ ids ∨ a.NestsBehind before row := by
  induction ids using sound.list_induct generalizing depth before after with
  | nil => simp [outlineBelow_nil] at rows
  | cons id ids children others =>
    rw [sound.outlineBelow_cons] at rows
    cases before with
    | nil =>
      obtain ⟨rfl, -⟩ := List.cons.inj rows
      exact .inl ⟨rfl, List.mem_cons_self⟩
    | cons top before =>
      obtain ⟨rfl, tail⟩ := List.cons.inj rows
      obtain ⟨rest, inner, -⟩ | ⟨between, rfl, inner⟩ := append_eq_append_cons tail
      · refine .inr ?_
        obtain ⟨depth_eq, member⟩ | nests := children inner
        · -- a root of the inner list is a child of the node above it
          refine ⟨[], _, before, rfl, depth_eq.symm, member, fun other among => ?_⟩
          have below : other ∈ a.outlineBelow (a.children id) (depth + 1) := by
            simp [inner, among]
          rw [depth_eq]
          exact sound.le_depth other below
        · exact nests.append [_]
      · obtain ⟨depth_eq, member⟩ | nests := others inner
        · exact .inl ⟨depth_eq, List.mem_cons_of_mem id member⟩
        · exact .inr (nests.append (_ :: _))

/-- Only the first row stands at the depth of a single root. -/
theorem Sound.depth_pos {id : NodeId} {top row : OutlineRow} {before after : List OutlineRow}
    (rows : a.outlineBelow [id] 0 = top :: before ++ row :: after) : 0 < row.depth := by
  rw [sound.outlineBelow_cons, outlineBelow_nil, List.append_nil] at rows
  have below : row ∈ a.outlineBelow (a.children id) (0 + 1) := by
    simp [(List.cons.inj rows).2]
  exact sound.le_depth row below

/-- The rows below a handle fit together. -/
theorem Sound.outlines (id : NodeId) : a.Outlines id (a.outlineRows id) := by
  rw [outlineRows_eq]
  have split {i : Nat} (inside : i < (a.outlineBelow [id] 0).length) :
      a.outlineBelow [id] 0 = (a.outlineBelow [id] 0).take i ++
        (a.outlineBelow [id] 0)[i] :: (a.outlineBelow [id] 0).drop (i + 1) := by
    rw [List.getElem_cons_drop, List.take_append_drop]
  refine ⟨?_, ?_, fun i inside later => ?_, fun j inside => ?_⟩
  · rw [sound.map_node_outlineBelow, List.flatMap_singleton]
  · rw [sound.outlineBelow_cons]
    rfl
  · obtain ⟨top, -⟩ | ⟨first, parent, between, above, step, named, deep⟩ :=
      sound.rows_above (split inside)
    · cases above : (a.outlineBelow [id] 0).take i with
      | nil =>
        have count := congrArg List.length above
        simp only [List.length_take, List.length_nil] at count
        omega
      | cons first before =>
        have rows := split inside
        rw [above] at rows
        have positive := sound.depth_pos rows
        omega
    · obtain ⟨j, before, nests, same⟩ := exists_nests inside above step deep
      exact ⟨j, before, nests, same ▸ named⟩
  · obtain ⟨rest, behind, stop⟩ := sound.rows_behind (split inside)
    rw [childRows, behind, List.getElem?_eq_getElem inside]
    rw [takeWhile_append_eq ?_ ?_]
    · exact sound.map_node_filter_depth _ _
    · exact fun row member => decide_eq_true (sound.le_depth row member)
    · exact fun row head => decide_eq_false (Nat.not_lt_of_le (stop row head))

/-- The rows below the first of several handles end where the depth of that handle comes again. -/
theorem Sound.takeWhile_places (children ids : List NodeId) (depth : Nat) :
    ((a.outlineBelow children (depth + 1)).map place ++
        (a.outlineBelow ids depth).map place).takeWhile (fun x => depth < x.1) =
      (a.outlineBelow children (depth + 1)).map place := by
  refine takeWhile_append_eq ?_ ?_
  · rw [List.forall_mem_map]
    exact fun row member => decide_eq_true (sound.le_depth row member)
  · rw [List.head?_map]
    intro x found
    obtain ⟨row, head, rfl⟩ := Option.map_eq_some_iff.mp found
    exact decide_eq_false (Nat.not_lt_of_le (Nat.le_of_eq (sound.depth_of_head row head)))

/-- Equal places of rows come from equal trees. -/
theorem Sound.follow_of_places (sound' : b.Sound) {ids ids' : List NodeId} {depth : Nat}
    (same : (b.outlineBelow ids' depth).map place = (a.outlineBelow ids depth).map place) :
    ids' = ids ∧ ∀ id ∈ ids, ∀ path, b.follow id path = a.follow id path := by
  induction ids using sound.list_induct generalizing ids' depth with
  | nil =>
    cases ids' with
    | nil => simp
    | cons id' ids' => simp [sound'.outlineBelow_cons, outlineBelow_nil] at same
  | cons id ids children others =>
    cases ids' with
    | nil => simp [sound.outlineBelow_cons, outlineBelow_nil] at same
    | cons id' ids' =>
      rw [sound.outlineBelow_cons, sound'.outlineBelow_cons, List.map_cons, List.map_cons,
        List.map_append, List.map_append] at same
      obtain ⟨top, tail⟩ := List.cons.inj same
      obtain rfl : id' = id := congrArg Prod.snd top
      obtain ⟨inner, outer⟩ : (b.outlineBelow (b.children id') (depth + 1)).map place =
          (a.outlineBelow (a.children id') (depth + 1)).map place ∧
          (b.outlineBelow ids' depth).map place = (a.outlineBelow ids depth).map place := by
        -- the depths tell where the rows below the first node end
        have first := sound.takeWhile_places (a.children id') ids depth
        have first' := sound'.takeWhile_places (b.children id') ids' depth
        rw [tail, first] at first'
        exact ⟨first'.symm, List.append_cancel_left (first'.symm ▸ tail)⟩
      obtain ⟨named, below⟩ := children inner
      obtain ⟨rfl, beside⟩ := others outer
      refine ⟨rfl, List.forall_mem_cons.mpr ⟨fun path => ?_, beside⟩⟩
      cases path with
      | nil => rfl
      | cons i path =>
        rw [follow, follow, named]
        refine Option.bind_congr fun child at_i => ?_
        exact below child (List.mem_of_getElem? at_i) path

end Sound

end Arena

/-- The state of a walk: what was met so far, and what is still to come, the next handle last. -/
structure StackWalk where
  out : List NodeId
  stack : List NodeId

namespace StackWalk

/-- Take the last handle off the stack, note it, and leave its children in its place, the first of
them last. -/
def round (a : Arena) (w : StackWalk) : StackWalk :=
  match w.stack.getLast? with
  | none => w
  | some next => ⟨w.out ++ [next], w.stack.dropLast ++ (a.children next).reverse⟩

theorem round_concat (a : Arena) (out stack : List NodeId) (next : NodeId) :
    round a ⟨out, stack ++ [next]⟩ = ⟨out ++ [next], stack ++ (a.children next).reverse⟩ := by
  simp [round]

/-- As many rounds as there are nodes below some handles take these handles off the stack. -/
theorem iterate_round {a : Arena} (sound : a.Sound) (ids out stack : List NodeId) :
    (round a)^[(ids.flatMap a.preorder).length] ⟨out, stack ++ ids.reverse⟩ =
      ⟨out ++ ids.flatMap a.preorder, stack⟩ := by
  induction ids using sound.list_induct generalizing out stack with
  | nil => simp
  | cons id ids children others =>
    have order : (id :: ids).flatMap a.preorder =
        id :: ((a.children id).flatMap a.preorder ++ ids.flatMap a.preorder) := by
      rw [List.flatMap_cons, sound.preorder_eq, List.cons_append]
    rw [order, List.length_cons, List.length_append, Function.iterate_succ_apply,
      List.reverse_cons, ← List.append_assoc, round_concat, Nat.add_comm,
      Function.iterate_add_apply, children, others]
    simp

end StackWalk

/-- The state of a printer: the depth where it stands and the rows it has made. -/
structure Printer where
  depth : Nat
  rows : List OutlineRow

namespace Printer

/-- Make the row of a node and step down. -/
def note (a : Arena) (id : NodeId) (p : Printer) : Printer :=
  ⟨p.depth + 1, p.rows ++ [⟨p.depth, (a.kind id).label, id⟩]⟩

/-- Step up again. -/
def leave (p : Printer) : Printer :=
  { p with depth := p.depth - 1 }

/-- Make the row of a node, and one step deeper those of its children. A link that does not go to a
smaller index is not followed. -/
def enter (a : Arena) (id : NodeId) : StateM Printer Unit := do
  modify (note a id)
  forM (a.children id) fun child =>
    if child.index < id.index then enter a child else return
  modify leave
termination_by id.index

theorem enter_eq {a : Arena} (sound : a.Sound) (id : NodeId) :
    enter a id = (do
      modify (note a id)
      forM (a.children id) (enter a)
      modify leave) := by
  have visits (ids : List NodeId) (older : ∀ c ∈ ids, c.index < id.index) :
      (forM ids fun child => if child.index < id.index then enter a child else return) =
        forM ids (enter a) := by
    induction ids with
    | nil => rfl
    | cons c ids ih =>
      obtain ⟨first, others⟩ := List.forall_mem_cons.mp older
      rw [List.forM_cons, List.forM_cons, if_pos first, ih others]
  rw [enter, visits _ (sound.older id)]

theorem run_enter_all {a : Arena} (sound : a.Sound) (ids : List NodeId) (p : Printer) :
    (forM ids (enter a)).run p = ((), ⟨p.depth, p.rows ++ a.outlineBelow ids p.depth⟩) := by
  induction ids using sound.list_induct generalizing p with
  | nil =>
    rw [Arena.outlineBelow_nil, List.append_nil]
    rfl
  | cons id ids children others =>
    have step : (forM (id :: ids) (enter a)).run p =
        (forM ids (enter a)).run (leave ((forM (a.children id) (enter a)).run (note a id p)).2) := by
      rw [List.forM_cons, enter_eq sound]
      rfl
    rw [step, children, others, sound.outlineBelow_cons]
    simp [note, leave]

end Printer

namespace Arena

/-- In every arena that calls can make, the rows of an outline, written by a printer that counts
depth, list the nodes that a stack of handles meets, also where a node is met more than once. Each
row but the first is nested below that of a node that names its own, the rows nested directly below
a row are the children of its node, and depths and handles tell the tree. -/
theorem outlineRows_nest {a : Arena} (reached : Reached a) (id : NodeId) :
    a.Outlines id (a.outlineRows id) ∧
      (∃ rounds, (StackWalk.round a)^[rounds] ⟨[], [id]⟩ = ⟨a.preorder id, []⟩) ∧
      (Printer.enter a id).run ⟨0, []⟩ = ((), ⟨0, a.outlineRows id⟩) ∧
      ∀ b y, Reached b → (b.outlineRows y).map place = (a.outlineRows id).map place →
        y = id ∧ ∀ path, b.follow y path = a.follow id path := by
  have sound := reached.sound
  refine ⟨sound.outlines id, ?_, ?_, fun b y reached' same => ?_⟩
  · have rounds := StackWalk.iterate_round sound [id] [] []
    rw [List.flatMap_singleton] at rounds
    exact ⟨_, rounds⟩
  · have printed := Printer.run_enter_all sound [id] ⟨0, []⟩
    rw [List.forM_cons, List.forM_nil, bind_pure_unit] at printed
    rw [printed, outlineRows_eq, List.nil_append]
  · rw [outlineRows_eq, outlineRows_eq] at same
    obtain ⟨ids, follows⟩ := sound.follow_of_places reached'.sound same
    obtain rfl := List.singleton_inj.mp ids
    exact ⟨rfl, follows y List.mem_cons_self⟩

/-- A sum of two pairs of parentheses around one and the same name. -/
theorem outlineRows_nest_shared :
    let a := (Call.binary .add ⟨1⟩ ⟨2⟩).after ((Call.paren ⟨0⟩).after
      ((Call.paren ⟨0⟩).after ((Call.identifier "x").after empty)))
    Reached a ∧ a.Outlines ⟨3⟩ (a.outlineRows ⟨3⟩) ∧
      (a.outlineRows ⟨3⟩).map place = [(0, ⟨3⟩), (1, ⟨1⟩), (2, ⟨0⟩), (1, ⟨2⟩), (2, ⟨0⟩)] := by
  intro a
  have reached : Reached a := by
    refine .step (.step (.step (.step .empty ⟨.identifier "x", ?_, rfl⟩) ⟨.paren ⟨0⟩, ?_, rfl⟩)
      ⟨.paren ⟨0⟩, ?_, rfl⟩) ⟨.binary .add ⟨1⟩ ⟨2⟩, ?_, rfl⟩ <;> decide
  exact ⟨reached, (outlineRows_nest reached ⟨3⟩).1, by decide +kernel⟩

end Arena

end LuaTree
