import LuaTree.Proofs.Sharing
import LuaTree.Proofs.OutlineRows
import LuaTree.Proofs.Scrolling

/-!
# The key that selects the parent

The explorer looks for the parent of the selected node along the link up, and for
the row of the parent by its handle. In the arena of a tree every node has one
row, and its link up goes to the node that names it. The key therefore selects
the row below which the selected row is nested (`jump_of_pos`), and leads to the
first row in as many steps as the selected row is deep.
-/

namespace LuaTree.Explorer

open Arena OutlineRow

variable {e : Explorer} {t : SourceTree}

/-- How deep the selected row is. -/
def depth (e : Explorer) : Nat :=
  (e.rows[e.selected]?.map OutlineRow.depth).getD 0

/-- Press the key that selects the parent. -/
def jump (e : Explorer) : Explorer :=
  e.press (.char 'p')

/-- The explorer shows a tree, and one of its rows is selected. -/
structure Browses (e : Explorer) (t : SourceTree) : Prop where
  arena : e.arena = ofTree t
  rows : e.rows = (ofTree t).outlineRows (top t)
  inside : e.selected < e.rows.length

theorem arena_press (e : Explorer) (key : Key) : (e.press key).arena = e.arena := by
  have moves (row line : Nat) : (e.move row line).arena = e.arena := by
    unfold move
    split <;> rfl
  unfold press
  split
  case h_11 =>
    unfold selectParent
    dsimp only
    split <;> rfl
  all_goals first | rfl | exact moves _ _

theorem Session.arena_eq {arena : Arena} {source : String} (session : Session arena source e) :
    e.arena = arena := by
  induction session with
  | start => rfl
  | redraw _ _ _ ih => exact ih
  | press _ _ _ _ ih => exact (arena_press _ _).trans ih

/-- A session over a tree shows it all the time. -/
theorem Session.browses {source : String} (session : Session (ofTree t) source e) :
    e.Browses t := by
  have rows : e.rows = (ofTree t).outlineRows (top t) := session.valid.outline
  refine ⟨session.arena_eq, rows, session.valid.selection.resolve_right fun none => ?_⟩
  have first := ((sound_ofTree t).outlines (top t)).first
  rw [← rows, none.1] at first
  cases first

namespace Browses

variable (browses : e.Browses t)

include browses

theorem outlines : (ofTree t).Outlines (top t) e.rows :=
  browses.rows ▸ (sound_ofTree t).outlines (top t)

theorem node_inj {i j : Nat} (inside : i < e.rows.length) (inside' : j < e.rows.length)
    (same : e.rows[i].node = e.rows[j].node) : i = j := by
  have distinct : (e.rows.map OutlineRow.node).Nodup := by
    rw [browses.outlines.nodes]
    exact nodup_preorder_ofTree t
  have bound : i < (e.rows.map OutlineRow.node).length := by simpa
  have bound' : j < (e.rows.map OutlineRow.node).length := by simpa
  have mapped : (e.rows.map OutlineRow.node)[i] = (e.rows.map OutlineRow.node)[j] := by
    simpa using same
  exact distinct.getElem_inj_iff.mp mapped

/-- The row of a node is found by its handle. -/
theorem findIdx?_node {j : Nat} (inside : j < e.rows.length) :
    e.rows.findIdx? (fun row => row.node == e.rows[j].node) = some j := by
  rw [List.findIdx?_eq_some_iff_getElem]
  refine ⟨inside, by simp, fun k before => ?_⟩
  rw [beq_iff_eq]
  intro same
  exact Nat.ne_of_lt before (browses.node_inj (by omega) inside same)

/-- The link up from the selected node and the search for a row meet the row above that the
selected one is nested below. -/
theorem jump_of_pos (later : 0 < e.selected) :
    ∃ j, Nests e.rows j e.selected ∧ e.jump.selected = j ∧
      e.jump = { e.select j with status := "Jumped to parent" } := by
  have inside := browses.inside
  obtain ⟨j, before, nests, named⟩ := browses.outlines.parent e.selected inside later
  have adopted : e.arena.parent e.rows[e.selected].node = some e.rows[j].node := by
    rw [browses.arena]
    exact (parent_ofTree _ _).mpr named
  have found := browses.findIdx?_node (Nat.lt_trans before inside)
  have jump : e.jump = { e.select j with status := "Jumped to parent" } := by
    simp [jump, press, selectParent, selectedNode?, List.getElem?_eq_getElem inside, adopted, found]
  refine ⟨j, nests, ?_, jump⟩
  rw [jump]
  exact Nat.min_eq_left (by omega)

theorem place_of_first (first : e.selected = 0) :
    e.rows[e.selected]?.map place = some (0, top t) := by
  rw [first, ← List.head?_eq_getElem?]
  exact browses.outlines.first

/-- The first row is that of the root, which has no parent. -/
theorem jump_of_first (first : e.selected = 0) :
    e.jump = { e with status := "Already at the root" } := by
  have node : e.selectedNode? = some (top t) := by
    have placed := congrArg (Option.map Prod.snd) (browses.place_of_first first)
    rwa [Option.map_map] at placed
  have free : e.arena.parent (top t) = none := by
    rw [browses.arena, parent_top]
  simp [jump, press, selectParent, node, free]

theorem depth_of_first (first : e.selected = 0) : e.depth = 0 := by
  have placed := congrArg (Option.map Prod.fst) (browses.place_of_first first)
  rw [Option.map_map] at placed
  rw [depth]
  exact congrArg (·.getD 0) placed

/-- In one step the key leads up by one, unless the first row is selected. -/
theorem step : e.jump.Browses t ∧ e.jump.depth = e.depth - 1 ∧
    (e.depth = 0 ↔ e.selected = 0) := by
  obtain first | later := Nat.eq_zero_or_pos e.selected
  · have top := browses.depth_of_first first
    have same : e.jump.depth = e.depth := by
      rw [browses.jump_of_first first]
      rfl
    refine ⟨?_, by omega, iff_of_true top first⟩
    rw [browses.jump_of_first first]
    exact ⟨browses.arena, browses.rows, browses.inside⟩
  · obtain ⟨j, ⟨before, inside, step, -⟩, selected, jump⟩ := browses.jump_of_pos later
    have here : e.depth = e.rows[e.selected].depth := by
      rw [depth, List.getElem?_eq_getElem inside]
      rfl
    have rows : e.jump.rows = e.rows := by rw [jump]; rfl
    have arena : e.jump.arena = e.arena := by rw [jump]; rfl
    have there : e.jump.depth = e.rows[j].depth := by
      rw [depth, rows, selected, List.getElem?_eq_getElem (Nat.lt_trans before inside)]
      rfl
    refine ⟨⟨arena.trans browses.arena, rows.trans browses.rows, ?_⟩, by omega, by omega⟩
    rw [rows, selected]
    exact Nat.lt_trans before inside

/-- Each press takes one off the depth until there is none left. -/
theorem iterate (n : Nat) : (Explorer.jump^[n] e).Browses t ∧
    (Explorer.jump^[n] e).depth = e.depth - n := by
  induction n with
  | zero => exact ⟨browses, rfl⟩
  | succ n ih =>
    obtain ⟨browses, depth⟩ := ih
    obtain ⟨browses', depth', -⟩ := browses.step
    rw [Function.iterate_succ_apply']
    exact ⟨browses', by omega⟩

end Browses

/-- Over the outline of a tree the key selects the row that the selected one is nested below,
whatever pane has the focus, and leaves the first row selected. It takes as many steps to the first
row as the selected row is deep. -/
theorem jump_follows_outline (browses : e.Browses t) :
    (0 < e.depth → ∃ j, Nests e.rows j e.selected ∧ e.jump.selected = j) ∧
      (e.depth = 0 → e.jump.selected = e.selected) ∧
      ∀ n, (Explorer.jump^[n] e).selected = 0 ↔ e.depth ≤ n := by
  obtain ⟨-, -, top⟩ := browses.step
  refine ⟨fun deep => ?_, fun shallow => ?_, fun n => ?_⟩
  · obtain ⟨j, nests, selected, -⟩ := browses.jump_of_pos (by omega)
    exact ⟨j, nests, selected⟩
  · rw [browses.jump_of_first (top.mp shallow)]
  · obtain ⟨later, depth⟩ := browses.iterate n
    rw [← later.step.2.2, depth]
    omega

/-- From the value of a declaration, selected by the end key before the pane is changed, three steps
lead to the program, and two do not. -/
theorem jump_follows_outline_local :
    ∃ t, parse "local x = 1" = .ok t ∧
      let e := (((start (ofTree t) "local x = 1").settle 9 9).press .last |>.settle 9 9).press .tab
      e.Browses t ∧ e.focus = .source ∧ e.depth = 3 ∧ (Explorer.jump^[3] e).selected = 0 ∧
        (Explorer.jump^[2] e).selected ≠ 0 := by
  obtain ⟨t, parsed⟩ : ∃ t, parse "local x = 1" = .ok t := exists_parse (by decide +kernel)
  have depth : ((parse "local x = 1").toOption.map fun t =>
      let e := (((start (ofTree t) "local x = 1").settle 9 9).press .last |>.settle 9 9).press .tab
      e.depth) = some 3 := by
    decide +kernel
  rw [parsed] at depth
  refine ⟨t, parsed, ?_⟩
  intro e
  have session : Session (ofTree t) "local x = 1" e := .press (.press .start 9 9 .last) 9 9 .tab
  have deep : e.depth = 3 := Option.some.inj depth
  obtain ⟨-, -, steps⟩ := jump_follows_outline session.browses
  exact ⟨session.browses, rfl, deep, (steps 3).mpr (by omega), (steps 2).not.mpr (by omega)⟩

end LuaTree.Explorer
