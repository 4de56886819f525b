import LuaTree.Proofs.Building
import LuaTree.Proofs.Parsed
import LuaTree.Proofs.Sharing

/-!
# The numbers of the nodes of a program

A program that is parsed into an arena has no nodes there but those of its tree,
each behind its children (`build_eq`). The handles are therefore the numbers of
the nodes in a walk that visits children first, from left to right
(`numbered_of_parse`): no place of the arena is unused, no node is met twice, and
the root comes last. As every node has one place in the walk, it has one parent,
and that is the node that names it.
-/

namespace LuaTree.Arena

/-- The node and all below it, each after its children. -/
def postorder (a : Arena) (id : NodeId) : List NodeId :=
  (a.handles id).postorder

theorem Sound.postorder_eq {a : Arena} (sound : a.Sound) (id : NodeId) :
    a.postorder id = (a.children id).flatMap a.postorder ++ [id] := by
  have unfolded : a.postorder id = (Tree.node id ((a.kind id).map a.handles)).postorder := by
    rw [postorder, sound.handles_eq]
  rw [unfolded, Tree.postorder_node, Kind.children_map, List.map_map, ← List.flatMap_def]
  rfl

/-- The walk that visits children first meets all places of the arena in their order, and the links
up are the links down. -/
structure Numbered (a : Arena) (root : NodeId) : Prop where
  current : a.root = some root
  chunk : ∃ block, a.kind root = .chunk block
  walk : ∀ id, a.postorder id = (a.children id).flatMap a.postorder ++ [id]
  order : a.postorder root = (List.range a.size).map NodeId.mk
  last : root.index + 1 = a.size
  parent : ∀ c p, a.parent c = some p ↔ c ∈ a.children p
  top : a.parent root = none

variable {t : SourceTree}

/-- The last place of the walk is the root's, and its number is one less than the number of
places. -/
theorem top_add_one (t : SourceTree) : (top t).index + 1 = (ofTree t).size := by
  have order : (ofTree t).postorder (top t) = (List.range (ofTree t).size).map NodeId.mk :=
    postorder_ofTree t
  rw [(sound_ofTree t).postorder_eq] at order
  have inside := top_lt_size t
  obtain ⟨n, count⟩ : ∃ n, (ofTree t).size = n + 1 := ⟨(ofTree t).size - 1, by omega⟩
  rw [count, List.range_succ, List.map_append] at order
  have final := (List.append_inj' order (by simp)).2
  have same : (top t).index = n := congrArg NodeId.index (List.singleton_inj.mp final)
  omega

theorem kind_top_of_parseTokens {tokens : List Token} {comments : List Comment}
    (parsed : parseTokens tokens comments = .ok t) :
    ∃ block, (ofTree t).kind (top t) = .chunk block := by
  obtain ⟨c', chunk⟩ := parseTokens_ok_iff.mp parsed
  have tree := tree_ofTree t
  rw [(sound_ofTree t).tree_eq] at tree
  cases chunk with
  | intro readBody stop =>
    have kind := (Tree.node.inj tree).2
    generalize (ofTree _).kind (top _) = k at kind
    cases k <;> first | exact ⟨_, rfl⟩ | cases kind

theorem numbered_ofTree {tokens : List Token} {comments : List Comment}
    (parsed : parseTokens tokens comments = .ok t) : (ofTree t).Numbered (top t) where
  current := root_ofTree t
  chunk := kind_top_of_parseTokens parsed
  walk := (sound_ofTree t).postorder_eq
  order := postorder_ofTree t
  last := top_add_one t
  parent := parent_ofTree
  top := parent_top t

/-- The handles of the nodes of a program that has been parsed into an arena are their numbers in a
walk through the children, whether the program comes as a text or as any list of tokens. -/
theorem numbered_of_parse :
    (∀ source a, build source = .ok (.ok a) → ∃ root, a.Numbered root) ∧
      ∀ tokens comments a, buildTokens tokens comments = .ok (.ok a) → ∃ root, a.Numbered root := by
  constructor
  · intro source a built
    obtain ⟨t, parsed, rfl⟩ := build_ok_iff.mp built
    exact ⟨top t, numbered_ofTree parsed⟩
  · intro tokens comments a built
    obtain ⟨t, parsed, rfl⟩ := buildTokens_ok_iff.mp built
    exact ⟨top t, numbered_ofTree parsed⟩

/-- A program as a text, and one as tokens that stand nowhere. -/
theorem numbered_of_parse_twice :
    (∃ a root, build "local x = f(1, -y)" = .ok (.ok a) ∧ a.Numbered root) ∧
      ∃ a root, buildTokens [⟨.returnKw, "return", default⟩, ⟨.identifier, "x", default⟩] [] =
        .ok (.ok a) ∧ a.Numbered root := by
  constructor
  · obtain ⟨t, parsed⟩ : ∃ t, parse "local x = f(1, -y)" = .ok t := exists_parse (by decide +kernel)
    have built : build "local x = f(1, -y)" = .ok (.ok (ofTree t)) :=
      build_ok_iff.mpr ⟨t, parsed, rfl⟩
    obtain ⟨root, numbered⟩ := numbered_of_parse.1 _ _ built
    exact ⟨_, root, built, numbered⟩
  · obtain ⟨root, numbered⟩ := numbered_of_parse.2
      [⟨.returnKw, "return", default⟩, ⟨.identifier, "x", default⟩] [] _ rfl
    exact ⟨_, root, rfl, numbered⟩

end LuaTree.Arena
