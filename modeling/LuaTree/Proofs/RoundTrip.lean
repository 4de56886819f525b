import LuaTree.Proofs.Grafting
import LuaTree.Proofs.Parsed
import LuaTree.Proofs.Rereading

/-!
# Round trips through source text

A program that was parsed and is written again parses to the same tree. With
comments written, every node of the new tree has the comments of the old one, and
writing once more changes nothing.
-/

namespace LuaTree

open Arena

/-- Writing a parsed program and parsing the text gives the same tree. -/
theorem same_of_render_parse {source : String} {t : SourceTree}
    (terminated : isTerminated source = true) (parsed : parse source = .ok t) {o : Layout}
    (blank : o.IsBlank) :
    ∃ r u r', (ofTree t).root = some r ∧ parse ((ofTree t).render r o) = .ok u ∧
      (ofTree u).root = some r' ∧ (ofTree t).same r (ofTree u) r' = true := by
  obtain ⟨u, reparsed, notes⟩ := parse_render blank (writable_of_parse terminated parsed)
  refine ⟨top t, u, top u, root_ofTree t, ?_, root_ofTree u, ?_⟩
  · rw [render, tree_ofTree]
    exact reparsed
  · rw [same_eq, tree_ofTree, tree_ofTree]
    exact Tree.same_of_mapMark_eq notes.symm

/-- A program with a negated negation and a parenthesized call comes back. -/
theorem same_of_render_parse_negation :
    ∃ t r u r', parse "-- a\nlocal x = - -y -- b\n(f)(x)[2] = \x7b1; n = 2;\x7d" = .ok t ∧
      (ofTree t).root = some r ∧
      parse ((ofTree t).render r { semicolons := true, indent := "  " }) = .ok u ∧
      (ofTree u).root = some r' ∧ (ofTree t).same r (ofTree u) r' = true := by
  obtain ⟨t, parsed⟩ :
      ∃ t, parse "-- a\nlocal x = - -y -- b\n(f)(x)[2] = \x7b1; n = 2;\x7d" = .ok t :=
    exists_parse (by decide +kernel)
  obtain ⟨r, u, r', same⟩ := same_of_render_parse (by decide +kernel) parsed
    (o := { semicolons := true, indent := "  " }) (by decide)
  exact ⟨t, r, u, r', parsed, same⟩

/-- Writing a parsed program with its comments keeps every comment on its node, and writing the
program that is parsed from the text gives the same text. -/
theorem render_parse_render {source : String} {t : SourceTree}
    (terminated : isTerminated source = true) (parsed : parse source = .ok t) {o : Layout}
    (blank : o.IsBlank) (comments : o.comments = true) :
    ∃ r u r', (ofTree t).root = some r ∧ parse ((ofTree t).render r o) = .ok u ∧
      (ofTree u).root = some r' ∧ (ofTree u).size = (ofTree t).size ∧
      (∀ id, ((ofTree u).origin id).leading.map Comment.note =
          ((ofTree t).origin id).leading.map Comment.note ∧
        ((ofTree u).origin id).trailing.map Comment.note =
          ((ofTree t).origin id).trailing.map Comment.note) ∧
      (ofTree u).render r' o = (ofTree t).render r o := by
  obtain ⟨u, reparsed, outline⟩ := parse_render blank (writable_of_parse terminated parsed)
  have notes : u.notes = t.notes := by
    have all : o.kept = Origin.notes := by
      funext m
      rw [Layout.kept, if_pos comments]
    rw [outline, Layout.outline, all]
    rfl
  refine ⟨top t, u, top u, root_ofTree t, ?_, root_ofTree u, ?_, ?_, ?_⟩
  · rw [render, tree_ofTree]
    exact reparsed
  · have orders := congrArg (fun tree => tree.postorder.length) notes
    simpa only [Tree.notes, Tree.postorder_mapMark, List.length_map, size_ofTree] using orders
  · intro id
    exact Prod.mk.inj (notes_ofTree notes id)
  · rw [render, render, tree_ofTree, tree_ofTree, Tree.render, Tree.render, Layout.pieces,
      Layout.pieces, o.fragment_eq_of_notes notes]

/-- Comments inside an expression and before a semicolon move once and then stay. -/
theorem render_parse_render_moved :
    ∃ t r u r', parse "f( -- a\n  1) --[[b]] ; -- c\ndo -- d\nend" = .ok t ∧
      (ofTree t).root = some r ∧ parse ((ofTree t).render r {}) = .ok u ∧
      (ofTree u).root = some r' ∧ (ofTree u).size = (ofTree t).size ∧
      (∀ id, ((ofTree u).origin id).leading.map Comment.note =
          ((ofTree t).origin id).leading.map Comment.note ∧
        ((ofTree u).origin id).trailing.map Comment.note =
          ((ofTree t).origin id).trailing.map Comment.note) ∧
      (ofTree u).render r' {} = (ofTree t).render r {} := by
  obtain ⟨t, parsed⟩ : ∃ t, parse "f( -- a\n  1) --[[b]] ; -- c\ndo -- d\nend" = .ok t :=
    exists_parse (by decide +kernel)
  obtain ⟨r, u, r', fixed⟩ := render_parse_render (by decide +kernel) parsed (o := {})
    (by decide) rfl
  exact ⟨t, r, u, r', parsed, fixed⟩

end LuaTree
