import LuaTree.Proofs.Comparison
import LuaTree.Proofs.RoundTrip

/-!
# Written programs as normal forms

A layout writes the outline of a program and nothing else, and a text is read as the outline that
was written. Programs are therefore written alike just if their outlines are equal
(`render_eq_iff_outline`). Without comments an outline is a tree without its marks, so that
texts without comments are equal just if the programs are the same (`render_eq_iff_same`).
-/

namespace LuaTree

open Arena

variable {o : Layout} {t u : SourceTree}

/-- Without comments, an outline has no marks that tell nodes from others. -/
theorem Layout.outline_eq_iff_unmarked (silent : o.comments = false) :
    o.outline t = o.outline u ↔ t.unmarked = u.unmarked := by
  have blank (t : SourceTree) : o.outline t = t.unmarked.mapMark fun _ => ([], []) := by
    have kept : o.kept = fun _ => ([], []) := funext fun m => if_neg (by simp [silent])
    rw [outline, kept, Tree.unmarked, Tree.mapMark_mapMark]
  constructor
  · intro same
    have unmarked := congrArg Tree.unmarked same
    rwa [outline, outline, Tree.unmarked_mapMark, Tree.unmarked_mapMark] at unmarked
  · intro same
    rw [blank, blank, same]

/-- The text of a program is a normal form of its outline. -/
theorem render_eq_iff_outline (blank : o.IsBlank) (formed : Writable .chunk t)
    (formed' : Writable .chunk u) : t.render o = u.render o ↔ o.outline t = o.outline u := by
  constructor
  · intro same
    obtain ⟨w, parsed, read⟩ := parse_render blank formed
    obtain ⟨w', parsed', read'⟩ := parse_render blank formed'
    rw [same, parsed'] at parsed
    obtain rfl := Except.ok.inj parsed
    exact read.symm.trans read'
  · intro same
    rw [Tree.render, Tree.render, Layout.pieces, Layout.pieces, o.fragment_eq_of_outline same]

/-- Written without comments, two programs give the same text just if they are the same. -/
theorem render_eq_iff_same {source source' : String} (terminated : isTerminated source = true)
    (terminated' : isTerminated source' = true) (parsed : parse source = .ok t)
    (parsed' : parse source' = .ok u) (blank : o.IsBlank) (silent : o.comments = false) :
    ∃ r r', (ofTree t).root = some r ∧ (ofTree u).root = some r' ∧
      ((ofTree t).render r o = (ofTree u).render r' o ↔
        (ofTree t).same r (ofTree u) r' = true) := by
  refine ⟨top t, top u, root_ofTree t, root_ofTree u, ?_⟩
  have formed := writable_of_parse terminated parsed
  have formed' := writable_of_parse terminated' parsed'
  rw [(sound_ofTree t).same_iff (sound_ofTree u) (sorted_of_parse parsed)
    (sorted_of_parse parsed'), ← unmarked_tree, ← unmarked_tree, render, render, tree_ofTree,
    tree_ofTree, render_eq_iff_outline blank formed formed', Layout.outline_eq_iff_unmarked silent]

/-- Comments, spaces and semicolons make no difference, and a branch does. -/
theorem render_eq_iff_same_branches :
    ∃ t u v r r' r'', parse "if a then f() elseif b then else g() end" = .ok t ∧
      parse "-- a\nif a then f();\nelseif b -- b\nthen else g() end" = .ok u ∧
      parse "if a then f() elseif b then end" = .ok v ∧
      (ofTree t).root = some r ∧ (ofTree u).root = some r' ∧ (ofTree v).root = some r'' ∧
      (ofTree t).render r { comments := false } = (ofTree u).render r' { comments := false } ∧
      (ofTree t).render r { comments := false } ≠ (ofTree v).render r'' { comments := false } := by
  obtain ⟨t, parsed⟩ : ∃ t, parse "if a then f() elseif b then else g() end" = .ok t :=
    exists_parse (by decide +kernel)
  obtain ⟨u, parsed'⟩ :
      ∃ u, parse "-- a\nif a then f();\nelseif b -- b\nthen else g() end" = .ok u :=
    exists_parse (by decide +kernel)
  obtain ⟨v, parsed''⟩ : ∃ v, parse "if a then f() elseif b then end" = .ok v :=
    exists_parse (by decide +kernel)
  have same : ((parse "if a then f() elseif b then else g() end").bind fun t =>
      (parse "-- a\nif a then f();\nelseif b -- b\nthen else g() end").map fun u => t.same u) =
        .ok true := by
    decide +kernel
  have different : ((parse "if a then f() elseif b then else g() end").bind fun t =>
      (parse "if a then f() elseif b then end").map fun v => t.same v) = .ok false := by
    decide +kernel
  rw [parsed, parsed'] at same
  rw [parsed, parsed''] at different
  obtain ⟨r, r', root, root', alike⟩ := render_eq_iff_same (by decide +kernel) (by decide +kernel)
    parsed parsed' (o := { comments := false }) (by decide) rfl
  obtain ⟨_, r'', root₁, root'', unlike⟩ := render_eq_iff_same (by decide +kernel)
    (by decide +kernel) parsed parsed'' (o := { comments := false }) (by decide) rfl
  obtain rfl := Option.some.inj (root.symm.trans root₁)
  obtain rfl := Option.some.inj ((root_ofTree t).symm.trans root)
  obtain rfl := Option.some.inj ((root_ofTree u).symm.trans root')
  obtain rfl := Option.some.inj ((root_ofTree v).symm.trans root'')
  rw [same_eq, tree_ofTree, tree_ofTree] at alike unlike
  refine ⟨t, u, v, _, _, _, parsed, parsed', parsed'', root, root', root'',
    alike.mpr (Except.ok.inj same), fun equal => ?_⟩
  exact Bool.false_ne_true ((Except.ok.inj different).symm.trans (unlike.mp equal))

end LuaTree
