import LuaTree.Proofs.Scanned

/-!
# What comments say

Spans differ from one text of a program to the next, while the notes of a tree,
what the comments on each of its nodes say, can stay. A layout writes a tree by
its notes alone. `Layout.outline` is a tree with the notes that a layout writes.
-/

namespace LuaTree

namespace Tree

variable {ι κ β : Type}

/-- The tree with other marks. -/
def mapMark (f : ι → κ) : Tree ι → Tree κ :=
  fold fun m kind => .node (f m) kind

theorem mapMark_node (f : ι → κ) (m : ι) (kind : Kind (Tree ι)) :
    (Tree.node m kind).mapMark f = .node (f m) (kind.map (mapMark f)) :=
  fold_node _ _ _

theorem fold_mapMark (f : ι → κ) (g : κ → Kind β → β) (t : Tree ι) :
    (t.mapMark f).fold g = t.fold fun m => g (f m) := by
  induction t using Tree.induct with
  | step m kind ih =>
    rw [mapMark_node, fold_node, fold_node, Kind.map_map]
    exact congrArg (g (f m)) (Kind.map_congr kind ih)

theorem mapMark_mapMark {γ : Type} (f : ι → κ) (g : κ → γ) (t : Tree ι) :
    (t.mapMark f).mapMark g = t.mapMark fun m => g (f m) :=
  fold_mapMark _ _ _

theorem kind_mapMark (f : ι → κ) (t : Tree ι) :
    (t.mapMark f).kind = t.kind.map (mapMark f) := by
  obtain ⟨m, kind⟩ := t
  rw [mapMark_node]
  rfl

theorem opensWithFunction_mapMark (f : ι → κ) (t : Tree ι) :
    (t.mapMark f).opensWithFunction = t.opensWithFunction :=
  fold_mapMark _ _ _

end Tree

namespace Kind

variable {α β : Type} (f : α → β) (kind : Kind α)

@[simp] theorem isTerminal_map : (kind.map f).isTerminal = kind.isTerminal := by
  cases kind <;> rfl

@[simp] theorem isAssignable_map : (kind.map f).isAssignable = kind.isAssignable := by
  cases kind <;> rfl

@[simp] theorem isCallLike_map : (kind.map f).isCallLike = kind.isCallLike := by
  cases kind <;> rfl

end Kind

/-- What the comments before and behind a node say. -/
abbrev Notes := List Note × List Note

def Origin.notes (m : Origin) : Notes :=
  (m.leading.map Comment.note, m.trailing.map Comment.note)

/-- A new node has no comments. -/
@[simp] theorem Origin.notes_ofSpan (span : Span) : (Origin.ofSpan span).notes = ([], []) :=
  rfl

namespace Tree

/-- The tree with the notes of its nodes. -/
def notes (t : SourceTree) : Tree Notes :=
  t.mapMark Origin.notes

@[simp] theorem notes_node (m : Origin) (kind : Kind SourceTree) :
    notes (.node m kind) = .node m.notes (kind.map notes) :=
  mapMark_node _ _ _

theorem notes_withComments {t : SourceTree} {n : Notes} {kind : Kind (Tree Notes)}
    (same : t.notes = .node n kind) (leading trailing : List Comment) :
    (t.withComments leading trailing).notes =
      .node (n.1 ++ leading.map Comment.note, n.2 ++ trailing.map Comment.note) kind := by
  obtain ⟨m, k⟩ := t
  rw [notes_node, Tree.node.injEq] at same
  obtain ⟨rfl, rfl⟩ := same
  simp [withComments, Origin.withComments, Origin.notes]

end Tree

namespace Layout

variable (o : Layout)

/-- The notes of a node that are written. -/
def kept (m : Origin) : Notes :=
  if o.comments then m.notes else ([], [])

/-- The tree with the notes that are written. -/
def outline (t : SourceTree) : Tree Notes :=
  t.mapMark o.kept

@[simp] theorem outline_node (m : Origin) (kind : Kind SourceTree) :
    o.outline (.node m kind) = .node (o.kept m) (kind.map o.outline) :=
  Tree.mapMark_node _ _ _

/-- If comments are written, all notes are. -/
theorem outline_eq_notes {o : Layout} (comments : o.comments = true) (t : SourceTree) :
    o.outline t = t.notes := by
  have all : o.kept = Origin.notes := funext fun m => if_pos comments
  rw [outline, all]
  rfl

/-- Some comment that says what a note says. -/
def ofNote (note : Note) : Comment :=
  ⟨note.1, note.2, default⟩

/-- Some origin with the given notes. -/
def ofNotes (notes : Notes) : Origin :=
  ⟨default, notes.1.map ofNote, notes.2.map ofNote⟩

theorem commentLines_note (depth : Nat) (comments : List Comment) :
    o.commentLines depth ((comments.map Comment.note).map ofNote) =
      o.commentLines depth comments := by
  unfold commentLines
  rw [List.map_map, List.flatMap_map]
  rfl

/-- Comments that are not kept are not written. -/
theorem commentLines_kept (depth : Nat) (m : Origin) :
    o.commentLines depth (ofNotes (o.kept m)).leading = o.commentLines depth m.leading ∧
      o.commentLines depth (ofNotes (o.kept m)).trailing = o.commentLines depth m.trailing := by
  by_cases comments : o.comments = true
  · rw [kept, if_pos comments]
    exact ⟨o.commentLines_note depth m.leading, o.commentLines_note depth m.trailing⟩
  · simp [commentLines, comments]

theorem finish_kept (m : Origin) : o.finish (ofNotes (o.kept m)) = o.finish m := by
  by_cases comments : o.comments = true
  · rw [kept, if_pos comments]
    simp only [finish, ofNotes, Origin.notes, List.map_map, List.flatMap_map]
    rfl
  · simp [finish, comments]

theorem statement_kept (m : Origin) (write : Nat → List Piece) :
    o.statement (ofNotes (o.kept m)) write = o.statement m write := by
  simp only [statement, finish_kept, (o.commentLines_kept _ m).1]

/-- How a node is written does not depend on its span. -/
theorem node_kept (m : Origin) (kind : Kind Fragment) :
    o.node (ofNotes (o.kept m)) kind = o.node m kind := by
  cases kind
  case access style table key => cases style <;> rfl
  case field style key value => cases style <;> cases key <;> rfl
  case block statements => simp only [node, (o.commentLines_kept _ m).2]
  all_goals first | rfl | exact statement_kept o m _

/-- A tree is written by the notes that are kept. -/
theorem fragment_eq_of_outline {t u : SourceTree} (same : o.outline t = o.outline u) :
    o.fragment t = o.fragment u := by
  have byNotes (t : SourceTree) :
      o.fragment t = (o.outline t).fold fun notes => o.node (ofNotes notes) := by
    rw [outline, Tree.fold_mapMark, funext fun m => funext (o.node_kept m)]
    rfl
  rw [byNotes, byNotes, same]

/-- A tree is written by its notes alone. -/
theorem fragment_eq_of_notes {t u : SourceTree} (same : t.notes = u.notes) :
    o.fragment t = o.fragment u := by
  have byNotes (t : SourceTree) :
      o.outline t = t.notes.mapMark fun notes => if o.comments then notes else ([], []) := by
    rw [Tree.notes, Tree.mapMark_mapMark]
    rfl
  exact o.fragment_eq_of_outline (by rw [byNotes, byNotes, same])

end Layout

end LuaTree
