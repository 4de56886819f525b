import LuaTree.Explorer.State
import Mathlib.Data.String.Basic

/-!
# Sessions of the explorer

A session draws the explorer, waits for a key, and draws again, each pane with any
height each time. In all of its states a row is selected, if there is one, and
each drawing shows the selected row and the first line of the selected node
(`showsSelection_of_session`).

Offsets are machine words. The end key sets the largest one, which no sum with
the height of a pane may meet: the line of the selected node is looked for only
in a source that was not scrolled by hand since it was last drawn, and drawing
brings the offset back into the text. `settleWord` does the arithmetic of a drawing
with sums and differences that are undefined when they leave the word.
-/

namespace LuaTree

/-- Each line of a text takes a character of it. -/
theorem Text.length_linesFrom_le (line text : List Char) :
    (linesFrom line text).length ≤ text.length + line.length := by
  fun_induction linesFrom line text with
  | case1 line empty => simp
  | case2 line some =>
    have : line ≠ [] := by simpa using some
    have := List.length_pos_iff.mpr this
    simp only [List.length_cons, List.length_nil]
    omega
  | case3 line text ih =>
    simp only [List.length_cons, List.length_nil] at ih ⊢
    omega
  | case4 line c text other ih =>
    simp only [List.length_cons] at ih ⊢
    omega

/-- Each character takes a byte. -/
theorem Text.length_le_utf8Len (text : List Char) : text.length ≤ String.utf8Len text := by
  induction text with
  | nil => exact Nat.zero_le _
  | cons c text ih =>
    have size := c.utf8Size_pos
    rw [List.length_cons, String.utf8Len_cons]
    omega

namespace Explorer

/-- A sum that fits in a machine word. -/
def addWord (a b : Nat) : Option Nat :=
  if a + b ≤ maxOffset then some (a + b) else none

/-- A difference that is not below zero. -/
def subWord (a b : Nat) : Option Nat :=
  if b ≤ a then some (a - b) else none

theorem addWord_eq_some {a b : Nat} (fits : a + b ≤ maxOffset) : addWord a b = some (a + b) :=
  if_pos fits

theorem mapM_addWord {indices : List Nat} {count : Nat}
    (fits : ∀ index ∈ indices, index + count ≤ maxOffset) :
    indices.mapM (addWord · count) = some (indices.map (· + count)) := by
  induction indices with
  | nil => rfl
  | cons index indices ih =>
    have ⟨here, there⟩ := List.forall_mem_cons.mp fits
    rw [List.mapM_cons, addWord_eq_some here, ih there]
    rfl

/-- `follow` with the arithmetic of words. -/
def followWord (offset selected height : Nat) : Option Nat := do
  let height := max height 1
  if selected < offset then return selected
  let bottom ← addWord offset height
  if bottom ≤ selected then subWord (← addWord selected 1) height else return offset

/-- `showLine` with the arithmetic of words. -/
def showLineWord (offset line visible : Nat) : Option Nat := do
  let bottom ← addWord offset visible
  return if offset ≤ line ∧ line < bottom then offset else line - visible / 3

variable (e : Explorer)

/-- `settledSource` with the arithmetic of words. -/
def settledSourceWord (paneHeight : Nat) : Option Nat := do
  let visible := visibleRows paneHeight
  let offset ← match e.selectedSpan?, e.sourceScroll.manual with
    | some span, false => showLineWord e.sourceScroll.offset (span.start.line - 1) visible
    | _, _ => some e.sourceScroll.offset
  return min offset (e.lines.length - visible)

/-- The numbers of the lines that a pane shows, each one more than the index of its line. -/
def lineNumbersWord (paneHeight : Nat) : Option (List Nat) :=
  (((List.range e.lines.length).drop e.sourceScroll.offset).take
    (visibleRows paneHeight)).mapM (addWord · 1)

/-- `settle` with the arithmetic of words, and that of numbering the lines that are then shown. -/
def settleWord (sourceHeight treeHeight : Nat) : Option Explorer := do
  let offset ← e.settledSourceWord sourceHeight
  let treeOffset ← followWord e.treeOffset e.selected (treeHeight - 2)
  let settled : Explorer :=
    { e with sourceScroll := { e.sourceScroll with offset }, treeOffset }
  let _ ← settled.lineNumbersWord sourceHeight
  return settled

/-- The largest offset leaves no room for a pane below it. -/
example : showLineWord maxOffset 0 1 = none := by decide

theorem follow_shows (offset selected height : Nat) :
    follow offset selected height ≤ selected ∧
      selected < follow offset selected height + max 1 height := by
  unfold follow
  dsimp only
  split
  · omega
  · split <;> omega

theorem showLine_shows (offset line : Nat) {visible : Nat} (some : 0 < visible) :
    showLine offset line visible ≤ line ∧ line < showLine offset line visible + visible := by
  unfold showLine
  split
  · assumption
  · omega

theorem followWord_eq {offset selected height : Nat} (bottom : offset + max height 1 ≤ maxOffset)
    (next : selected + 1 ≤ maxOffset) :
    followWord offset selected height = some (follow offset selected height) := by
  unfold followWord follow
  by_cases above : selected < offset
  · simp [above]
  · by_cases below : offset + max height 1 ≤ selected
    · have least : height ≤ selected + 1 := by omega
      simp [above, below, addWord_eq_some bottom, addWord_eq_some next, subWord, least]
    · simp [above, below, addWord_eq_some bottom]

theorem showLineWord_eq {offset visible : Nat} (line : Nat)
    (bottom : offset + visible ≤ maxOffset) :
    showLineWord offset line visible = some (showLine offset line visible) := by
  simp [showLineWord, showLine, addWord_eq_some bottom]

theorem visibleRows_eq (paneHeight : Nat) : visibleRows paneHeight = max 1 (paneHeight - 2) :=
  Nat.max_comm _ _

theorem visibleRows_pos (paneHeight : Nat) : 0 < visibleRows paneHeight := by
  rw [visibleRows_eq]
  omega

theorem settledSource_le (paneHeight : Nat) :
    e.settledSource paneHeight ≤ e.lines.length - visibleRows paneHeight :=
  Nat.min_le_right _ _

/-- The first line of the selected node is shown, if the source has such a line. Moving up to fill
the pane keeps it there. -/
theorem settledSource_shows {span : Span} (selected : e.selectedSpan? = some span)
    (follows : e.sourceScroll.manual = false) (inside : span.start.line ≤ e.lines.length)
    (paneHeight : Nat) :
    e.settledSource paneHeight < span.start.line ∧
      span.start.line ≤ e.settledSource paneHeight + visibleRows paneHeight := by
  have known : 0 < span.start.line := by
    have placed := (Option.filter_eq_some_iff.mp selected).2
    simp only [Span.isSynthetic, Bool.not_eq_true', beq_eq_false_iff_ne] at placed
    omega
  have shown := showLine_shows e.sourceScroll.offset (span.start.line - 1)
    (visibleRows_pos paneHeight)
  simp only [settledSource, selected, follows]
  omega

/-- A row is selected, if there is one. -/
def HasSelection : Prop :=
  e.selected < e.rows.length ∨ e.rows = [] ∧ e.selected = 0

/-- What every state of a session keeps. By hand the source may be scrolled anywhere until it is
drawn. -/
structure Valid (arena : Arena) (source : String) : Prop where
  text : e.source = source
  outline : e.rows = (start arena source).rows
  selection : e.HasSelection
  treeOffset : e.treeOffset ≤ e.rows.length
  offset : e.sourceScroll.manual = false → e.sourceScroll.offset ≤ e.lines.length

variable {e} {arena : Arena} {source : String}

theorem valid_start (arena : Arena) (source : String) :
    (start arena source).Valid arena source := by
  refine ⟨rfl, rfl, ?_, Nat.zero_le _, fun _ => Nat.zero_le _⟩
  cases rows : (start arena source).rows with
  | nil => exact .inr ⟨rows, rfl⟩
  | cons row others =>
    refine .inl ?_
    rw [rows]
    exact Nat.succ_pos _

namespace Valid

variable (valid : e.Valid arena source)

include valid

theorem settle (sourceHeight treeHeight : Nat) :
    (e.settle sourceHeight treeHeight).Valid arena source := by
  refine ⟨valid.text, valid.outline, valid.selection, ?_, fun _ => ?_⟩
  · have shown := (follow_shows e.treeOffset e.selected (treeHeight - 2)).1
    change follow _ _ _ ≤ e.rows.length
    rcases valid.selection with inside | ⟨-, first⟩ <;> omega
  · have below := e.settledSource_le sourceHeight
    change e.settledSource sourceHeight ≤ e.lines.length
    omega

/-- Selecting a row makes the source follow, from where it was drawn. -/
theorem select (drawn : e.sourceScroll.offset ≤ e.lines.length) (index : Nat) :
    (e.select index).Valid arena source := by
  refine ⟨valid.text, valid.outline, ?_, valid.treeOffset, fun _ => drawn⟩
  rcases valid.selection with inside | ⟨none, -⟩
  · refine .inl ?_
    change min index (e.rows.length - 1) < e.rows.length
    omega
  · refine .inr ⟨none, ?_⟩
    simp [Explorer.select, none]

theorem scrollTo (offset : Nat) : (e.scrollTo offset).Valid arena source :=
  ⟨valid.text, valid.outline, valid.selection, valid.treeOffset, nofun⟩

theorem move (drawn : e.sourceScroll.offset ≤ e.lines.length) (row line : Nat) :
    (e.move row line).Valid arena source := by
  unfold Explorer.move
  split
  · exact valid.select drawn row
  · exact valid.scrollTo line

theorem selectParent (drawn : e.sourceScroll.offset ≤ e.lines.length) :
    e.selectParent.Valid arena source := by
  unfold Explorer.selectParent
  dsimp only
  split
  · next index _ =>
    obtain ⟨text, outline, selection, treeOffset, offset⟩ := valid.select drawn index
    exact ⟨text, outline, selection, treeOffset, offset⟩
  · obtain ⟨text, outline, selection, treeOffset, offset⟩ := valid
    exact ⟨text, outline, selection, treeOffset, offset⟩

/-- A key behind a drawing. -/
theorem press (drawn : e.sourceScroll.offset ≤ e.lines.length) (key : Key) :
    (e.press key).Valid arena source := by
  have same : e.Valid arena source := valid
  obtain ⟨text, outline, selection, treeOffset, offset⟩ := valid
  unfold Explorer.press
  split
  -- Leaving and changing the pane touch neither the selection nor the scrolling.
  case h_1 | h_2 | h_3 | h_4 => exact ⟨text, outline, selection, treeOffset, offset⟩
  case h_11 => exact same.selectParent drawn
  case h_12 | h_13 => exact same
  all_goals exact same.move drawn _ _

end Valid

/-- The states of a session in front of a drawing. Its panes have any heights that a terminal can
give them, and new ones at each drawing. -/
inductive Session (arena : Arena) (source : String) : Explorer → Prop where
  | start : Session arena source (.start arena source)
  | redraw {e : Explorer} (before : Session arena source e) (sourceHeight treeHeight : UInt16) :
      Session arena source (e.settle sourceHeight.toNat treeHeight.toNat)
  | press {e : Explorer} (before : Session arena source e) (sourceHeight treeHeight : UInt16)
      (key : Key) : Session arena source ((e.settle sourceHeight.toNat treeHeight.toNat).press key)

theorem Session.valid (session : Session arena source e) : e.Valid arena source := by
  induction session with
  | start => exact valid_start arena source
  | redraw before sourceHeight treeHeight ih => exact ih.settle _ _
  | @press e before sourceHeight treeHeight key ih =>
    have below := e.settledSource_le sourceHeight.toNat
    refine (ih.settle _ _).press ?_ key
    change e.settledSource sourceHeight.toNat ≤ e.lines.length
    omega

/-- The rows and the text fit in memory, where nothing is longer than the largest signed word. -/
structure FitsMemory (arena : Arena) (source : String) : Prop where
  rows : (start arena source).rows.length < 2 ^ 63
  source : source.utf8ByteSize < 2 ^ 63

namespace Valid

variable (valid : e.Valid arena source) (fits : FitsMemory arena source)

include valid fits

theorem rows_lt : e.rows.length < 2 ^ 63 := by
  rw [valid.outline]
  exact fits.rows

theorem lines_lt : e.lines.length < 2 ^ 63 := by
  have lines : e.lines.length ≤ e.source.toList.length :=
    Text.length_linesFrom_le [] e.source.toList
  have bytes : e.source.toList.length ≤ e.source.utf8ByteSize := by
    rw [← String.utf8Len_toList]
    exact Text.length_le_utf8Len _
  have size := fits.source
  rw [← valid.text] at size
  omega

theorem settledSourceWord_eq (paneHeight : UInt16) :
    e.settledSourceWord paneHeight.toNat = some (e.settledSource paneHeight.toNat) := by
  have short : visibleRows paneHeight.toNat < 2 ^ 16 := by
    have := paneHeight.toNat_lt
    rw [visibleRows_eq]
    omega
  unfold settledSourceWord settledSource
  cases span : e.selectedSpan? with
  | none => rfl
  | some span =>
    cases manual : e.sourceScroll.manual with
    | true => rfl
    | false =>
      have drawn := valid.offset manual
      have lines := valid.lines_lt fits
      have bottom : e.sourceScroll.offset + visibleRows paneHeight.toNat ≤ maxOffset := by
        unfold maxOffset
        omega
      simp only [showLineWord_eq _ bottom]
      rfl

theorem followWord_selected (paneHeight : UInt16) :
    followWord e.treeOffset e.selected (paneHeight.toNat - 2) =
      some (follow e.treeOffset e.selected (paneHeight.toNat - 2)) := by
  have short := paneHeight.toNat_lt
  have rows := valid.rows_lt fits
  have shown := valid.treeOffset
  refine followWord_eq ?_ ?_
  · unfold maxOffset
    omega
  · unfold maxOffset
    rcases valid.selection with inside | ⟨-, first⟩ <;> omega

/-- Every line has a number. -/
theorem lineNumbersWord_isSome (paneHeight : Nat) :
    ∃ numbers, e.lineNumbersWord paneHeight = some numbers := by
  have lines := valid.lines_lt fits
  refine ⟨_, mapM_addWord fun index shown => ?_⟩
  have inside := List.mem_range.mp (List.mem_of_mem_drop (List.mem_of_mem_take shown))
  unfold maxOffset
  omega

theorem settleWord_eq (sourceHeight treeHeight : UInt16) :
    e.settleWord sourceHeight.toNat treeHeight.toNat =
      some (e.settle sourceHeight.toNat treeHeight.toNat) := by
  have later := valid.settle sourceHeight.toNat treeHeight.toNat
  obtain ⟨numbers, numbered⟩ := later.lineNumbersWord_isSome fits sourceHeight.toNat
  unfold settleWord
  rw [valid.settledSourceWord_eq fits, valid.followWord_selected fits]
  change (e.settle sourceHeight.toNat treeHeight.toNat).lineNumbersWord sourceHeight.toNat >>= _ = _
  rw [numbered]
  rfl

end Valid

/-- Panes of these heights show the selected row and, unless the source was scrolled by hand, the
first line of the selected node, if the source has such a line. The text fills its pane if it
can. -/
structure ShowsSelection (e : Explorer) (sourceHeight treeHeight : Nat) : Prop where
  row : e.treeOffset ≤ e.selected ∧ e.selected < e.treeOffset + max 1 (treeHeight - 2)
  filled : e.sourceScroll.offset ≤ e.lines.length - max 1 (sourceHeight - 2)
  line : e.sourceScroll.manual = false → ∀ span, e.selectedSpan? = some span →
    span.start.line ≤ e.lines.length →
      e.sourceScroll.offset < span.start.line ∧
        span.start.line ≤ e.sourceScroll.offset + max 1 (sourceHeight - 2)

theorem showsSelection_settle (e : Explorer) (sourceHeight treeHeight : Nat) :
    (e.settle sourceHeight treeHeight).ShowsSelection sourceHeight treeHeight := by
  have visible := visibleRows_eq sourceHeight
  refine ⟨follow_shows _ _ _, ?_, fun follows span selected inside => ?_⟩
  · rw [← visible]
    exact e.settledSource_le sourceHeight
  · rw [← visible]
    exact e.settledSource_shows selected follows inside sourceHeight

/-- In a session a row stays selected, every drawing shows the selection, and the arithmetic of the
drawing stays within a word. -/
theorem showsSelection_of_session (session : Session arena source e)
    (sourceHeight treeHeight : UInt16) :
    let drawn := e.settle sourceHeight.toNat treeHeight.toNat
    e.HasSelection ∧ drawn.HasSelection ∧
      drawn.ShowsSelection sourceHeight.toNat treeHeight.toNat ∧
      (FitsMemory arena source → e.settleWord sourceHeight.toNat treeHeight.toNat = some drawn) :=
  have valid := session.valid
  ⟨valid.selection, (valid.settle _ _).selection, showsSelection_settle e _ _,
    fun fits => valid.settleWord_eq fits sourceHeight treeHeight⟩

/-- The end key leaves the largest offset behind. The next drawing, and the one behind the selection
of a node on the last line, are defined. -/
theorem showsSelection_after_end_key :
    let arena := (Arena.empty.push (.ofSpan ⟨10, 11, ⟨6, 1⟩, ⟨6, 2⟩⟩) (.identifier "y")).setRoot ⟨0⟩
    let source := "x = 1\n\n\n\n\ny = 2\n"
    let scrolled := (((start arena source).settle 9 7).press .tab |>.settle 4 6).press .last
    let selected := ((scrolled.settle 4 6).press .tab |>.settle 3 3).press .home
    scrolled.sourceScroll = ⟨maxOffset, true⟩ ∧
      scrolled.settleWord 4 6 = some (scrolled.settle 4 6) ∧
      selected.sourceScroll = ⟨4, false⟩ ∧ selected.settleWord 5 3 = some (selected.settle 5 3) ∧
      (selected.settle 5 3).ShowsSelection 5 3 := by
  intro arena source scrolled selected
  have fits : FitsMemory arena source := ⟨by decide +kernel, by decide +kernel⟩
  have scroll : Session arena source scrolled := .press (.press .start 9 7 .tab) 4 6 .last
  have select : Session arena source selected := .press (.press scroll 4 6 .tab) 3 3 .home
  exact ⟨rfl, (showsSelection_of_session scroll 4 6).2.2.2 fits, by decide +kernel,
    (showsSelection_of_session select 5 3).2.2.2 fits,
    (showsSelection_of_session select 5 3).2.2.1⟩

end Explorer

end LuaTree
