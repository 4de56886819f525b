import LuaTree.Node.Tree
import LuaTree.Source

/-!
# Where nodes come from

A node that was read from a source text has a span there, and statements and
blocks have the comments around them. A node made by hand has neither.
-/

namespace LuaTree

/-- The span of a node and the comments that belong to it. -/
structure Origin where
  span : Span
  leading : List Comment
  trailing : List Comment
deriving DecidableEq, Repr, Inhabited

/-- A node in the source text without comments. -/
def Origin.ofSpan (span : Span) : Origin :=
  ⟨span, [], []⟩

/-- The origin of a node that gets more comments around it. -/
def Origin.withComments (origin : Origin) (leading trailing : List Comment) : Origin :=
  { origin with
    leading := origin.leading ++ leading
    trailing := origin.trailing ++ trailing }

/-- A tree as it was read from a source text. -/
abbrev SourceTree := Tree Origin

namespace Tree

def span (t : SourceTree) : Span :=
  t.mark.span

/-- The tree with comments around it in addition to those it has. -/
def withComments (leading trailing : List Comment) : SourceTree → SourceTree
  | .node origin kind => .node (origin.withComments leading trailing) kind

end Tree

end LuaTree
