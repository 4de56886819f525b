/-!
# Places in a source text

A source text is read character by character. A `Place` is the state of that
reading: how many bytes lie before it, and on which line and column it is. A
`Span` records the places where a piece of text starts and stops. Offsets count
UTF-8 bytes; columns count characters.
-/

namespace LuaTree

/-- A line and a column, both counted from one. Line zero belongs to no source text. -/
structure Position where
  line : Nat
  column : Nat
deriving DecidableEq, Repr, Inhabited

namespace Position

/-- Earlier lines come first, and earlier columns within one line. -/
def compare (a b : Position) : Ordering :=
  (Ord.compare a.line b.line).then (Ord.compare a.column b.column)

/-- The written form `line:column`. -/
def text (p : Position) : String :=
  toString p.line ++ ":" ++ toString p.column

end Position

/-- How far a reader has come: the bytes behind it and the position in front of it. -/
structure Place where
  offset : Nat
  position : Position
deriving DecidableEq, Repr, Inhabited

namespace Place

/-- Where every source text begins. -/
def start : Place := ⟨0, ⟨1, 1⟩⟩

/-- The place after reading one more character; only a line feed begins a line. -/
def next (p : Place) (c : Char) : Place where
  offset := p.offset + c.utf8Size
  position :=
    if c = '\n' then ⟨p.position.line + 1, 1⟩ else ⟨p.position.line, p.position.column + 1⟩

/-- The place after reading some more text. -/
def after (p : Place) (text : List Char) : Place :=
  text.foldl next p

@[simp] theorem after_cons (p : Place) (c : Char) (text : List Char) :
    p.after (c :: text) = (p.next c).after text := rfl

theorem after_append (p : Place) (first second : List Char) :
    p.after (first ++ second) = (p.after first).after second := by
  simp [after, List.foldl_append]

end Place

/-- A stretch of source text: where it starts, and the place just behind its last character. -/
structure Span where
  startOffset : Nat
  endOffset : Nat
  start : Position
  stop : Position
deriving DecidableEq, Repr, Inhabited

namespace Span

/-- The text read between two places. -/
def between (p q : Place) : Span :=
  ⟨p.offset, q.offset, p.position, q.position⟩

/-- From the start of one span to the end of another. -/
def through (a b : Span) : Span :=
  ⟨a.startOffset, b.endOffset, a.start, b.stop⟩

/-- The empty span where `s` starts. -/
def atStart (s : Span) : Span :=
  ⟨s.startOffset, s.startOffset, s.start, s.start⟩

/-- The empty span where `s` ends. -/
def atEnd (s : Span) : Span :=
  ⟨s.endOffset, s.endOffset, s.stop, s.stop⟩

/-- A span outside every source text, as nodes made by hand have it. -/
def isSynthetic (s : Span) : Bool :=
  s.start.line == 0

/-- The number of bytes covered; none when the end lies before the start. -/
def length (s : Span) : Nat :=
  s.endOffset - s.startOffset

def isEmpty (s : Span) : Bool :=
  s.length == 0

/-- Whether some part of the span may lie on the given line. -/
def coversLine (s : Span) (line : Nat) : Bool :=
  !s.isSynthetic && s.start.line ≤ line && line ≤ s.stop.line

end Span

inductive CommentKind where
  /-- Two hyphens and the rest of the line. -/
  | line
  /-- Two hyphens and a text between double brackets. -/
  | block
deriving DecidableEq, Repr, Inhabited

/-- A comment with the text between its delimiters, untrimmed. -/
structure Comment where
  kind : CommentKind
  text : String
  span : Span
deriving DecidableEq, Repr, Inhabited

end LuaTree
