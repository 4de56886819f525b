import LuaTree.Explorer.Screen
import LuaTree.Text.Alphabetic
import LuaTree.Text.Numeric
import LuaTree.Token.Basic

/-!
# Highlighting a line

A line is divided into words, strings, comments and single characters by a
reading of its own that knows nothing of the lines around it. A comment runs to
the end of the line, and so does a string that is not closed.

Nothing is lost: by `text_highlight` the texts of the parts are the line again.
-/

namespace LuaTree.Explorer

/-- What a part of a line looks like. -/
inductive Shade where
  | plain | keyword | constant | number | receiver | call | string | comment | bracket
deriving DecidableEq, Repr, Inhabited

def Shade.style : Shade → Style
  | plain => .ofColor Palette.text
  | keyword => (Style.ofColor Palette.keyword).strong
  | constant => .ofColor Palette.constant
  | number => .ofColor Palette.number
  | receiver => .ofColor Palette.nodeKind
  | call => .ofColor Palette.call
  | string => .ofColor Palette.string
  | comment => .ofColor Palette.faint
  | bracket => .ofColor Palette.accent

/-- A part of a line with its shade. -/
structure Part where
  shade : Shade
  text : List Char
deriving DecidableEq, Repr, Inhabited

/-- The number of characters through the closing quote; a backslash counts the next one in. -/
def quotedLength (quote : Char) : List Char → Nat
  | [] => 0
  | ['\\'] => 1
  | '\\' :: _ :: rest => quotedLength quote rest + 2
  | c :: rest => if c = quote then 1 else quotedLength quote rest + 1

def startsWithDigit (word : List Char) : Bool :=
  match word with
  | c :: _ => c.isDigit
  | [] => false

/-- Whether a character goes on with a word; a point does in a number. -/
def continuesWord (word : List Char) (c : Char) : Bool :=
  Text.isAlphabetic c || Text.isNumeric c || c == '_' || (c == '.' && startsWithDigit word)

/-- The shade of a word, which may be known to be called. -/
def wordShade (word : List Char) (called : Bool) : Shade :=
  match TokenKind.keyword? (String.ofList word) with
  | some .nilKw | some .trueKw | some .falseKw => .constant
  | some _ => .keyword
  | none =>
    if startsWithDigit word then .number
    else if word = "self".toList then .receiver
    else if called then .call
    else .plain

/-- A word as a part; an empty one is none. -/
def wordPart (word : List Char) (called : Bool) : List Part :=
  if word.isEmpty then [] else [⟨wordShade word called, word⟩]

/-- A character that belongs to no word, string or comment. -/
def markPart (c : Char) : Part :=
  ⟨if "\x7b\x7d()[]".toList.contains c then .bracket else .plain, [c]⟩

/-- The parts of a line behind a word that has been read. -/
def partsFrom (word : List Char) : List Char → List Part
  | [] => wordPart word false
  | c :: rest =>
    if c = '-' ∧ rest.head? = some '-' then
      wordPart word false ++ [⟨.comment, c :: rest⟩]
    else if isQuote c then
      wordPart word false ++
        ⟨.string, c :: rest.take (quotedLength c rest)⟩ ::
          partsFrom [] (rest.drop (quotedLength c rest))
    else if continuesWord word c then
      partsFrom (word ++ [c]) rest
    else
      wordPart word (c == '(') ++ markPart c :: partsFrom [] rest
termination_by line => line.length
decreasing_by all_goals simp only [List.length_cons, List.length_drop]; omega

/-- The parts of a line. -/
def highlight (line : List Char) : List Part :=
  partsFrom [] line

theorem text_wordPart (word : List Char) (called : Bool) :
    (wordPart word called).flatMap Part.text = word := by
  cases word <;> simp [wordPart]

/-- The parts hold the word and the line, in order and without loss. -/
theorem text_partsFrom (word line : List Char) :
    (partsFrom word line).flatMap Part.text = word ++ line := by
  fun_induction partsFrom word line <;> simp_all [text_wordPart, markPart]

@[simp] theorem text_highlight (line : List Char) :
    (highlight line).flatMap Part.text = line := by
  simp [highlight, text_partsFrom]

end LuaTree.Explorer
