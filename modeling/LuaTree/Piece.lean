import LuaTree.Text.Alphabetic
import LuaTree.Text.Blank
import LuaTree.Text.Numeric
import LuaTree.Token.Basic

/-!
# Source text cut into pieces

`Piece.cut` divides a text into blanks, comments and tokens. Cutting never
fails: a character that begins no token is a token of kind `unknown`, and a
string or block comment that is not closed runs to the end of the text.

Nothing is lost: the characters of the pieces, in order, are the text again.
-/

namespace LuaTree

/-- Whether a character can begin an identifier or keyword. -/
def isWordStart (c : Char) : Bool :=
  Text.isAlphabetic c || c == '_'

/-- Whether a character can continue an identifier or keyword. -/
def isWordPart (c : Char) : Bool :=
  Text.isAlphabetic c || Text.isNumeric c || c == '_'

/-- A text divided into the part that was read and the part that is left. -/
structure Cut where
  taken : List Char
  rest : List Char

namespace Cut

/-- The same division with more text read before it. -/
def behind (text : List Char) (cut : Cut) : Cut :=
  ⟨text ++ cut.taken, cut.rest⟩

/-- Divide before the first character outside the class. -/
def run (p : Char → Bool) (text : List Char) : Cut :=
  ⟨text.takeWhile p, text.dropWhile p⟩

/-- The rest of a string behind its opening quote, with the closing quote if there is one. A
backslash takes the next character with it. -/
def quoted (quote : Char) : List Char → Cut
  | [] => ⟨[], []⟩
  | ['\\'] => ⟨['\\'], []⟩
  | '\\' :: c :: text => (quoted quote text).behind ['\\', c]
  | c :: text => if c = quote then ⟨[c], text⟩ else (quoted quote text).behind [c]

/-- The point and the digits of a fraction; nothing if no digit follows the point. -/
def fraction : List Char → Cut
  | '.' :: d :: text =>
    if d.isDigit then (run Char.isDigit text).behind ['.', d] else ⟨[], '.' :: d :: text⟩
  | text => ⟨[], text⟩

/-- Digits, and the fraction behind them. -/
def decimal (text : List Char) : Cut :=
  (fraction (run Char.isDigit text).rest).behind (run Char.isDigit text).taken

/-- The division keeps all of the text. -/
def Divides (cut : Cut) (text : List Char) : Prop :=
  cut.taken ++ cut.rest = text

theorem Divides.behind {cut : Cut} {text : List Char} (h : cut.Divides text)
    (more : List Char) : (cut.behind more).Divides (more ++ text) := by
  simp_all [Divides, Cut.behind]

theorem run_divides (p : Char → Bool) (text : List Char) : (run p text).Divides text :=
  List.takeWhile_append_dropWhile

theorem quoted_divides (quote : Char) (text : List Char) :
    (quoted quote text).Divides text := by
  fun_induction quoted quote text with
  | case1 => rfl
  | case2 => rfl
  | case3 c text ih => exact ih.behind _
  | case4 => rfl
  | case5 c text _ _ _ ih => exact ih.behind _

theorem fraction_divides (text : List Char) : (fraction text).Divides text := by
  fun_cases fraction text with
  | case1 d rest _ => exact (run_divides _ rest).behind _
  | case2 => rfl
  | case3 => rfl

theorem decimal_divides (text : List Char) : (decimal text).Divides text := by
  have fraction := (fraction_divides (run Char.isDigit text).rest).behind
    (run Char.isDigit text).taken
  rwa [run_divides] at fraction

end Cut

inductive Piece where
  | blank (c : Char)
  | lineComment (text : List Char)
  /-- Only the last piece of a text can be a comment that is not closed. -/
  | blockComment (text : List Char) (closed : Bool)
  | token (kind : TokenKind) (lexeme : List Char)
deriving DecidableEq, Repr

namespace Piece

/-- The piece as it stands in the text. -/
def chars : Piece → List Char
  | blank c => [c]
  | lineComment text => '-' :: '-' :: text
  | blockComment text closed =>
    '-' :: '-' :: '[' :: '[' :: text ++ if closed then [']', ']'] else []
  | token _ lexeme => lexeme

/-- A block comment behind its opening, and what follows it; the first `]]` closes it. -/
def blockText : List Char → List Char × Bool × List Char
  | [] => ([], false, [])
  | ']' :: ']' :: rest => ([], true, rest)
  | c :: rest => (c :: (blockText rest).1, (blockText rest).2)

/-- The keyword or identifier spelled by a word. -/
def ofWord (word : List Char) : Piece :=
  token ((TokenKind.keyword? (String.ofList word)).getD .identifier) word

/-- The longest symbol at the front of a text. -/
def symbol? (text : List Char) : Option TokenKind :=
  TokenKind.symbols.find? fun kind => kind.spelling.toList.isPrefixOf text

/-- The token that begins with `c`: the longest that fits. -/
def firstToken (c : Char) (text : List Char) : Piece × List Char :=
  if isQuote c then
    (token .string (c :: (Cut.quoted c text).taken), (Cut.quoted c text).rest)
  else if c.isDigit then
    (token .number (c :: (Cut.decimal text).taken), (Cut.decimal text).rest)
  else if isWordStart c then
    (ofWord (c :: (Cut.run isWordPart text).taken), (Cut.run isWordPart text).rest)
  else
    match symbol? (c :: text) with
    | some kind => (token kind kind.spelling.toList, (c :: text).drop kind.spelling.toList.length)
    | none => (token .unknown [c], text)

/-- The first piece of a text that begins with `c`, and what follows it. -/
def first (c : Char) (text : List Char) : Piece × List Char :=
  if Text.isBlank c then (blank c, text)
  else
    match c, text with
    | '-', '-' :: '[' :: '[' :: rest =>
      (blockComment (blockText rest).1 (blockText rest).2.1, (blockText rest).2.2)
    | '-', '-' :: rest =>
      (lineComment (Cut.run (· != '\n') rest).taken, (Cut.run (· != '\n') rest).rest)
    | c, text => firstToken c text

theorem blockText_append (text : List Char) :
    (blockText text).1 ++ ((if (blockText text).2.1 then [']', ']'] else []) ++
      (blockText text).2.2) = text := by
  fun_induction blockText text with
  | case1 => rfl
  | case2 => rfl
  | case3 c rest _ ih => simpa using ih

theorem firstToken_append (c : Char) (text : List Char) :
    (firstToken c text).1.chars ++ (firstToken c text).2 = c :: text := by
  unfold firstToken
  split
  · exact congrArg (c :: ·) (Cut.quoted_divides c text)
  split
  · exact congrArg (c :: ·) (Cut.decimal_divides text)
  split
  · exact congrArg (c :: ·) (Cut.run_divides isWordPart text)
  split
  · next kind h =>
    unfold symbol? at h
    have fits := List.find?_some h
    exact List.prefix_iff_eq_append.mp (List.isPrefixOf_iff_prefix.mp fits)
  · rfl

/-- The first piece and what follows it are the whole text. -/
theorem first_append (c : Char) (text : List Char) :
    (first c text).1.chars ++ (first c text).2 = c :: text := by
  unfold first
  split
  · rfl
  split
  · next rest _ =>
    simpa [chars] using blockText_append rest
  · next rest _ _ =>
    exact congrArg ('-' :: '-' :: ·) (Cut.run_divides (· != '\n') rest)
  · exact firstToken_append c text

theorem firstToken_chars_ne_nil (c : Char) (text : List Char) :
    (firstToken c text).1.chars ≠ [] := by
  unfold firstToken
  split
  · simp [chars]
  split
  · simp [chars]
  split
  · simp [chars, ofWord]
  split
  · next kind h =>
    have member := List.mem_of_find?_eq_some h
    have spelled : ∀ kind ∈ TokenKind.symbols, kind.spelling.toList ≠ [] := by decide
    exact spelled kind member
  · simp [chars]

theorem first_chars_ne_nil (c : Char) (text : List Char) : (first c text).1.chars ≠ [] := by
  unfold first
  split
  · simp [chars]
  split
  · simp [chars]
  · simp [chars]
  · exact firstToken_chars_ne_nil c text

theorem first_rest_length (c : Char) (text : List Char) :
    (first c text).2.length < (c :: text).length := by
  have whole := congrArg List.length (first_append c text)
  have nonempty := List.length_pos_iff.mpr (first_chars_ne_nil c text)
  rw [List.length_append] at whole
  omega

/-- All pieces of a text. -/
def cut : List Char → List Piece
  | [] => []
  | c :: text => (first c text).1 :: cut (first c text).2
termination_by text => text.length
decreasing_by exact first_rest_length c text

/-- The text that some pieces make. -/
def textOf (pieces : List Piece) : List Char :=
  pieces.flatMap chars

@[simp] theorem textOf_nil : textOf [] = [] := rfl

@[simp] theorem textOf_cons (piece : Piece) (pieces : List Piece) :
    textOf (piece :: pieces) = piece.chars ++ textOf pieces := rfl

/-- Cutting loses nothing. -/
theorem textOf_cut (text : List Char) : textOf (cut text) = text := by
  fun_induction cut text with
  | case1 => rfl
  | case2 c text ih => rw [textOf_cons, ih, first_append]

end Piece

end LuaTree
