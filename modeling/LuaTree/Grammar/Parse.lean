import LuaTree.Grammar.Statement
import LuaTree.Scan

/-!
# Parsing

`Grammar.step` gives every rule its production in terms of all rules, and
`Grammar.rules` applies it as often as the nesting of the text can need. Between
two tokens rules nest at most sixteen deep, so a bound in proportion to the
number of tokens is never reached.

A program is parsed into an arena (`build`): each node is added when it has been
read. Parsed into a tree (`parse`), it has the same nodes.
-/

namespace LuaTree

namespace Grammar

variable {N : Type} {m : Type → Type} [Monad m] [MonadStateOf Cursor m] [MonadExceptOf Failure m]
  [NodeMaker N m]

/-- The production of each rule. -/
def step (rules : RulesOf N m) : RulesOf N m
  | _, .block => block rules
  | _, .statements => statements rules
  | _, .statement => statement rules
  | _, .elseIfs => elseIfs rules
  | _, .moreTargets => moreTargets rules
  | _, .moreNames cause => moreNames rules cause
  | _, .dottedName head => dottedName rules head
  | _, .expressions => expressions rules
  | _, .moreExpressions => moreExpressions rules
  | _, .expression level => ladder rules level
  | _, .operators level left => operators rules level left
  | _, .suffixes head => suffixes rules head
  | _, .fields => fields rules
  | _, .parameters => parameters rules

/-- The rules, nested at most `depth` deep. -/
def rules : Nat → RulesOf N m
  | 0 => fun _ _ => TokenReader.fail .nesting
  | depth + 1 => step (rules depth)

/-- How deep rules can nest over the given number of tokens. -/
def depth (tokens : Nat) : Nat :=
  16 * (tokens + 1)

/-- A program of at most the given number of tokens. -/
def program (tokens : Nat) : m N :=
  chunk (rules (depth tokens))

end Grammar

/-- Read a list of tokens, with the comments between them, as a tree. -/
def readTokens (tokens : List Token) (comments : List Comment) : Except Failure SourceTree :=
  let cursor := Cursor.ofTokens tokens comments
  return (← (Grammar.program cursor.rest.length : TokenReader SourceTree).run cursor).1

/-- Parse a list of tokens with the comments between them. -/
def parseTokens (tokens : List Token) (comments : List Comment) : Except ParseError SourceTree :=
  (readTokens tokens comments).mapError Failure.error

theorem parseTokens_eq_ok {tokens : List Token} {comments : List Comment} {t : SourceTree} :
    parseTokens tokens comments = .ok t ↔ readTokens tokens comments = .ok t := by
  unfold parseTokens
  cases readTokens tokens comments with
  | ok u =>
    change Except.ok u = Except.ok t ↔ _
    simp
  | error f =>
    change Except.error f.error = Except.ok t ↔ _
    simp

theorem parseTokens_eq_error {tokens : List Token} {comments : List Comment} {e : ParseError} :
    parseTokens tokens comments = .error e ↔ ∃ c, readTokens tokens comments = .error ⟨e, c⟩ := by
  unfold parseTokens
  cases readTokens tokens comments with
  | ok t =>
    change Except.ok t = Except.error e ↔ _
    simp
  | error f =>
    obtain ⟨problem, c⟩ := f
    change Except.error problem = Except.error e ↔ _
    simp

/-- Parse a source text. -/
def parse (source : String) : Except ParseError SourceTree :=
  let scan := Scan.ofSource source
  parseTokens scan.tokens scan.comments

/-- Read a list of tokens into an arena that was empty. -/
def buildTokens (tokens : List Token) (comments : List Comment) :
    Except EditError (Except Failure Arena) :=
  let cursor := Cursor.ofTokens tokens comments
  let (outcome, arena) :=
    ((Grammar.program cursor.rest.length : ArenaReader NodeId).run cursor).run.run.run Arena.empty
  return (← outcome).map fun (root, _) => arena.setRoot root

/-- Parse a source text into an arena. -/
def build (source : String) : Except EditError (Except ParseError Arena) :=
  let scan := Scan.ofSource source
  return (← buildTokens scan.tokens scan.comments).mapError Failure.error

end LuaTree
