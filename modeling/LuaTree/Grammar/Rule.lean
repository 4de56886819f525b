import LuaTree.Grammar.Cursor

/-!
# Rules that refer to each other

The grammar is a family of mutually recursive rules. Each production is written
once, over a function that parses every rule, and `Grammar.Parse` ties them
together. A production is therefore an ordinary definition, and what it does
follows from what the rules it uses do. It leaves open which reader reads and
what the nodes are that it makes.
-/

namespace LuaTree

/-- The recursive rules of the grammar, indexed by what they yield; `N` is the type of nodes. -/
inductive RuleOf (N : Type) : Type → Type 1 where
  /-- Statements up to a token that ends a block. -/
  | block : RuleOf N N
  | statements : RuleOf N (List N)
  | statement : RuleOf N N
  /-- The `elseif` clauses in front, if any. -/
  | elseIfs : RuleOf N (List N)
  /-- Further assignment targets, each behind a comma. -/
  | moreTargets : RuleOf N (List N)
  /-- Further names, each behind a comma. -/
  | moreNames (cause : Cause) : RuleOf N (List N)
  /-- The rest of a dotted function name that starts with `head`. -/
  | dottedName (head : N) : RuleOf N N
  /-- One or more expressions divided by commas. -/
  | expressions : RuleOf N (List N)
  /-- Further expressions, each behind a comma. -/
  | moreExpressions : RuleOf N (List N)
  /-- An expression of operators at `level` and above. -/
  | expression (level : Nat) : RuleOf N N
  /-- The operators at `level` behind their first operand. -/
  | operators (level : Nat) (left : N) : RuleOf N N
  /-- The calls and accesses behind `head`. -/
  | suffixes (head : N) : RuleOf N N
  /-- The fields of a table up to its closing brace. -/
  | fields : RuleOf N (List N)
  /-- One or more parameters. -/
  | parameters : RuleOf N (List N)

/-- A reader for every rule. -/
abbrev RulesOf (N : Type) (m : Type → Type) := (α : Type) → RuleOf N α → m α

/-- The rules where nodes are trees. -/
abbrev Rule := RuleOf SourceTree

abbrev Rules := RulesOf SourceTree TokenReader

end LuaTree
