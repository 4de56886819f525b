import LuaTree.Node.Kind

/-!
# Syntax trees

A tree is a node whose children are trees, each node carrying a mark. Marks are
where a node comes from in the source, or its handle, or nothing at all.

`Tree.fold` is the one recursion scheme: it works on each node after its
children. `Tree.fold_node` is its equation and `Tree.induct` the induction that
goes with it.
-/

namespace LuaTree

inductive Tree (ι : Type) where
  | node (mark : ι) (kind : Kind (Tree ι))

namespace Tree

variable {ι κ β : Type}

def mark : Tree ι → ι
  | node m _ => m

def kind : Tree ι → Kind (Tree ι)
  | node _ k => k

def children (t : Tree ι) : List (Tree ι) :=
  t.kind.children

instance [Inhabited ι] : Inhabited (Tree ι) := ⟨node default default⟩

mutual

/-- Compute a value for each node from its mark and the values of its children. -/
def fold (f : ι → Kind β → β) : Tree ι → β
  | node m k => f m (foldKind f k)

def foldKind (f : ι → Kind β → β) : Kind (Tree ι) → Kind β
  | .chunk block => .chunk (fold f block)
  | .block statements => .block (foldList f statements)
  | .assignment targets values => .assignment (foldList f targets) (foldList f values)
  | .compoundAssignment op target value => .compoundAssignment op (fold f target) (fold f value)
  | .localNames names values => .localNames (foldList f names) (foldList f values)
  | .localFunction name params body =>
    .localFunction (fold f name) (foldList f params) (fold f body)
  | .function name params body => .function (fold f name) (foldList f params) (fold f body)
  | .returning values => .returning (foldList f values)
  | .breaking => .breaking
  | .continuing => .continuing
  | .doBlock body => .doBlock (fold f body)
  | .ifChain condition body elseIfs elseBranch =>
    .ifChain (fold f condition) (fold f body) (foldList f elseIfs) (foldOption f elseBranch)
  | .elseIf condition body => .elseIf (fold f condition) (fold f body)
  | .elseBlock body => .elseBlock (fold f body)
  | .whileLoop condition body => .whileLoop (fold f condition) (fold f body)
  | .repeatLoop body condition => .repeatLoop (fold f body) (fold f condition)
  | .numericFor counter start limit step body =>
    .numericFor (fold f counter) (fold f start) (fold f limit) (foldOption f step) (fold f body)
  | .genericFor names iterators body =>
    .genericFor (foldList f names) (foldList f iterators) (fold f body)
  | .expressionStatement expression => .expressionStatement (fold f expression)
  | .identifier name => .identifier name
  | .literal literal => .literal literal
  | .binary op left right => .binary op (fold f left) (fold f right)
  | .unary op operand => .unary op (fold f operand)
  | .paren inner => .paren (fold f inner)
  | .varArg => .varArg
  | .functionCall callee args => .functionCall (fold f callee) (foldList f args)
  | .methodCall receiver method args =>
    .methodCall (fold f receiver) (fold f method) (foldList f args)
  | .methodName receiver method => .methodName (fold f receiver) (fold f method)
  | .access style table key => .access style (fold f table) (fold f key)
  | .table fields => .table (foldList f fields)
  | .field style key value => .field style (foldOption f key) (fold f value)
  | .anonymousFunction params body => .anonymousFunction (foldList f params) (fold f body)

def foldList (f : ι → Kind β → β) : List (Tree ι) → List β
  | [] => []
  | t :: ts => fold f t :: foldList f ts

def foldOption (f : ι → Kind β → β) : Option (Tree ι) → Option β
  | none => none
  | some t => some (fold f t)

end

theorem foldList_eq (f : ι → Kind β → β) (ts : List (Tree ι)) :
    foldList f ts = ts.map (fold f) := by
  induction ts with
  | nil => rfl
  | cons t ts ih => simp [foldList, ih]

theorem foldOption_eq (f : ι → Kind β → β) (t : Option (Tree ι)) :
    foldOption f t = t.map (fold f) := by
  cases t <;> rfl

theorem foldKind_eq (f : ι → Kind β → β) (k : Kind (Tree ι)) :
    foldKind f k = k.map (fold f) := by
  cases k <;> simp [foldKind, Kind.map, foldList_eq, foldOption_eq]

/-- Folding a node works on its folded children. -/
theorem fold_node (f : ι → Kind β → β) (m : ι) (k : Kind (Tree ι)) :
    fold f (node m k) = f m (k.map (fold f)) := by
  rw [fold, foldKind_eq]

theorem sizeOf_child {t : Tree ι} {m : ι} {k : Kind (Tree ι)} (h : t ∈ k.children) :
    sizeOf t < sizeOf (node m k) := by
  have list (ts : List (Tree ι)) (h : t ∈ ts) : sizeOf t < sizeOf ts := List.sizeOf_lt_of_mem h
  have option (o : Option (Tree ι)) (h : o = some t) : sizeOf t < sizeOf o := by
    subst h; simp
  cases k <;>
    simp only [Kind.children, List.cons_append, List.mem_cons, List.mem_append, Option.mem_toList,
      List.not_mem_nil, or_false] at h <;>
    simp only [node.sizeOf_spec] <;>
    grind

/-- A property of all trees follows from its children for each node. -/
theorem induct {motive : Tree ι → Prop}
    (step : ∀ m k, (∀ t ∈ k.children, motive t) → motive (node m k)) (t : Tree ι) : motive t := by
  obtain ⟨m, k⟩ := t
  exact step m k fun t h => induct step t
termination_by sizeOf t
decreasing_by exact sizeOf_child h

/-- The marks, each node before its children. -/
def preorder : Tree ι → List ι :=
  fold fun m k => m :: k.children.flatten

/-- The marks, each node after its children. -/
def postorder : Tree ι → List ι :=
  fold fun m k => k.children.flatten ++ [m]

/-- Whether two trees are equal but for their marks. -/
def same : Tree ι → Tree κ → Bool :=
  fold fun _ k other =>
    k.sameShape other.kind &&
      k.children.length == other.children.length &&
      (List.zipWith (fun equal child => equal child) k.children other.children).all id

/-- The tree on one line: each node in parentheses, its label before its children. -/
def nested : Tree ι → String :=
  fold fun _ k => "(" ++ k.label ++ String.join (k.children.map (" " ++ ·)) ++ ")"

end Tree

end LuaTree
