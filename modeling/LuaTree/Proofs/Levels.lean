import LuaTree.Proofs.WellShaped
import Mathlib.Data.ENat.Basic

/-!
# The levels of operators

Each operator has a level on the ladder and a side to which it groups. A node
keeps to the levels if none of its operands binds looser than its place allows
(`Kind.KeepsLevels`). These are the nodes that need no parentheses around their
operands (`keepsLevels_iff_snug`), so that whatever has the shape of a tree that
can be written keeps to the levels (`keepsLevels_of_same`).
-/

namespace LuaTree

/-- How tight a node holds together: by the level of its operator, or without limit. -/
def Grip.tightness : Grip → ℕ∞
  | binary op => op.precedence
  | unary => UnaryOp.precedence
  | closed => ⊤

/-- The operands that an operator takes without parentheses. -/
def BinaryOp.Takes (op : BinaryOp) (left right : Grip) : Prop :=
  if op = .pow then left = .closed ∧ ∀ other, right = .binary other → other = .pow
  else
    match op.associativity with
    | .left => op.precedence ≤ left.tightness ∧ op.precedence < right.tightness
    | .none => op.precedence < left.tightness ∧ op.precedence < right.tightness
    | .right => op.precedence < left.tightness ∧ op.precedence ≤ right.tightness

/-- The operands of a node, by how they hold together, are such as their places allow. -/
def Kind.KeepsLevels : Kind Grip → Prop
  | .binary op l r => op.Takes l r
  | .unary _ e => ∀ op, e = .binary op → op = .pow
  | .functionCall f _ => f = .closed
  | .methodCall e _ _ => e = .closed
  | .access _ t _ => t = .closed
  | _ => True

namespace Grip

variable {op : BinaryOp} (g : Grip)

theorem precedence_lt_tightness_iff : op.precedence < g.tightness ↔ op.precedence < g.level := by
  cases g with
  | binary other => exact Nat.cast_lt
  | unary => exact Nat.cast_lt
  | closed => exact iff_of_true (ENat.natCast_lt_top _) (precedence_lt_closed op)

theorem precedence_le_tightness_iff :
    op.precedence ≤ g.tightness ↔ op.precedence < g.level ∨ op.precedence = g.level := by
  rw [← Nat.le_iff_lt_or_eq]
  cases g with
  | binary other => exact Nat.cast_le
  | unary => exact Nat.cast_le
  | closed => exact iff_of_true le_top (precedence_lt_closed op).le

theorem isLooseBinary_eq_false_iff_pow :
    g.isLooseBinary = false ↔ ∀ op, g = .binary op → op = .pow := by
  cases g <;> simp [isLooseBinary]

/-- The levels decide where parentheses are needed. -/
theorem takes_iff (left right : Grip) :
    op.Takes left right ↔
      left.needsParens op false = false ∧ right.needsParens op true = false := by
  by_cases pow : op = .pow
  · subst pow
    rw [needsParens_pow_left_eq_false_iff]
    simp [BinaryOp.Takes, needsParens, isLooseBinary_eq_false_iff_pow]
  · have plain (isRight : Bool) : (op == .pow && isRight) = false := by simp [pow]
    rw [needsParens_eq_false_iff _ (plain false), needsParens_eq_false_iff _ (plain true),
      BinaryOp.Takes, if_neg pow]
    cases group : op.associativity <;>
      simp [group, precedence_lt_tightness_iff, precedence_le_tightness_iff,
        BinaryOp.isRelational, BinaryOp.isRightAssociative]

end Grip

/-- A node keeps to the levels if its operands need no parentheses. -/
theorem keepsLevels_iff_snug (k : Kind SourceTree) : (k.map Tree.grip).KeepsLevels ↔ k.Snug := by
  cases k
  case binary op l r => exact Grip.takes_iff _ _
  case unary op e => exact (Grip.isLooseBinary_eq_false_iff_pow _).symm
  case functionCall f args => exact (Grip.needsPrefixParens_eq_false_iff _).symm
  case methodCall e n args => exact (Grip.needsPrefixParens_eq_false_iff _).symm
  case access style t key => exact (Grip.needsPrefixParens_eq_false_iff _).symm
  all_goals exact Iff.rfl

namespace Tree

variable {ι : Type}

/-- All nodes of the tree satisfy a condition. -/
inductive Every (p : Kind (Tree ι) → Prop) : Tree ι → Prop where
  | node {m : ι} {k : Kind (Tree ι)} (here : p k) (below : ∀ c ∈ k.children, Every p c) :
      Every p (.node m k)

theorem every_node_iff {p : Kind (Tree ι) → Prop} {m : ι} {k : Kind (Tree ι)} :
    Every p (.node m k) ↔ p k ∧ ∀ c ∈ k.children, Every p c :=
  ⟨fun ⟨here, below⟩ => ⟨here, below⟩, fun both => .node both.1 both.2⟩

end Tree

theorem WellFormed.every {P : Origin → Kind SourceTree → Prop} {Q : Kind SourceTree → Prop}
    {role : Role} {t : SourceTree} (formed : WellFormed P role t) (implies : ∀ m k, P m k → Q k) :
    t.Every Q := by
  induction formed
  case plain ih => exact ih
  case function ih => exact ih
  case parameter ih => exact ih
  case ofName ih => exact ih
  all_goals
    refine .node (implies _ _ ‹_›) ?_
    simp_all [Kind.children, or_imp]

theorem Kind.children_blur {α : Type} (b : Blur) (k : Kind α) :
    (k.blur b).children = k.children := by
  cases k <;> rfl

namespace Tree

variable {ι : Type}

/-- All nodes of the tree keep to the levels. -/
def KeepsLevels (t : Tree ι) : Prop :=
  t.Every fun k => (k.map grip).KeepsLevels

@[simp] theorem grip_blurred (b : Blur) (t : Tree ι) : (t.blurred b).grip = t.grip := by
  obtain ⟨m, k⟩ := t
  rw [blurred_node]
  cases k <;> rfl

theorem every_blurred {b : Blur} {p : Kind (Tree Unit) → Prop} {q : Kind (Tree ι) → Prop}
    (same : ∀ k, p ((k.map (blurred b)).blur b) ↔ q k) (t : Tree ι) :
    (t.blurred b).Every p ↔ t.Every q := by
  induction t using Tree.induct with
  | step m k ih =>
    rw [blurred_node, every_node_iff, every_node_iff, same, Kind.children_blur,
      Kind.children_map, List.forall_mem_map]
    exact and_congr_right fun _ => forall₂_congr ih

theorem keepsLevels_blurred (b : Blur) (t : Tree ι) :
    (t.blurred b).KeepsLevels ↔ t.KeepsLevels := by
  refine every_blurred (fun k => ?_) t
  have grips : grip ∘ blurred b = (grip : Tree ι → Grip) := funext (grip_blurred b)
  rw [Kind.map_blur, Kind.map_map, grips]
  cases k <;> rfl

end Tree

theorem WellFormed.keepsLevels {role : Role} {t : SourceTree} (formed : Writable role t) :
    t.KeepsLevels :=
  formed.every fun _ k fit => (keepsLevels_iff_snug k).mpr fit.snug

/-- What has the shape of a tree that can be written keeps to the levels. -/
theorem keepsLevels_of_same {role : Role} {t u : SourceTree} {b : Blur} (formed : Writable role u)
    (same : b.Same t u) : t.KeepsLevels := by
  rw [← Tree.keepsLevels_blurred b, same, Tree.keepsLevels_blurred]
  exact formed.keepsLevels

namespace Arena

/-- How the node of a handle holds together as an operand. -/
def grip (a : Arena) (id : NodeId) : Grip :=
  (a.kind id).grip

theorem Sound.grip_tree {a : Arena} (sound : a.Sound) (id : NodeId) :
    (a.tree id).grip = a.grip id := by
  rw [sound.tree_eq]
  exact Kind.grip_map _ _

theorem keepsLevels_ofTree {t : SourceTree} (keeps : t.KeepsLevels) (id : NodeId) :
    (((ofTree t).kind id).map (ofTree t).grip).KeepsLevels := by
  have sound := sound_ofTree t
  have grips : Tree.grip ∘ (ofTree t).tree = (ofTree t).grip := funext sound.grip_tree
  by_cases inside : id.index < (ofTree t).size
  · have here : ((ofTree t).tree id).KeepsLevels := by
      refine forall_tree (motive := Tree.KeepsLevels) keeps ?_ id inside
      exact fun m k keeps => (Tree.every_node_iff.mp keeps).2
    rw [sound.tree_eq] at here
    rw [← grips, ← Kind.map_map]
    exact (Tree.every_node_iff.mp here).1
  · rw [kind_of_size_le (Nat.le_of_not_lt inside)]
    trivial

end Arena

end LuaTree
