import LuaTree.Proofs.Adoption
import Mathlib.Data.List.Induction
import Mathlib.Data.List.Nodup

/-!
# Links up and links down

Later nodes may take children away from earlier ones, so a node can have children
that no longer have it as their parent. Below a handle where this has not
happened (`Owned`), the links up are the links down read backwards. There is then
one way down to each node (`Owned.exists_unique_follow`), and going up, down and
sideways fit together.
-/

namespace LuaTree.Arena

variable {a b : Arena}

/-- The node at the end of a way down, which says at each node which child comes next. -/
def follow (a : Arena) (id : NodeId) : List Nat → Option NodeId
  | [] => some id
  | i :: path => (a.children id)[i]?.bind fun child => a.follow child path

theorem follow_append (a : Arena) (id : NodeId) (first second : List Nat) :
    a.follow id (first ++ second) = (a.follow id first).bind fun mid => a.follow mid second := by
  induction first generalizing id with
  | nil => rfl
  | cons i first ih =>
    simp only [List.cons_append, follow, Option.bind_assoc]
    exact congrArg _ (funext ih)

theorem follow_concat {id x : NodeId} {path : List Nat} {i : Nat} :
    a.follow id (path ++ [i]) = some x ↔
      ∃ p, a.follow id path = some p ∧ (a.children p)[i]? = some x := by
  rw [follow_append, Option.bind_eq_some_iff]
  simp [follow]

section Sound

variable (sound : a.Sound)

include sound

theorem Sound.mem_preorder_iff {x id : NodeId} :
    x ∈ a.preorder id ↔ x = id ∨ ∃ c ∈ a.children id, x ∈ a.preorder c := by
  rw [sound.preorder_eq, List.mem_cons, List.mem_flatMap]

theorem Sound.mem_descendants_iff {x id : NodeId} :
    x ∈ a.descendants id ↔ ∃ c ∈ a.children id, x ∈ a.preorder c := by
  rw [descendants, sound.preorder_eq, List.tail_cons, List.mem_flatMap]

theorem Sound.self_mem_preorder (id : NodeId) : id ∈ a.preorder id :=
  sound.mem_preorder_iff.mpr (.inl rfl)

/-- What holds of a node, and of the children of each node of which it holds, holds of all nodes
below it. -/
theorem Sound.preorder_induct {id : NodeId} {motive : NodeId → Prop} (here : motive id)
    (down : ∀ x ∈ a.preorder id, motive x → ∀ c ∈ a.children x, motive c) :
    ∀ x ∈ a.preorder id, motive x := by
  obtain ⟨n⟩ := id
  induction n using Nat.strongRecOn with
  | ind n ih =>
    intro x member
    obtain rfl | ⟨c, child, below⟩ := sound.mem_preorder_iff.mp member
    · exact here
    · have first := down ⟨n⟩ (sound.self_mem_preorder _) here c child
      refine ih c.index (sound.older ⟨n⟩ c child) first (fun y among => ?_) x below
      exact down y (sound.mem_preorder_iff.mpr (.inr ⟨c, child, among⟩))

theorem Sound.child_mem_preorder {id x c : NodeId} (member : x ∈ a.preorder id)
    (child : c ∈ a.children x) : c ∈ a.preorder id := by
  obtain ⟨n⟩ := id
  induction n using Nat.strongRecOn with
  | ind n ih =>
    obtain rfl | ⟨d, among, below⟩ := sound.mem_preorder_iff.mp member
    · exact sound.mem_preorder_iff.mpr (.inr ⟨c, child, sound.self_mem_preorder c⟩)
    · exact sound.mem_preorder_iff.mpr
        (.inr ⟨d, among, ih d.index (sound.older ⟨n⟩ d among) below⟩)

theorem Sound.child_mem_descendants {id x c : NodeId} (member : x ∈ a.preorder id)
    (child : c ∈ a.children x) : c ∈ a.descendants id := by
  obtain rfl | ⟨d, among, below⟩ := sound.mem_preorder_iff.mp member
  · exact sound.mem_descendants_iff.mpr ⟨c, child, sound.self_mem_preorder c⟩
  · exact sound.mem_descendants_iff.mpr ⟨d, among, sound.child_mem_preorder below child⟩

theorem Sound.preorder_subset {id x : NodeId} (member : x ∈ a.preorder id) :
    a.preorder x ⊆ a.preorder id :=
  fun y below => sound.preorder_induct (motive := (· ∈ a.preorder id)) member
    (fun _ _ inside _ child => sound.child_mem_preorder inside child) y below

theorem Sound.index_le {x id : NodeId} (member : x ∈ a.preorder id) : x.index ≤ id.index := by
  refine sound.preorder_induct (motive := (·.index ≤ id.index)) (Nat.le_refl _) ?_ x member
  intro y _ small c child
  exact Nat.le_trans (Nat.le_of_lt (sound.older y c child)) small

theorem Sound.index_lt {x id : NodeId} (member : x ∈ a.descendants id) : x.index < id.index := by
  obtain ⟨c, child, below⟩ := sound.mem_descendants_iff.mp member
  exact Nat.lt_of_le_of_lt (sound.index_le below) (sound.older id c child)

/-- Every node below another is named by one there. -/
theorem Sound.exists_parent {id x : NodeId} (member : x ∈ a.preorder id) (other : x ≠ id) :
    ∃ p ∈ a.preorder id, x ∈ a.children p := by
  refine (sound.preorder_induct (motive := fun x =>
    x = id ∨ ∃ p ∈ a.preorder id, x ∈ a.children p) (.inl rfl) ?_ x member).resolve_left other
  intro p inside _ c child
  exact .inr ⟨p, inside, child⟩

theorem Sound.mem_preorder_iff_follow {id x : NodeId} :
    x ∈ a.preorder id ↔ ∃ path, a.follow id path = some x := by
  constructor
  · intro member
    refine sound.preorder_induct (motive := fun x => ∃ path, a.follow id path = some x)
      ⟨[], rfl⟩ ?_ x member
    rintro p - ⟨path, leads⟩ c child
    obtain ⟨i, here⟩ := List.mem_iff_getElem?.mp child
    exact ⟨path ++ [i], follow_concat.mpr ⟨p, leads, here⟩⟩
  · rintro ⟨path, leads⟩
    induction path using List.reverseRecOn generalizing x with
    | nil =>
      obtain rfl := Option.some.inj leads
      exact sound.self_mem_preorder _
    | append_singleton path i ih =>
      obtain ⟨p, leads, here⟩ := follow_concat.mp leads
      exact sound.child_mem_preorder (ih leads) (List.mem_of_getElem? here)

theorem Sound.parent_inside {x p : NodeId} (adopted : a.parent x = some p) :
    x ∈ a.children p ∧ x.index < p.index ∧ p.index < a.size := by
  obtain ⟨named, -⟩ := sound.adopter x p adopted
  exact ⟨named, sound.older p x named, index_lt_size named⟩

theorem Sound.ancestors_of_parent {x p : NodeId} (adopted : a.parent x = some p) :
    a.ancestors x = p :: a.ancestors p := by
  rw [ancestors, adopted]
  exact if_pos (sound.parent_inside adopted).2

omit sound in
theorem ancestors_of_orphan {x : NodeId} (free : a.parent x = none) : a.ancestors x = [] := by
  rw [ancestors, free]

theorem Sound.rootOf_of_parent {x p : NodeId} (adopted : a.parent x = some p) :
    a.rootOf x = a.rootOf p := by
  rw [rootOf, rootOf, sound.ancestors_of_parent adopted]
  cases a.ancestors p <;> rfl

/-- What holds of a node follows from its parent, if it has one. -/
theorem Sound.climb {motive : NodeId → Prop} (orphan : ∀ x, a.parent x = none → motive x)
    (child : ∀ x p, a.parent x = some p → motive p → motive x) (x : NodeId) : motive x := by
  generalize above : a.size - x.index = n
  induction n using Nat.strongRecOn generalizing x with
  | ind n ih =>
    cases adopted : a.parent x with
    | none => exact orphan x adopted
    | some p =>
      obtain ⟨-, older, inside⟩ := sound.parent_inside adopted
      exact child x p adopted (ih (a.size - p.index) (by omega) p rfl)

/-- The ancestors of an ancestor are ancestors. -/
theorem Sound.mem_ancestors_of_parent {x y p : NodeId} (above : y ∈ a.ancestors x)
    (adopted : a.parent y = some p) : p ∈ a.ancestors x := by
  induction x using sound.climb with
  | orphan x free => simp [ancestors_of_orphan free] at above
  | child x q parent ih =>
    rw [sound.ancestors_of_parent parent, List.mem_cons] at above ⊢
    obtain rfl | above := above
    · rw [sound.ancestors_of_parent adopted]
      exact .inr List.mem_cons_self
    · exact .inr (ih above)

theorem Sound.mem_descendants_of_mem_ancestors {x y : NodeId} (above : y ∈ a.ancestors x) :
    x ∈ a.descendants y := by
  induction x using sound.climb with
  | orphan x free => simp [ancestors_of_orphan free] at above
  | child x p adopted ih =>
    have named := (sound.parent_inside adopted).1
    rw [sound.ancestors_of_parent adopted, List.mem_cons] at above
    obtain rfl | above := above
    · exact sound.mem_descendants_iff.mpr ⟨x, named, sound.self_mem_preorder x⟩
    · obtain ⟨c, child, below⟩ := sound.mem_descendants_iff.mp (ih above)
      exact sound.mem_descendants_iff.mpr ⟨c, child, sound.child_mem_preorder below named⟩

end Sound

/-- Every node below the handle is the parent of the children it names. -/
def Owned (a : Arena) (id : NodeId) : Prop :=
  ∀ x ∈ a.preorder id, ∀ c ∈ a.children x, a.parent c = some x

section Owned

variable {id : NodeId} (owned : a.Owned id)

include owned

theorem Owned.eq_of_mem_children {x y c : NodeId} (first : x ∈ a.preorder id)
    (second : y ∈ a.preorder id) (child : c ∈ a.children x) (child' : c ∈ a.children y) : x = y :=
  Option.some.inj ((owned x first c child).symm.trans (owned y second c child'))

variable (sound : a.Sound)

include sound

theorem Owned.below {x : NodeId} (member : x ∈ a.preorder id) : a.Owned x :=
  fun y below => owned y (sound.preorder_subset member below)

theorem Owned.mem_ancestors {x y : NodeId} (member : y ∈ a.preorder id)
    (below : x ∈ a.preorder y) : x = y ∨ y ∈ a.ancestors x := by
  refine sound.preorder_induct (motive := fun x => x = y ∨ y ∈ a.ancestors x) (.inl rfl) ?_ x below
  intro p inside above c child
  have adopted := owned p (sound.preorder_subset member inside) c child
  rw [sound.ancestors_of_parent adopted, List.mem_cons]
  exact .inr (above.imp_left Eq.symm)

/-- To be below and to be above are the same relation. -/
theorem Owned.mem_descendants_iff {x y : NodeId} (member : y ∈ a.preorder id) :
    x ∈ a.descendants y ↔ y ∈ a.ancestors x := by
  constructor
  · intro below
    obtain ⟨c, child, below⟩ := sound.mem_descendants_iff.mp below
    have adopted := owned y member c child
    obtain rfl | above := owned.mem_ancestors sound (sound.child_mem_preorder member child) below
    · rw [sound.ancestors_of_parent adopted]
      exact List.mem_cons_self
    · exact sound.mem_ancestors_of_parent above adopted
  · exact sound.mem_descendants_of_mem_ancestors

/-- Of two children of a node, neither is below the other. -/
theorem Owned.not_mem_descendants {x c d : NodeId} (member : x ∈ a.preorder id)
    (first : c ∈ a.children x) (second : d ∈ a.children x) : d ∉ a.descendants c := by
  intro below
  have small := sound.index_lt below
  have different : d ≠ c := by
    rintro rfl
    omega
  have inside := sound.mem_preorder_iff.mpr (.inr (sound.mem_descendants_iff.mp below))
  obtain ⟨p, among, named⟩ := sound.exists_parent inside different
  have within := sound.preorder_subset (sound.child_mem_preorder member first) among
  have least := sound.index_le among
  have large := sound.older x c first
  rw [owned.eq_of_mem_children within member named second] at least
  omega

/-- Trees below different children of a node have nothing in common. -/
theorem Owned.disjoint_children {x c d : NodeId} (member : x ∈ a.preorder id)
    (first : c ∈ a.children x) (second : d ∈ a.children x) (different : c ≠ d) :
    (a.preorder c).Disjoint (a.preorder d) := by
  intro y below below'
  have start : c ∉ a.preorder d := by
    rw [sound.mem_preorder_iff, ← sound.mem_descendants_iff, not_or]
    exact ⟨different, owned.not_mem_descendants sound member second first⟩
  refine sound.preorder_induct (motive := fun y => y ∉ a.preorder d) start ?_ y below below'
  intro p inside outside e child among
  have within := sound.preorder_subset (sound.child_mem_preorder member first) inside
  by_cases top : e = d
  · have lower := sound.child_mem_descendants inside child
    exact owned.not_mem_descendants sound member first second (top ▸ lower)
  · obtain ⟨q, between, named⟩ := sound.exists_parent among top
    have within' := sound.preorder_subset (sound.child_mem_preorder member second) between
    exact outside (owned.eq_of_mem_children within within' child named ▸ between)

end Owned

/-- A tree is owned if its top has its children and the trees below them are owned. -/
theorem Sound.owned_of_children (sound : a.Sound) {id : NodeId}
    (each : ∀ c ∈ a.children id, a.parent c = some id ∧ a.Owned c) : a.Owned id := by
  intro x member c child
  obtain rfl | ⟨d, among, below⟩ := sound.mem_preorder_iff.mp member
  · exact (each c child).1
  · exact (each d among).2 x below c child

/-- A tree stays owned while the nodes below its top keep their parents. -/
theorem Owned.mono {id : NodeId} (owned : a.Owned id) (sound : a.Sound) (grown : a.Grown b)
    (inside : id.index < a.size) (kept : ∀ x ∈ a.descendants id, b.parent x = a.parent x) :
    b.Owned id := by
  intro x member c child
  rw [sound.preorder_of_rows grown.rows inside] at member
  have small := Nat.lt_of_le_of_lt (sound.index_le member) inside
  rw [children, (get_eq_of_rows grown.rows small).2] at child
  rw [kept c (sound.child_mem_descendants member child), owned x member c child]

/-- The tree below a root that nothing names, with links up that agree with its links down. -/
structure Parented (a : Arena) (root : NodeId) : Prop where
  sound : a.Sound
  top : a.parent root = none
  owned : a.Owned root

/-- Two children of a node that follow each other. -/
def Neighbours (a : Arena) (x y : NodeId) : Prop :=
  ∃ p i, a.parent x = some p ∧ a.parent y = some p ∧ (a.children p)[i]? = some x ∧
    (a.children p)[i + 1]? = some y

namespace Parented

variable {root x y : NodeId} (parented : a.Parented root)

include parented

theorem exists_parent (member : x ∈ a.preorder root) (other : x ≠ root) :
    ∃ p ∈ a.preorder root, a.parent x = some p ∧
      ∀ q ∈ a.preorder root, x ∈ a.children q ↔ q = p := by
  obtain ⟨p, inside, named⟩ := parented.sound.exists_parent member other
  refine ⟨p, inside, parented.owned p inside x named, fun q among => ⟨fun also => ?_, ?_⟩⟩
  · exact parented.owned.eq_of_mem_children among inside also named
  · rintro rfl
    exact named

theorem not_mem_children (p : NodeId) : root ∉ a.children p :=
  parented.sound.orphan root parented.top p

theorem rootOf_eq (member : x ∈ a.preorder root) : a.rootOf x = root := by
  refine parented.sound.preorder_induct (motive := fun x => a.rootOf x = root) ?_ ?_ x member
  · rw [rootOf, ancestors_of_orphan parented.top]
    rfl
  · intro p inside up c child
    rw [parented.sound.rootOf_of_parent (parented.owned p inside c child), up]

/-- There is one way down to each node. -/
theorem exists_unique_follow (member : x ∈ a.preorder root) :
    ∃! path, a.follow root path = some x := by
  have sound := parented.sound
  obtain ⟨path, leads⟩ := sound.mem_preorder_iff_follow.mp member
  refine ⟨path, leads, fun path' leads' => ?_⟩
  clear member
  induction path using List.reverseRecOn generalizing x path' with
  | nil =>
    obtain rfl := Option.some.inj leads
    induction path' using List.reverseRecOn with
    | nil => rfl
    | append_singleton path' i _ =>
      obtain ⟨p, -, here⟩ := follow_concat.mp leads'
      exact absurd (List.mem_of_getElem? here) (parented.not_mem_children p)
  | append_singleton path i ih =>
    obtain ⟨p, leads, here⟩ := follow_concat.mp leads
    induction path' using List.reverseRecOn with
    | nil =>
      obtain rfl := Option.some.inj leads'
      exact absurd (List.mem_of_getElem? here) (parented.not_mem_children p)
    | append_singleton path' j _ =>
      obtain ⟨q, leads', here'⟩ := follow_concat.mp leads'
      obtain rfl := parented.owned.eq_of_mem_children
        (sound.mem_preorder_iff_follow.mpr ⟨path', leads'⟩)
        (sound.mem_preorder_iff_follow.mpr ⟨path, leads⟩)
        (List.mem_of_getElem? here') (List.mem_of_getElem? here)
      rw [ih leads path' leads']
      obtain ⟨inside, same⟩ := List.getElem?_eq_some_iff.mp here
      obtain ⟨inside', same'⟩ := List.getElem?_eq_some_iff.mp here'
      have index := (sound.distinct q).getElem_inj_iff.mp (same'.trans same.symm)
      rw [index]

/-- The place of a node among its siblings. -/
theorem indexInParent?_eq_some_iff {p : NodeId} (adopted : a.parent x = some p) {i : Nat} :
    a.indexInParent? x = some i ↔ (a.children p)[i]? = some x := by
  have found : a.indexInParent? x = (a.children p).findIdx? (· == x) := by
    simp [indexInParent?, siblings?, adopted]
  rw [found, List.findIdx?_eq_some_iff_getElem, List.getElem?_eq_some_iff]
  constructor
  · rintro ⟨inside, same, -⟩
    exact ⟨inside, beq_iff_eq.mp same⟩
  · rintro ⟨inside, same⟩
    refine ⟨inside, beq_iff_eq.mpr same, fun j earlier again => ?_⟩
    have twice := (beq_iff_eq.mp again).trans same.symm
    have index := (parented.sound.distinct p).getElem_inj_iff.mp twice
    omega

theorem exists_indexInParent (member : x ∈ a.preorder root) (other : x ≠ root) :
    ∃ p i, a.parent x = some p ∧ a.indexInParent? x = some i ∧ (a.children p)[i]? = some x := by
  obtain ⟨p, inside, adopted, names⟩ := parented.exists_parent member other
  obtain ⟨i, here⟩ := List.mem_iff_getElem?.mp ((names p inside).mpr rfl)
  exact ⟨p, i, adopted, (parented.indexInParent?_eq_some_iff adopted).mpr here, here⟩

theorem parent_mem_preorder {p : NodeId} (member : x ∈ a.preorder root)
    (adopted : a.parent x = some p) : p ∈ a.preorder root := by
  have other : x ≠ root := by
    rintro rfl
    rw [parented.top] at adopted
    cases adopted
  obtain ⟨q, inside, adopted', -⟩ := parented.exists_parent member other
  rw [adopted'] at adopted
  exact Option.some.inj adopted ▸ inside

theorem nextSibling?_eq_some_iff (member : x ∈ a.preorder root) :
    a.nextSibling? x = some y ↔ a.Neighbours x y := by
  have unfolded : a.nextSibling? x = some y ↔ ∃ i, a.indexInParent? x = some i ∧
      ∃ p, a.parent x = some p ∧ (a.children p)[i + 1]? = some y := by
    simp [nextSibling?, siblings?, Option.bind_eq_some_iff]
  rw [unfolded]
  constructor
  · rintro ⟨i, index, p, adopted, next⟩
    have inside := parented.parent_mem_preorder member adopted
    exact ⟨p, i, adopted, parented.owned p inside y (List.mem_of_getElem? next),
      (parented.indexInParent?_eq_some_iff adopted).mp index, next⟩
  · rintro ⟨p, i, adopted, -, here, next⟩
    exact ⟨i, (parented.indexInParent?_eq_some_iff adopted).mpr here, p, adopted, next⟩

theorem previousSibling?_eq_some_iff (member : y ∈ a.preorder root) :
    a.previousSibling? y = some x ↔ a.Neighbours x y := by
  have unfolded : a.previousSibling? y = some x ↔ ∃ i, a.indexInParent? y = some (i + 1) ∧
      ∃ p, a.parent y = some p ∧ (a.children p)[i]? = some x := by
    simp only [previousSibling?, siblings?, Option.bind_eq_bind, Option.bind_eq_some_iff]
    constructor
    · rintro ⟨index, found, previous⟩
      cases index with
      | zero => cases previous
      | succ i => exact ⟨i, found, by simpa [Option.bind_eq_some_iff] using previous⟩
    · rintro ⟨i, found, previous⟩
      exact ⟨i + 1, found, by simpa [Option.bind_eq_some_iff] using previous⟩
  rw [unfolded]
  constructor
  · rintro ⟨i, index, p, adopted, previous⟩
    have inside := parented.parent_mem_preorder member adopted
    exact ⟨p, i, parented.owned p inside x (List.mem_of_getElem? previous), adopted, previous,
      (parented.indexInParent?_eq_some_iff adopted).mp index⟩
  · rintro ⟨p, i, -, adopted, previous, here⟩
    exact ⟨i, (parented.indexInParent?_eq_some_iff adopted).mpr here, p, adopted, previous⟩

end Parented

end LuaTree.Arena
