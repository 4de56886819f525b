import LuaTree.Proofs.Visits

/-!
# Walking over a node

What a rewriter does with the children of a node is its own affair: it may add
nodes between them and change its state. A walk asks it for each child of the
node in order, once, and hands on what each visit left. It adds a node of its own
only if a visit gave another handle, and that node is the old one but for its
children (`gives_walk_iff`). Lists of children are copied from their first
changed element on (`walkList_eq_copyOnChange`).
-/

namespace LuaTree

variable {σ α β : Type}

namespace Rewriting

/-- The copy of a list after one more visit. As long as nothing changed there is none, and `seen` is
what would have been copied. -/
def extendCopy (seen : List NodeId) (copy : Option (List NodeId)) (old new : NodeId) :
    Option (List NodeId) :=
  match copy with
  | some items => some (items ++ [new])
  | none => if new = old then none else some (seen ++ [new])

/-- Rewrite the rest of a list behind the elements that were seen. -/
def copyOnChange (visit : NodeId → Rewriting σ NodeId) (seen : List NodeId)
    (copy : Option (List NodeId)) : List NodeId → Rewriting σ (Option (List NodeId))
  | [] => return copy
  | old :: rest => do
    let new ← visit old
    copyOnChange visit (seen ++ [old]) (extendCopy seen copy old new) rest

theorem copyOnChange_eq (visit : NodeId → Rewriting σ NodeId) (seen : List NodeId)
    (copy : Option (List NodeId)) (rest : List NodeId) :
    copyOnChange visit seen copy rest = (do
      let ys ← rest.mapM visit
      return match copy with
        | some items => some (items ++ ys)
        | none => if ys = rest then none else some (seen ++ ys)) := by
  induction rest generalizing seen copy with
  | nil => cases copy <;> simp [copyOnChange]
  | cons old rest ih =>
    simp only [copyOnChange, ih, List.mapM_cons, bind_assoc, pure_bind]
    refine bind_congr fun new => bind_congr fun ys => ?_
    cases copy with
    | some items => simp [extendCopy]
    | none => by_cases same : new = old <;> simp [extendCopy, same]

/-- A list is copied only if an element changed, and only from there on. -/
theorem walkList_eq_copyOnChange (visit : NodeId → Rewriting σ NodeId) (list : List NodeId) :
    walkList visit list = copyOnChange visit [] none list := by
  rw [walkList, copyOnChange_eq]
  rfl

variable {start stop : σ × Arena}

/-- A run of two actions passes through the end of the first. -/
theorem Gives.of_bind {x : Rewriting σ α} {f : α → Rewriting σ β} {z : β}
    (gives : (x >>= f).Gives start z stop) :
    ∃ y mid, x.Gives start y mid ∧ (f y).Gives mid z stop := by
  unfold Gives at gives
  rw [StateT.run_bind, Edit.run_bind] at gives
  rcases run : (x.run start.1).run.run start.2 with ⟨problem | ⟨y, s⟩, b⟩
  · rw [run] at gives
    cases gives
  · rw [run] at gives
    exact ⟨y, (s, b), run, gives⟩

theorem Gives.of_pure {y z : α} (gives : (pure y : Rewriting σ α).Gives start z stop) :
    z = y ∧ stop = start :=
  gives.unique (gives_pure y start)

theorem Gives.of_lift {e : Edit α} {y : α} (gives : (liftM e : Rewriting σ α).Gives start y stop) :
    e.run.run start.2 = (.ok y, stop.2) ∧ stop.1 = start.1 := by
  change (e >>= fun y => pure (y, start.1) : Edit (α × σ)).run.run start.2 = _ at gives
  rw [Edit.run_bind] at gives
  rcases run : e.run.run start.2 with ⟨problem | x, b⟩
  · rw [run] at gives
    cases gives
  · rw [run] at gives
    obtain ⟨result, arena⟩ := Prod.mk.inj gives
    obtain ⟨same, state⟩ := Prod.mk.inj (Except.ok.inj result)
    exact ⟨by rw [same, arena], state.symm⟩

/-- The members of a list are visited in order, each once, and each visit begins where the one
before it ended. -/
structure VisitsEach (visit : NodeId → Rewriting σ NodeId) (ids : List NodeId)
    (start : σ × Arena) (visits : List (Visit σ)) (stop : σ × Arena) : Prop where
  nodes : visits.map Visit.node = ids
  gives : ∀ v ∈ visits, (visit v.node).Gives v.before v.result v.after
  threads : Threads Eq start visits stop

variable {visit visit' : NodeId → Rewriting σ NodeId} {ids ys : List NodeId}

theorem VisitsEach.cons {id y : NodeId} {mid : σ × Arena} {visits : List (Visit σ)}
    (first : (visit id).Gives start y mid) (rest : VisitsEach visit ids mid visits stop) :
    VisitsEach visit (id :: ids) start (⟨id, start, y, mid⟩ :: visits) stop where
  nodes := congrArg (id :: ·) rest.nodes
  gives := List.forall_mem_cons.mpr ⟨first, rest.gives⟩
  threads := .cons rfl rest.threads

theorem VisitsEach.congr {visits : List (Visit σ)} (each : VisitsEach visit ids start visits stop)
    (same : ∀ id ∈ ids, visit' id = visit id) : VisitsEach visit' ids start visits stop := by
  refine ⟨each.nodes, fun v member => ?_, each.threads⟩
  rw [same v.node (each.nodes ▸ List.mem_map_of_mem member)]
  exact each.gives v member

theorem gives_mapM_iff : (ids.mapM visit).Gives start ys stop ↔
    ∃ visits, VisitsEach visit ids start visits stop ∧ visits.map Visit.result = ys := by
  constructor
  · intro gives
    induction ids generalizing start ys with
    | nil =>
      rw [List.mapM_nil] at gives
      obtain ⟨rfl, rfl⟩ := gives.of_pure
      exact ⟨[], ⟨rfl, by simp, .nil rfl⟩, rfl⟩
    | cons id ids ih =>
      rw [List.mapM_cons] at gives
      obtain ⟨y, mid, first, others⟩ := gives.of_bind
      obtain ⟨zs, last, rest, final⟩ := others.of_bind
      obtain ⟨rfl, rfl⟩ := final.of_pure
      obtain ⟨visits, each, rfl⟩ := ih rest
      exact ⟨_, each.cons first, rfl⟩
  · rintro ⟨visits, each, rfl⟩
    rw [← each.nodes]
    exact Descent.gives_mapM each.gives each.threads

end Rewriting

namespace Edit

theorem run_rebuild_eq_ok_iff {id y : NodeId} {k : Kind NodeId} {a b : Arena} :
    (rebuild id k).run.run a = (.ok y, b) ↔
      k.children.Nodup ∧ (∀ c ∈ k.children, a.contains c) ∧ y = a.next ∧
        b = a.push (a.origin id) k := by
  rw [run_rebuild]
  constructor
  · intro run
    obtain ⟨problem, refused⟩ | ⟨distinct, inside, added⟩ := run_alloc_cases k (a.origin id) a
    · cases run.symm.trans refused
    · obtain ⟨result, arena⟩ := Prod.mk.inj (run.symm.trans added)
      exact ⟨distinct, fun c member => Arena.contains_iff.mpr (inside c member),
        Except.ok.inj result, arena⟩
  · rintro ⟨distinct, present, rfl, rfl⟩
    exact run_alloc distinct (fun c member => Arena.contains_iff.mp (present c member)) _

end Edit

/-- One node is added behind all others in place of `id`. It is like `id` in everything but its
children. -/
structure Replaces (id : NodeId) (start mid : σ × Arena) (ys : List NodeId) (y : NodeId)
    (stop : σ × Arena) : Prop where
  handle : y = mid.2.next
  state : stop.1 = mid.1
  added : stop.2 = mid.2.push (mid.2.origin id) (stop.2.kind y)
  children : stop.2.children y = ys
  frame : (stop.2.kind y).frame = (start.2.kind id).frame
  /-- Visits that only add nodes leave the origin of the old one as it was. -/
  origin : start.2.contains id → start.2.Grown mid.2 → stop.2.origin y = start.2.origin id

theorem replaces_push {id : NodeId} {start mid : σ × Arena} {k : Kind NodeId}
    (frame : k.frame = (start.2.kind id).frame) :
    Replaces id start mid k.children mid.2.next
      (mid.1, mid.2.push (mid.2.origin id) k) where
  handle := rfl
  state := rfl
  added := by simp
  children := by simp
  frame := by simpa using frame
  origin present grown := by
    have inside := Arena.contains_iff.mp present
    simpa using (Arena.get_eq_of_rows grown.rows inside).1

/-- How a walk ends when its visits gave the handles `ys`. -/
def Concludes (id : NodeId) (start mid : σ × Arena) (ys : List NodeId) (y : NodeId)
    (stop : σ × Arena) : Prop :=
  if ys = start.2.children id then y = id ∧ stop = mid
  else ys.Nodup ∧ (∀ z ∈ ys, mid.2.contains z) ∧ Replaces id start mid ys y stop

namespace Descent

variable {d : Descent σ} {start mid stop : σ × Arena} {id y : NodeId} {ys : List NodeId}

theorem concludes_of_gives (count : ys.length = (start.2.children id).length)
    (gives : (if ys = start.2.children id then return id
      else Edit.rebuild id ((start.2.kind id).refill ys) : Rewriting σ NodeId).Gives mid y stop) :
    Concludes id start mid ys y stop := by
  unfold Concludes
  split at gives
  next same =>
    rw [if_pos same]
    exact gives.of_pure
  next other =>
    rw [if_neg other]
    obtain ⟨children, frame⟩ := Kind.children_refill count
    obtain ⟨run, state⟩ := gives.of_lift
    obtain ⟨distinct, present, rfl, arena⟩ := Edit.run_rebuild_eq_ok_iff.mp run
    have replaces : Replaces id start mid _ _ _ := replaces_push frame
    rw [← state, ← arena, children] at replaces
    rw [children] at distinct present
    exact ⟨distinct, present, replaces⟩

/-- A walk succeeds just if all its visits do, and, if it has to add a node, the handles that they
gave are those of different nodes of the arena. -/
theorem gives_walk_iff (list : d.list = Rewriting.walkList d.node) :
    (d.walk id (start.2.kind id)).Gives start y stop ↔
      ∃ visits mid, Rewriting.VisitsEach d.node (start.2.children id) start visits mid ∧
        Concludes id start mid (visits.map Visit.result) y stop := by
  constructor
  · intro gives
    rw [walk_eq list] at gives
    obtain ⟨ys, mid, visited, rest⟩ := gives.of_bind
    obtain ⟨visits, each, rfl⟩ := Rewriting.gives_mapM_iff.mp visited
    have count : (visits.map Visit.result).length = (start.2.kind id).children.length := by
      rw [← each.nodes, List.length_map, List.length_map]
    exact ⟨visits, mid, each, concludes_of_gives count rest⟩
  · rintro ⟨visits, mid, each, concludes⟩
    have visited := Rewriting.gives_mapM_iff.mpr ⟨visits, each, rfl⟩
    unfold Concludes at concludes
    split at concludes
    next same =>
      obtain ⟨rfl, rfl⟩ := concludes
      exact gives_walk_same list _ visited same
    next other =>
      obtain ⟨distinct, present, replaces⟩ := concludes
      have inside : ∀ z ∈ visits.map Visit.result, z.index < mid.2.size :=
        fun z member => Arena.contains_iff.mp (present z member)
      have rebuilt := gives_walk_rebuilt list id visited other distinct inside replaces.children
        replaces.frame
      rw [← replaces.added, ← replaces.state, ← replaces.handle] at rebuilt
      exact rebuilt

end Descent

namespace Rewriter

/-- Whatever a rewriter does to nodes, a walk over a node whose children are older has it rewrite
each of them once, in order, and then keeps the node or adds one like it over the results. Lists are
copied from their first changed element on. -/
theorem walk_visits_children {r : Rewriter σ} (list : r.list = Rewriting.walkList) {id : NodeId}
    {start : σ × Arena} (older : ∀ c ∈ start.2.children id, c.index < id.index) :
    (∀ y stop, ((r.descent id).walk id (start.2.kind id)).Gives start y stop ↔
      ∃ visits mid, Rewriting.VisitsEach r.rewrite (start.2.children id) start visits mid ∧
        Concludes id start mid (visits.map Visit.result) y stop) ∧
    ∀ visit ids, r.list visit ids = Rewriting.copyOnChange visit [] none ids := by
  have lists : (r.descent id).list = Rewriting.walkList (r.descent id).node := by
    rw [descent, list]
  have same : ∀ c ∈ start.2.children id, (r.descent id).node c = r.rewrite c :=
    fun c member => r.node_descent (older c member)
  refine ⟨fun y stop => (Descent.gives_walk_iff lists).trans ?_, fun visit ids => ?_⟩
  · refine exists_congr fun visits => exists_congr fun mid => and_congr_left' ?_
    exact ⟨fun each => each.congr fun c member => (same c member).symm,
      fun each => each.congr same⟩
  · rw [list]
    exact Rewriting.walkList_eq_copyOnChange visit ids

/-- In `f(x)`, a rewriter that counts its calls gives another name to `x`. -/
theorem walk_visits_children_call :
    let r : Rewriter Nat := {
      node := fun d id kind => do
        modify (· + 1)
        if kind = .identifier "x" then Edit.rebuild id (.identifier "z") else d.walk id kind }
    let a := (Call.call ⟨0⟩ [⟨1⟩]).after ((Call.identifier "x").after
      ((Call.identifier "f").after Arena.empty))
    let b := a.push default (.identifier "z")
    let stop := (2, b.push default (.functionCall ⟨0⟩ [⟨3⟩]))
    ((r.descent ⟨2⟩).walk ⟨2⟩ (a.kind ⟨2⟩)).Gives (0, a) ⟨4⟩ stop := by
  intro r a b stop
  have first : (r.rewrite ⟨0⟩).Gives (0, a) ⟨0⟩ (1, a) := gives_rewrite rfl
  have second : (r.rewrite ⟨1⟩).Gives (1, a) ⟨3⟩ (2, b) := gives_rewrite rfl
  have older : ∀ c ∈ ((0, a) : Nat × Arena).2.children ⟨2⟩, c.index < (⟨2⟩ : NodeId).index := by
    decide
  have walk := (walk_visits_children (r := r) rfl older).1 ⟨4⟩ stop
  have children : ((0, a) : Nat × Arena).2.children ⟨2⟩ = [⟨0⟩, ⟨1⟩] := by decide
  have replaces : Replaces ⟨2⟩ (0, a) (2, b) [⟨0⟩, ⟨3⟩] ⟨4⟩ stop :=
    replaces_push (k := .functionCall ⟨0⟩ [⟨3⟩]) (by decide)
  rw [children] at walk
  have each := Rewriting.VisitsEach.cons first (.cons second ⟨rfl, by simp, .nil rfl⟩)
  refine walk.mpr ⟨_, (2, b), each, ?_⟩
  rw [Concludes, if_neg (by decide)]
  exact ⟨by decide, by decide, replaces⟩

end Rewriter

end LuaTree
