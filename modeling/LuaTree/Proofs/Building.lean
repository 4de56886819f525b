import LuaTree.Grammar.Parse
import LuaTree.Proofs.Adoption
import LuaTree.Proofs.Traversals

/-!
# Parsing into an arena

A program is parsed into an arena as it would be parsed into a tree whose nodes
are then added in postorder (`build_eq`). Both readers run over the same tokens
and stop at the same places with the same errors. Where the one has made trees,
the other has the handles that grafting these trees one after another gives
(`Arena.Grafts`).

`Builds` says so of a part of a production. A production starts with the nodes
that it was given, if any, and ends with those that it yields; in between, more
nodes come behind them, in the order in which they will be children. A new node
has all of them as its children, so it names different nodes of the arena and is
never refused. What is looked up is one of them, so it is never missing.
-/

namespace LuaTree

open Arena

/-- A tree and the handle of its root in an arena. -/
abbrev Rooted := SourceTree × NodeId

namespace Arena

/-- The comments around a node can be told when it is added, too. -/
theorem attach_push (a : Arena) (origin : Origin) (kind : Kind NodeId)
    (leading trailing : List Comment) :
    (a.push origin kind).attach a.next leading trailing =
      a.push (origin.withComments leading trailing) kind := by
  have last (nodes : Array Node) (node : Node) (f : Node → Node) {i : Nat} (size : nodes.size = i) :
      (nodes.push node).modify i f = nodes.push (f node) := by
    subst size
    refine Array.ext_getElem? fun i => ?_
    rw [Array.getElem?_modify, Array.getElem?_push, Array.getElem?_push]
    by_cases here : i = nodes.size <;> simp [here, eq_comm]
  simp only [push, attach, Arena.mk.injEq, and_true]
  exact last _ _ _ (size_adopt _ _ _)

/-- The second arena is the first one behind some trees that were grafted one after another, and
these are their handles. -/
structure Grafts (a : Arena) (rooted : List Rooted) (b : Arena) : Prop where
  sound : a.Sound
  run : Kind.walk graft (rooted.map Prod.fst) a = (rooted, b)

namespace Grafts

variable {a b c : Arena} {ps qs : List Rooted} {p : Rooted}

theorem nil (sound : a.Sound) : Grafts a [] a :=
  ⟨sound, rfl⟩

theorem planted (grafts : Grafts a ps b) : Planted a b (ps.map Prod.snd) := by
  have planted : Planted a (Kind.walk graft (ps.map Prod.fst) a).2 _ :=
    planted_walk (fun t _ a sound => planted_graft t sound) grafts.sound
  rwa [grafts.run] at planted

theorem sound_behind (grafts : Grafts a ps b) : b.Sound :=
  grafts.planted.grown.sound grafts.sound

theorem append (first : Grafts a ps b) (second : Grafts b qs c) : Grafts a (ps ++ qs) c := by
  refine ⟨first.sound, ?_⟩
  rw [List.map_append, Kind.walk_append, first.run, second.run]

/-- What was grafted unfolds to the trees. -/
theorem tree_eq (grafts : Grafts a ps b) (member : p ∈ ps) : b.tree p.2 = p.1 := by
  have holds : ∀ x ∈ (Kind.walk graft (ps.map Prod.fst) a).1, _ :=
    (walk_graft (fun t _ a => graft_spec t a) a).2
  rw [grafts.run] at holds
  exact (holds p member).2 b (List.prefix_refl _)

theorem span_eq (grafts : Grafts a ps b) (member : p ∈ ps) : b.span p.2 = p.1.span := by
  rw [← grafts.tree_eq member, grafts.sound_behind.tree_eq]
  rfl

theorem kind_eq (grafts : Grafts a ps b) (member : p ∈ ps) :
    (b.kind p.2).map b.tree = p.1.kind := by
  rw [← grafts.tree_eq member, grafts.sound_behind.tree_eq]
  rfl

/-- A node over all that was grafted. -/
theorem push {kind : Kind Rooted} (grafts : Grafts a kind.children b) (origin : Origin) :
    Grafts a [(.node origin (kind.map Prod.fst), b.next)]
      (b.push origin (kind.map Prod.snd)) := by
  obtain ⟨found, same, children, run⟩ := Kind.traverse_run graft (kind.map Prod.fst) a
  rw [Kind.children_map, grafts.run] at children run
  have filled : found = kind := by
    have frame : found.frame = kind.frame := by
      rw [← Kind.frame_map Prod.fst found, same, Kind.frame_map]
    rw [← Kind.refill_eq frame, children, Kind.refill_children]
  refine ⟨grafts.sound, ?_⟩
  simp only [List.map_cons, List.map_nil, Kind.walk, graft_node, run, filled]

/-- Such a node names different nodes of the arena. -/
theorem run_alloc {kind : Kind Rooted} (grafts : Grafts a kind.children b) (origin : Origin) :
    (Edit.alloc (kind.map Prod.snd) origin).run.run b =
      (.ok b.next, b.push origin (kind.map Prod.snd)) := by
  have planted := grafts.planted
  rw [← Kind.children_map] at planted
  exact Edit.run_alloc (planted.sublist.nodup (nodup_added a b))
    (fun _ member => planted.inside member) origin

/-- What was grafted is there. -/
theorem run_lookUp (grafts : Grafts a ps b) (member : p ∈ ps) :
    (Edit.lookUp p.2).run.run b = (.ok (b.get p.2), b) := by
  have inside : b.contains p.2 = true :=
    contains_iff.mpr (grafts.planted.inside (List.mem_map_of_mem member))
  change (if b.contains p.2 = true then _ else _ : Edit Node).run.run b = _
  rw [if_pos inside]
  rfl

/-- Comments that are found around a tree that was grafted last. -/
theorem attach {t : SourceTree} {id : NodeId} (grafts : Grafts a [(t, id)] b)
    (leading trailing : List Comment) :
    Grafts a [(t.withComments leading trailing, id)] (b.attach id leading trailing) := by
  obtain ⟨origin, kind⟩ := t
  refine ⟨grafts.sound, ?_⟩
  have run := grafts.run
  simp only [List.map_cons, List.map_nil, Kind.walk, Tree.withComments, graft_node] at run ⊢
  generalize kind.traverse graft (List.mapM graft) a = result at run ⊢
  obtain ⟨found, mid⟩ := result
  obtain ⟨rfl, rfl⟩ : mid.next = id ∧ mid.push origin found = b := by simpa using run
  simp only [attach_push]

/-- Over an arena that was empty, it is the arena of the tree. -/
theorem ofTree_eq (grafts : Grafts empty [p] b) : ofTree p.1 = b.setRoot p.2 := by
  obtain ⟨t, id⟩ := p
  obtain ⟨rfl, rfl⟩ : (graft t empty).1 = id ∧ (graft t empty).2 = b := by
    simpa [Kind.walk] using grafts.run
  rfl

end Grafts

end Arena

/-- What a reader yields, as trees and as handles, and the nodes that these are. -/
structure Yield (α β : Type) where
  Content : Type
  trees : Content → α
  handles : Content → β
  rooted : Content → List Rooted

namespace Yield

/-- What has nothing to do with nodes. -/
def plain (α : Type) : Yield α α := ⟨α, id, id, fun _ => []⟩

def node : Yield SourceTree NodeId := ⟨Rooted, Prod.fst, Prod.snd, fun p => [p]⟩

def nodes : Yield (List SourceTree) (List NodeId) :=
  ⟨List Rooted, List.map Prod.fst, List.map Prod.snd, id⟩

def node? : Yield (Option SourceTree) (Option NodeId) :=
  ⟨Option Rooted, Option.map Prod.fst, Option.map Prod.snd, Option.toList⟩

/-- The parameters and the body of a function. -/
def function : Yield (List SourceTree × SourceTree) (List NodeId × NodeId) :=
  ⟨List Rooted × Rooted, fun f => (f.1.map Prod.fst, f.2.1), fun f => (f.1.map Prod.snd, f.2.2),
    fun f => f.1 ++ [f.2]⟩

end Yield

namespace Grammar

open TokenReader

variable {α β γ δ : Type}

/-- The outcome of reading into an arena, and what the arena is then. -/
def runIn (z : ArenaReader α) (c : Cursor) (a : Arena) :
    Except EditError (Except Failure (α × Cursor)) × Arena :=
  (z.run c).run.run.run a

/-- The outcome of reading a tree, and the outcome of reading into an arena that was `a` before. -/
inductive Mirrored (y : Yield α β) (a : Arena) : Except Failure (α × Cursor) →
    Except EditError (Except Failure (β × Cursor)) × Arena → Prop where
  | ok (content : y.Content) {c : Cursor} {b : Arena} (grafts : Grafts a (y.rooted content) b) :
      Mirrored y a (.ok (y.trees content, c)) (.ok (.ok (y.handles content, c)), b)
  | error {e : Failure} {b : Arena} : Mirrored y a (.error e) (.ok (.error e), b)

/-- Where the nodes `before` have been added, the two readers have outcomes that mirror each other,
and what they yield has been added in the place of these nodes. -/
def Builds (before : List Rooted) (y : Yield α β) (x : TokenReader α) (z : ArenaReader β) : Prop :=
  ∀ (a b : Arena) (c : Cursor), Grafts a before b →
    Mirrored y a (x.run c) (runIn z c b)

theorem runIn_bind (z : ArenaReader α) (g : α → ArenaReader β) (c : Cursor) (a : Arena) :
    runIn (z >>= g) c a =
      match runIn z c a with
      | (.ok (.ok (v, d)), b) => runIn (g v) d b
      | (.ok (.error e), b) => (.ok (.error e), b)
      | (.error problem, b) => (.error problem, b) := by
  have step : ((z >>= g).run c).run = ((z.run c).run >>= fun
      | .ok (v, d) => ((g v).run d).run
      | .error e => pure (.error e)) := by
    rw [StateT.run_bind, ExceptT.run_bind]
    refine bind_congr fun result => ?_
    rcases result with e | ⟨v, d⟩ <;> rfl
  rw [runIn, step, Edit.run_bind, ← runIn]
  rcases runIn z c a with ⟨problem | e | ⟨v, d⟩, b⟩ <;> rfl

theorem runIn_liftM (e : Edit α) (c : Cursor) (a : Arena) :
    runIn (liftM e) c a =
      match e.run.run a with
      | (.ok v, b) => (.ok (.ok (v, c)), b)
      | (.error problem, b) => (.error problem, b) := by
  have step : ((liftM e : ArenaReader α).run c).run = (e >>= fun v => pure (.ok (v, c))) := by
    change (Except.ok <$> e) >>= _ = _
    rw [map_eq_pure_bind, bind_assoc]
    rfl
  rw [runIn, step, Edit.run_bind]
  rfl

/-- Looking up what was grafted never fails. -/
theorem runIn_lookUp {a b : Arena} {ps : List Rooted} {p : Rooted} (grafts : Grafts a ps b)
    (member : p ∈ ps) (g : Node → ArenaReader δ) (c : Cursor) :
    runIn (liftM (Edit.lookUp p.2) >>= g) c b = runIn (g (b.get p.2)) c b := by
  rw [runIn_bind, runIn_liftM, grafts.run_lookUp member]

section Builds

variable {before : List Rooted} {y : Yield α β} {y' : Yield γ δ} {x x' : TokenReader α}
  {z z' : ArenaReader β} {f : α → TokenReader γ} {g : β → ArenaReader δ}

theorem builds_pure (content : y.Content) :
    Builds (y.rooted content) y (pure (y.trees content)) (pure (y.handles content)) :=
  fun _ _ _ grafts => .ok content grafts

theorem builds_fail {cause : Cause} : Builds before y (fail cause) (fail cause) :=
  fun _ _ _ _ => .error

/-- One reader and then another one, which starts with what the first one yields. -/
theorem Builds.bind (first : Builds before y x z)
    (further : ∀ content, Builds (y.rooted content) y' (f (y.trees content))
      (g (y.handles content))) :
    Builds before y' (x >>= f) (z >>= g) := by
  intro a b c grafts
  have mirrored := first a b c grafts
  rw [StateT.run_bind, runIn_bind]
  generalize x.run c = left at mirrored
  generalize runIn z c b = right at mirrored
  cases mirrored with
  | ok content grafts => exact further content _ _ _ grafts
  | error => exact .error

/-- What was there before stays there. -/
theorem Builds.behind (first : Builds [] y x z)
    (further : ∀ content, Builds (before ++ y.rooted content) y' (f (y.trees content))
      (g (y.handles content))) :
    Builds before y' (x >>= f) (z >>= g) := by
  intro a b c grafts
  have mirrored := first b b c (.nil grafts.sound_behind)
  rw [StateT.run_bind, runIn_bind]
  generalize x.run c = left at mirrored
  generalize runIn z c b = right at mirrored
  cases mirrored with
  | ok content more => exact further content _ _ _ (grafts.append more)
  | error => exact .error

/-- A reader that makes no nodes. -/
theorem Builds.read {x : TokenReader α} {z : ArenaReader α} {g : α → ArenaReader δ}
    (first : Builds [] (.plain α) x z) (further : ∀ v, Builds before y' (f v) (g v)) :
    Builds before y' (x >>= f) (z >>= g) := by
  refine first.behind fun v => ?_
  have later := further v
  rwa [← List.append_nil before] at later

theorem Builds.ite {p : Prop} [Decidable p] (yes : Builds before y x z)
    (no : Builds before y x' z') :
    Builds before y (if p then x else x') (if p then z else z') := by
  split
  · exact yes
  · exact no

/-- Two ways to some nodes, and what is done with them. -/
theorem Builds.ite_behind {p : Prop} [Decidable p] (yes : Builds [] y x z) (no : Builds [] y x' z')
    (further : ∀ content, Builds (before ++ y.rooted content) y' (f (y.trees content))
      (g (y.handles content))) :
    Builds before y' (if p then x >>= f else x' >>= f) (if p then z >>= g else z' >>= g) :=
  .ite (yes.behind further) (no.behind further)

theorem builds_fail_bind {cause : Cause} :
    Builds before y' (fail cause >>= f) (fail cause >>= g) :=
  Builds.bind (y := ⟨Empty, nofun, nofun, nofun⟩) builds_fail nofun

/-- The new node has all that was there before as its children. -/
theorem builds_make {k : Kind Rooted} (origin : Origin) :
    Builds k.children .node (make origin (k.map Prod.fst)) (make origin (k.map Prod.snd)) := by
  intro a b c grafts
  have run := runIn_liftM (Edit.alloc (k.map Prod.snd) origin) c b
  rw [grafts.run_alloc origin] at run
  change Mirrored _ _ _ (runIn (liftM (Edit.alloc (k.map Prod.snd) origin)) c b)
  rw [run]
  exact .ok (y := .node) (_, _) (grafts.push origin)

theorem builds_of_run {x : TokenReader α} {z : ArenaReader α}
    (run : ∀ c a, ∃ v d, x.run c = .ok (v, d) ∧ runIn z c a = (.ok (.ok (v, d)), a)) :
    Builds [] (.plain α) x z := by
  intro a b c grafts
  obtain ⟨v, d, left, right⟩ := run c b
  rw [left, right]
  exact .ok (y := .plain α) v grafts

theorem builds_getThe : Builds [] (.plain Cursor) (getThe Cursor) (getThe Cursor) :=
  builds_of_run fun _ _ => ⟨_, _, rfl, rfl⟩

theorem builds_peek : Builds [] (.plain Token) peek peek :=
  builds_of_run fun _ _ => ⟨_, _, rfl, rfl⟩

theorem builds_peekKind : Builds [] (.plain TokenKind) peekKind peekKind :=
  builds_of_run fun _ _ => ⟨_, _, rfl, rfl⟩

theorem builds_followingKind : Builds [] (.plain TokenKind) followingKind followingKind :=
  builds_of_run fun _ _ => ⟨_, _, rfl, rfl⟩

theorem builds_next : Builds [] (.plain Token) next next :=
  builds_of_run fun _ _ => ⟨_, _, rfl, rfl⟩

theorem builds_spanFrom (start : Span) :
    Builds [] (.plain Span) (spanFrom start) (spanFrom start) :=
  builds_of_run fun _ _ => ⟨_, _, rfl, rfl⟩

theorem builds_takeLeading : Builds [] (.plain (List Comment)) takeLeading takeLeading :=
  builds_of_run fun _ _ => ⟨_, _, rfl, rfl⟩

theorem builds_takeTrailing : Builds [] (.plain (List Comment)) takeTrailing takeTrailing :=
  builds_of_run fun _ _ => ⟨_, _, rfl, rfl⟩

theorem builds_plain (v : α) : Builds [] (.plain α) (pure v) (pure v) :=
  builds_pure (y := .plain α) v

theorem builds_accept (kind : TokenKind) : Builds [] (.plain Bool) (accept kind) (accept kind) := by
  refine builds_peekKind.read fun _ => .ite ?_ (builds_plain false)
  exact builds_next.read fun _ => builds_plain true

theorem builds_expect (kind : TokenKind) (cause : Cause) :
    Builds [] (.plain Token) (expect kind cause) (expect kind cause) :=
  builds_peekKind.read fun _ => .ite builds_next builds_fail

theorem builds_atBlockEnd : Builds [] (.plain Bool) atBlockEnd atBlockEnd := by
  refine builds_peekKind.read fun kind => ?_
  split <;> exact builds_plain _

theorem builds_nodeFrom {k : Kind Rooted} (start : Span) :
    Builds k.children .node (nodeFrom start (k.map Prod.fst)) (nodeFrom start (k.map Prod.snd)) :=
  (builds_spanFrom start).read fun _ => builds_make _

/-- What is known of a node that is there. -/
theorem Builds.spanOf {p : Rooted} {f : Span → TokenReader γ} {g : Span → ArenaReader δ}
    (member : p ∈ before) (further : Builds before y' (f p.1.span) (g p.1.span)) :
    Builds before y' (spanOf p.1 >>= f) (spanOf p.2 >>= g) := by
  intro a b c grafts
  have run : runIn (NodeMaker.spanOf p.2) c b = (.ok (.ok (b.span p.2, c)), b) :=
    runIn_lookUp grafts member _ c
  rw [runIn_bind, run, grafts.span_eq member]
  exact further a b c grafts

theorem Builds.kindOf {p : Rooted} {f : Kind SourceTree → TokenReader γ}
    {g : Kind NodeId → ArenaReader δ} (member : p ∈ before)
    (further : ∀ (kind : Kind NodeId) (tree : NodeId → SourceTree), kind.map tree = p.1.kind →
      Builds before y' (f p.1.kind) (g kind)) :
    Builds before y' (kindOf p.1 >>= f) (kindOf p.2 >>= g) := by
  intro a b c grafts
  have run : runIn (NodeMaker.kindOf p.2) c b = (.ok (.ok (b.kind p.2, c)), b) :=
    runIn_lookUp grafts member _ c
  rw [runIn_bind, run]
  exact further _ b.tree (grafts.kind_eq member) a b c grafts

theorem builds_attach (p : Rooted) (leading trailing : List Comment) :
    Builds [p] .node (attach p.1 leading trailing) (attach p.2 leading trailing) := by
  intro a b c grafts
  have run : runIn (NodeMaker.attach p.2 leading trailing) c b =
      (.ok (.ok (p.2, c)), b.attach p.2 leading trailing) :=
    runIn_lookUp grafts (List.mem_singleton_self p) _ c
  rw [run]
  exact .ok (y := .node) (_, _) (grafts.attach leading trailing)

theorem builds_operation {op : BinaryOp} (p q : Rooted) :
    Builds [p, q] .node (operation op p.1 q.1) (operation op p.2 q.2) :=
  .spanOf (by simp) (.spanOf (by simp) (builds_make (k := .binary op p q) _))

/-- The span of a block comes from its first and its last statement. -/
theorem Builds.spanOfBlock {ps : List Rooted} {place : Span} {f : Span → TokenReader γ}
    {g : Span → ArenaReader δ} (inside : ps ⊆ before)
    (further : ∀ span, Builds before y' (f span) (g span)) :
    Builds before y' (spanOfBlock place (ps.map Prod.fst) >>= f)
      (spanOfBlock place (ps.map Prod.snd) >>= g) := by
  unfold Grammar.spanOfBlock
  rw [List.head?_map, List.head?_map, List.getLast?_map, List.getLast?_map]
  cases first : ps.head? with
  | none => exact further _
  | some p =>
    cases last : ps.getLast? with
    | none => exact further _
    | some q =>
      simp only [Option.map_some, bind_assoc, pure_bind]
      refine .spanOf (inside (List.mem_of_head? first)) ?_
      exact .spanOf (inside (List.mem_of_getLast? last)) (further _)

/-- Whether targets can be assigned to is the same for trees and handles. -/
theorem Builds.checkAssignable {ps : List Rooted} {f : Unit → TokenReader γ}
    {g : Unit → ArenaReader δ} (inside : ps ⊆ before) (further : Builds before y' (f ()) (g ())) :
    Builds before y' (checkAssignable (ps.map Prod.fst) >>= f)
      (checkAssignable (ps.map Prod.snd) >>= g) := by
  have all {f : Bool → TokenReader γ} {g : Bool → ArenaReader δ}
      (further : ∀ v, Builds before y' (f v) (g v)) : Builds before y'
        ((ps.map Prod.fst).allM (fun t => return (← NodeMaker.kindOf t).isAssignable) >>= f)
        ((ps.map Prod.snd).allM (fun t => return (← NodeMaker.kindOf t).isAssignable) >>= g) := by
    induction ps with
    | nil => exact further true
    | cons p ps ih =>
      obtain ⟨first, others⟩ := List.cons_subset.mp inside
      simp only [List.map_cons, List.allM, bind_assoc, pure_bind]
      refine .kindOf first fun kind tree same => ?_
      rw [← same, Kind.isAssignable_map]
      cases kind.isAssignable with
      | true => exact ih others
      | false => exact further false
  unfold Grammar.checkAssignable
  simp only [bind_assoc]
  refine all fun v => ?_
  exact Builds.read (.ite (builds_plain ()) builds_fail) fun _ => further

end Builds

/-- The rules make the same nodes in an arena as in a tree. -/
structure RulesBuild (rules : Rules) (others : RulesOf NodeId ArenaReader) : Prop where
  block : Builds [] .node (rules _ .block) (others _ .block)
  statements : Builds [] .nodes (rules _ .statements) (others _ .statements)
  statement : Builds [] .node (rules _ .statement) (others _ .statement)
  elseIfs : Builds [] .nodes (rules _ .elseIfs) (others _ .elseIfs)
  moreTargets : Builds [] .nodes (rules _ .moreTargets) (others _ .moreTargets)
  moreNames : ∀ cause, Builds [] .nodes (rules _ (.moreNames cause)) (others _ (.moreNames cause))
  dottedName : ∀ p : Rooted,
    Builds [p] .node (rules _ (.dottedName p.1)) (others _ (.dottedName p.2))
  expressions : Builds [] .nodes (rules _ .expressions) (others _ .expressions)
  moreExpressions : Builds [] .nodes (rules _ .moreExpressions) (others _ .moreExpressions)
  expression : ∀ level,
    Builds [] .node (rules _ (.expression level)) (others _ (.expression level))
  operators : ∀ level (p : Rooted),
    Builds [p] .node (rules _ (.operators level p.1)) (others _ (.operators level p.2))
  suffixes : ∀ p : Rooted, Builds [p] .node (rules _ (.suffixes p.1)) (others _ (.suffixes p.2))
  fields : Builds [] .nodes (rules _ .fields) (others _ .fields)
  parameters : Builds [] .nodes (rules _ .parameters) (others _ .parameters)

theorem builds_name (cause : Cause) : Builds [] .node (name cause) (name cause) :=
  (builds_expect .identifier cause).read fun token =>
    builds_make (k := .identifier token.lexeme) _

section Productions

variable {rules : Rules} {others : RulesOf NodeId ArenaReader} (builds : RulesBuild rules others)

include builds

theorem builds_expressions : Builds [] .nodes (expressions rules) (expressions others) := by
  refine (builds.expression 1).behind fun p => ?_
  refine builds.moreExpressions.behind fun ps => ?_
  exact builds_pure (y := .nodes) (p :: ps)

theorem builds_moreExpressions :
    Builds [] .nodes (moreExpressions rules) (moreExpressions others) :=
  (builds_accept .comma).read fun _ => .ite builds.expressions (builds_pure (y := .nodes) [])

theorem builds_arguments (cause : Cause) :
    Builds [] .nodes (arguments rules cause) (arguments others cause) := by
  refine builds_peekKind.read fun kind => ?_
  refine .ite_behind (builds_pure (y := .nodes) []) builds.expressions fun ps => ?_
  exact (builds_expect .rParen cause).read fun _ => builds_pure (y := .nodes) ps

theorem builds_parameters : Builds [] .nodes (parameters rules) (parameters others) := by
  refine builds_peekKind.read fun kind => .ite ?_ ?_
  · refine builds_next.read fun token => ?_
    refine (builds_make (k := .varArg) _).bind fun p => ?_
    exact builds_pure (y := .nodes) [p]
  · refine (builds_name .parameterName).behind fun p => ?_
    refine (builds_accept .comma).read fun comma => .ite ?_ ?_
    · exact builds.parameters.behind fun ps => builds_pure (y := .nodes) (p :: ps)
    · exact builds_pure (y := .nodes) [p]

theorem builds_functionBody : Builds [] .function (functionBody rules) (functionBody others) := by
  refine (builds_expect .lParen .openParameters).read fun _ => ?_
  refine builds_peekKind.read fun kind => ?_
  refine .ite_behind (builds_pure (y := .nodes) []) builds.parameters fun params => ?_
  refine (builds_expect .rParen .closeParameters).read fun _ => ?_
  refine builds.block.behind fun body => ?_
  exact (builds_expect .endKw .endOfFunction).read fun _ =>
    builds_pure (y := .function) (params, body)

theorem builds_field : Builds [] .node (field rules) (field others) := by
  refine builds_peek.read fun token => ?_
  refine (builds_accept .lBracket).read fun bracket => .ite ?_ ?_
  · refine (builds.expression 1).behind fun key => ?_
    refine (builds_expect .rBracket .closeKey).read fun _ => ?_
    refine (builds_expect .assign .assignAfterKey).read fun _ => ?_
    refine (builds.expression 1).behind fun value => ?_
    exact builds_nodeFrom (k := .field .bracketed (some key) value) _
  · refine builds_peekKind.read fun kind => ?_
    refine builds_followingKind.read fun following => .ite ?_ ?_
    · refine (builds_name .name).behind fun key => ?_
      refine builds_next.read fun _ => ?_
      refine (builds.expression 1).behind fun value => ?_
      exact builds_nodeFrom (k := .field .named (some key) value) _
    · refine (builds.expression 1).behind fun value => ?_
      exact builds_nodeFrom (k := .field .positional none value) _

theorem builds_fields : Builds [] .nodes (fields rules) (fields others) := by
  refine builds_peekKind.read fun kind => ?_
  split
  · exact builds_pure (y := .nodes) []
  · exact builds_pure (y := .nodes) []
  · refine (builds_field builds).behind fun p => ?_
    refine builds_peekKind.read fun kind => ?_
    split
    · refine builds_next.read fun _ => ?_
      exact builds.fields.behind fun ps => builds_pure (y := .nodes) (p :: ps)
    · refine builds_next.read fun _ => ?_
      exact builds.fields.behind fun ps => builds_pure (y := .nodes) (p :: ps)
    · exact builds_pure (y := .nodes) [p]

theorem builds_primary : Builds [] .node (primary rules) (primary others) := by
  refine builds_peek.read fun token => ?_
  split
  · next literal _ =>
    exact builds_next.read fun _ => builds_make (k := .literal literal) _
  · split
    · exact builds_name .name
    · exact builds_next.read fun _ => builds_make (k := .varArg) _
    · refine builds_next.read fun _ => ?_
      refine builds.fields.behind fun entries => ?_
      refine (builds_expect .rBrace .closeTable).read fun _ => ?_
      exact builds_nodeFrom (k := .table entries) _
    · refine builds_next.read fun _ => ?_
      refine (builds_functionBody builds).behind fun f => ?_
      exact builds_nodeFrom (k := .anonymousFunction f.1 f.2) _
    · refine builds_next.read fun _ => ?_
      refine (builds.expression 1).behind fun inner => ?_
      refine (builds_expect .rParen .closeParen).read fun _ => ?_
      exact builds_nodeFrom (k := .paren inner) _
    · exact builds_fail

theorem builds_suffixes (head : Rooted) :
    Builds [head] .node (suffixes rules head.1) (suffixes others head.2) := by
  have done : Builds [head] .node (pure head.1) (pure head.2) := builds_pure (y := .node) head
  refine builds_getThe.read fun cursor => .spanOf (by simp) ?_
  split
  · refine .ite done ?_
    refine builds_next.read fun _ => ?_
    refine (builds_arguments builds .closeArguments).behind fun args => ?_
    exact (builds_nodeFrom (k := .functionCall head args) _).bind builds.suffixes
  · refine .ite done ?_
    refine builds_next.read fun _ => ?_
    refine (builds.expression 1).behind fun key => ?_
    refine (builds_expect .rBracket .closeKey).read fun _ => ?_
    exact (builds_nodeFrom (k := .access .bracket head key) _).bind builds.suffixes
  · refine builds_next.read fun _ => ?_
    refine (builds_name .nameAfterDot).behind fun key => ?_
    exact (builds_nodeFrom (k := .access .dot head key) _).bind builds.suffixes
  · refine builds_next.read fun _ => ?_
    refine (builds_name .methodName).behind fun method => ?_
    refine (builds_expect .lParen .openMethodArguments).read fun _ => ?_
    refine (builds_arguments builds .closeMethodArguments).behind fun args => ?_
    exact (builds_nodeFrom (k := .methodCall head method args) _).bind builds.suffixes
  · exact done

theorem builds_prefixExpression :
    Builds [] .node (prefixExpression rules) (prefixExpression others) :=
  (builds_primary builds).bind builds.suffixes

theorem builds_power : Builds [] .node (power rules) (power others) := by
  refine (builds_prefixExpression builds).behind fun left => ?_
  refine builds_peekKind.read fun kind => ?_
  split
  · refine builds_next.read fun _ => ?_
    exact (builds.expression unaryLevel).behind fun right => builds_operation left right
  · exact builds_pure (y := .node) left

theorem builds_unary : Builds [] .node (unary rules) (unary others) := by
  refine builds_peek.read fun token => ?_
  split
  · next op _ =>
    refine builds_next.read fun _ => ?_
    refine (builds.expression unaryLevel).behind fun operand => ?_
    exact .spanOf (List.mem_singleton_self operand) (builds_make (k := .unary op operand) _)
  · exact builds_power builds

theorem builds_operators (level : Nat) (left : Rooted) :
    Builds [left] .node (operators rules level left.1) (operators others level left.2) := by
  refine builds_peekKind.read fun kind => ?_
  split
  · exact builds_pure (y := .node) left
  · refine builds_next.read fun _ => ?_
    split
    · refine (builds.expression (level + 1)).behind fun right => ?_
      exact (builds_operation left right).bind (builds.operators level)
    · exact (builds.expression level).behind fun right => builds_operation left right
    · exact (builds.expression (level + 1)).behind fun right => builds_operation left right

theorem builds_ladder (level : Nat) :
    Builds [] .node (ladder rules level) (ladder others level) :=
  .ite ((builds.expression (level + 1)).bind (builds.operators level)) (builds_unary builds)

theorem builds_moreNames (cause : Cause) :
    Builds [] .nodes (moreNames rules cause) (moreNames others cause) := by
  refine (builds_accept .comma).read fun comma => .ite ?_ (builds_pure (y := .nodes) [])
  refine (builds_name cause).behind fun p => ?_
  exact (builds.moreNames cause).behind fun ps => builds_pure (y := .nodes) (p :: ps)

theorem builds_moreTargets : Builds [] .nodes (moreTargets rules) (moreTargets others) := by
  refine (builds_accept .comma).read fun comma => .ite ?_ (builds_pure (y := .nodes) [])
  refine (builds_prefixExpression builds).behind fun p => ?_
  exact builds.moreTargets.behind fun ps => builds_pure (y := .nodes) (p :: ps)

theorem builds_localStatement :
    Builds [] .node (localStatement rules) (localStatement others) := by
  refine builds_next.read fun token => ?_
  refine (builds_accept .functionKw).read fun function => .ite ?_ ?_
  · refine (builds_name .localFunctionName).behind fun name => ?_
    refine (builds_functionBody builds).behind fun f => ?_
    exact builds_nodeFrom (k := .localFunction name f.1 f.2) _
  · refine (builds_name .localName).behind fun first => ?_
    refine (builds.moreNames .name).behind fun more => ?_
    refine (builds_accept .assign).read fun assign => ?_
    refine .ite_behind builds.expressions (builds_pure (y := .nodes) []) fun values => ?_
    exact builds_nodeFrom (k := .localNames (first :: more) values) _

theorem builds_dottedName (head : Rooted) :
    Builds [head] .node (dottedName rules head.1) (dottedName others head.2) := by
  refine .spanOf (by simp) (builds_peekKind.read fun kind => ?_)
  split
  · refine builds_next.read fun _ => ?_
    refine (builds_name .nameAfterDot).behind fun key => ?_
    exact (builds_nodeFrom (k := .access .dot head key) _).bind builds.dottedName
  · refine builds_next.read fun _ => ?_
    refine (builds_name .methodName).behind fun method => ?_
    exact builds_nodeFrom (k := .methodName head method) _
  · exact builds_pure (y := .node) head

theorem builds_functionStatement :
    Builds [] .node (functionStatement rules) (functionStatement others) := by
  refine builds_next.read fun token => ?_
  refine (builds_name .functionName).bind fun first => ?_
  refine (builds.dottedName first).bind fun name => ?_
  refine (builds_functionBody builds).behind fun f => ?_
  exact builds_nodeFrom (k := .function name f.1 f.2) _

theorem builds_returnStatement :
    Builds [] .node (returnStatement rules) (returnStatement others) := by
  refine builds_next.read fun token => ?_
  refine builds_peekKind.read fun kind => builds_atBlockEnd.read fun stop => ?_
  refine .ite_behind (builds_pure (y := .nodes) []) builds.expressions fun values => ?_
  exact builds_nodeFrom (k := .returning values) _

theorem builds_doStatement : Builds [] .node (doStatement rules) (doStatement others) := by
  refine builds_next.read fun token => ?_
  refine builds.block.behind fun body => ?_
  refine (builds_expect .endKw .endOfDo).read fun _ => ?_
  exact builds_nodeFrom (k := .doBlock body) _

theorem builds_elseIfs : Builds [] .nodes (elseIfs rules) (elseIfs others) := by
  refine builds_peekKind.read fun kind => .ite ?_ (builds_pure (y := .nodes) [])
  refine builds_next.read fun token => ?_
  refine (builds.expression 1).behind fun condition => ?_
  refine (builds_expect .thenKw .thenAfterElseIf).read fun _ => ?_
  refine builds.block.behind fun body => ?_
  refine (builds_nodeFrom (k := .elseIf condition body) _).bind fun clause => ?_
  exact builds.elseIfs.behind fun clauses => builds_pure (y := .nodes) (clause :: clauses)

theorem builds_elseClause : Builds [] .node? (elseClause? rules) (elseClause? others) := by
  refine builds_peekKind.read fun kind => .ite ?_ (builds_pure (y := .node?) none)
  refine builds_next.read fun token => ?_
  refine builds.block.behind fun body => ?_
  refine (builds_nodeFrom (k := .elseBlock body) _).bind fun clause => ?_
  exact builds_pure (y := .node?) (some clause)

theorem builds_ifStatement : Builds [] .node (ifStatement rules) (ifStatement others) := by
  refine builds_next.read fun token => ?_
  refine (builds.expression 1).behind fun condition => ?_
  refine (builds_expect .thenKw .thenAfterIf).read fun _ => ?_
  refine builds.block.behind fun body => ?_
  refine builds.elseIfs.behind fun clauses => ?_
  refine (builds_elseClause builds).behind fun branch => ?_
  refine (builds_expect .endKw .endOfIf).read fun _ => ?_
  exact builds_nodeFrom (k := .ifChain condition body clauses branch) _

theorem builds_whileStatement :
    Builds [] .node (whileStatement rules) (whileStatement others) := by
  refine builds_next.read fun token => ?_
  refine (builds.expression 1).behind fun condition => ?_
  refine (builds_expect .doKw .doAfterWhile).read fun _ => ?_
  refine builds.block.behind fun body => ?_
  refine (builds_expect .endKw .endOfWhile).read fun _ => ?_
  exact builds_nodeFrom (k := .whileLoop condition body) _

theorem builds_repeatStatement :
    Builds [] .node (repeatStatement rules) (repeatStatement others) := by
  refine builds_next.read fun token => ?_
  refine builds.block.behind fun body => ?_
  refine (builds_expect .untilKw .untilAfterRepeat).read fun _ => ?_
  refine (builds.expression 1).behind fun condition => ?_
  exact builds_nodeFrom (k := .repeatLoop body condition) _

theorem builds_forBody : Builds [] .node (forBody rules) (forBody others) := by
  refine (builds_expect .doKw .doAfterFor).read fun _ => ?_
  refine builds.block.behind fun body => ?_
  exact (builds_expect .endKw .endOfFor).read fun _ => builds_pure (y := .node) body

theorem builds_forStep : Builds [] .node? (some <$> rules _ (.expression 1))
    (some <$> others _ (.expression 1)) := by
  rw [map_eq_pure_bind, map_eq_pure_bind]
  exact (builds.expression 1).bind fun step => builds_pure (y := .node?) (some step)

theorem builds_forStatement : Builds [] .node (forStatement rules) (forStatement others) := by
  refine builds_next.read fun token => builds_followingKind.read fun following => ?_
  refine (builds_name .forName).behind fun first => .ite ?_ ?_
  · refine builds_next.read fun _ => ?_
    refine (builds.expression 1).behind fun start => ?_
    refine (builds_expect .comma .commaAfterStart).read fun _ => ?_
    refine (builds.expression 1).behind fun limit => ?_
    refine (builds_accept .comma).read fun comma => ?_
    refine .ite_behind (builds_forStep builds) (builds_pure (y := .node?) none) fun step => ?_
    refine (builds_forBody builds).behind fun body => ?_
    exact builds_nodeFrom (k := .numericFor first start limit step body) _
  · refine (builds.moreNames .loopVariable).behind fun more => ?_
    refine (builds_expect .inKw .inAfterNames).read fun _ => ?_
    refine builds.expressions.behind fun iterators => ?_
    refine (builds_forBody builds).behind fun body => ?_
    exact builds_nodeFrom (k := .genericFor (first :: more) iterators body) _

theorem builds_expressionStatement :
    Builds [] .node (expressionStatement rules) (expressionStatement others) := by
  refine builds_peek.read fun token => ?_
  refine (builds_prefixExpression builds).behind fun first => ?_
  refine builds.moreTargets.behind fun more => ?_
  refine builds_peekKind.read fun kind => .ite ?_ ?_
  · refine Builds.checkAssignable (List.Subset.refl (first :: more)) ?_
    refine builds_next.read fun _ => ?_
    refine builds.expressions.behind fun values => ?_
    exact builds_nodeFrom (k := .assignment (first :: more) values) _
  · cases more with
    | nil =>
      cases kind.assignOp? with
      | some op =>
        refine Builds.checkAssignable (List.Subset.refl [first]) ?_
        refine builds_next.read fun _ => ?_
        refine (builds.expression 1).behind fun value => ?_
        exact builds_nodeFrom (k := .compoundAssignment op first value) _
      | none =>
        refine .kindOf (List.mem_singleton_self first) fun kind tree same => ?_
        rw [← same, Kind.isCallLike_map]
        exact .ite (builds_nodeFrom (k := .expressionStatement first) _) builds_fail
    | cons p ps => exact builds_fail

theorem builds_statement : Builds [] .node (statement rules) (statement others) := by
  refine builds_peekKind.read fun kind => ?_
  split
  · exact builds_localStatement builds
  · exact builds_functionStatement builds
  · exact builds_returnStatement builds
  · exact builds_next.read fun _ => builds_make (k := .breaking) _
  · exact builds_next.read fun _ => builds_make (k := .continuing) _
  · exact builds_doStatement builds
  · exact builds_ifStatement builds
  · exact builds_whileStatement builds
  · exact builds_repeatStatement builds
  · exact builds_forStatement builds
  · exact builds_expressionStatement builds

theorem builds_statements : Builds [] .nodes (statements rules) (statements others) := by
  refine builds_atBlockEnd.read fun stop => .ite (builds_pure (y := .nodes) []) ?_
  refine builds_takeLeading.read fun leading => ?_
  refine builds.statement.behind fun bare => ?_
  refine (builds_accept .semicolon).read fun _ => builds_takeTrailing.read fun trailing => ?_
  refine (builds_attach bare leading trailing).bind fun first => ?_
  refine .kindOf (List.mem_singleton_self first) fun kind tree same => ?_
  rw [← same, Kind.isTerminal_map]
  refine builds_atBlockEnd.read fun stop => .ite builds_fail_bind ?_
  exact builds.statements.behind fun more => builds_pure (y := .nodes) (first :: more)

theorem builds_block : Builds [] .node (block rules) (block others) := by
  refine builds_peek.read fun token => ?_
  refine builds.statements.behind fun statements => ?_
  refine .spanOfBlock (List.Subset.refl statements) fun span => ?_
  exact builds_takeLeading.read fun _ => builds_make (k := .block statements) _

theorem builds_chunk : Builds [] .node (chunk rules) (chunk others) := by
  refine builds_peek.read fun token => ?_
  refine builds.block.behind fun body => ?_
  refine builds_peekKind.read fun kind => .ite builds_fail_bind ?_
  exact builds_peek.read fun _ => builds_make (k := .chunk body) _

end Productions

/-- One application of the productions keeps this up. -/
theorem RulesBuild.step {rules : Rules} {others : RulesOf NodeId ArenaReader}
    (builds : RulesBuild rules others) : RulesBuild (step rules) (step others) where
  block := builds_block builds
  statements := builds_statements builds
  statement := builds_statement builds
  elseIfs := builds_elseIfs builds
  moreTargets := builds_moreTargets builds
  moreNames := builds_moreNames builds
  dottedName := builds_dottedName builds
  expressions := builds_expressions builds
  moreExpressions := builds_moreExpressions builds
  expression := builds_ladder builds
  operators := builds_operators builds
  suffixes := builds_suffixes builds
  fields := builds_fields builds
  parameters := builds_parameters builds

theorem rulesBuild (depth : Nat) : RulesBuild (rules depth) (rules depth) := by
  induction depth with
  | zero => constructor <;> intros <;> exact builds_fail
  | succ depth ih => exact ih.step

theorem builds_program (tokens : Nat) : Builds [] .node (program tokens) (program tokens) :=
  builds_chunk (rulesBuild (depth tokens))

end Grammar

/-- A program is built as its tree would be grafted onto an empty arena. No node is refused. -/
theorem buildTokens_eq (tokens : List Token) (comments : List Comment) :
    buildTokens tokens comments = .ok ((readTokens tokens comments).map ofTree) := by
  have mirrored := Grammar.builds_program (Cursor.ofTokens tokens comments).rest.length
    empty empty (.ofTokens tokens comments) (.nil sound_empty)
  unfold Grammar.runIn at mirrored
  simp only [buildTokens, readTokens]
  -- Only the outcomes of the two readers matter from here on.
  generalize (Grammar.program _ : TokenReader SourceTree).run _ = read at mirrored ⊢
  generalize StateT.run (m := Id) _ empty = built at mirrored ⊢
  cases mirrored with
  | error => rfl
  | ok p grafts => exact congrArg (Except.ok ∘ Except.ok) grafts.ofTree_eq.symm

theorem build_eq (source : String) : build source = .ok ((parse source).map ofTree) := by
  simp only [build, buildTokens_eq, parse, parseTokens]
  cases readTokens (Scan.ofSource source).tokens (Scan.ofSource source).comments <;> rfl

theorem buildTokens_ok_iff {tokens : List Token} {comments : List Comment} {a : Arena} :
    buildTokens tokens comments = .ok (.ok a) ↔
      ∃ t, parseTokens tokens comments = .ok t ∧ ofTree t = a := by
  simp only [buildTokens_eq, parseTokens_eq_ok]
  cases readTokens tokens comments <;> simp [Except.map]

theorem build_ok_iff {source : String} {a : Arena} :
    build source = .ok (.ok a) ↔ ∃ t, parse source = .ok t ∧ ofTree t = a := by
  rw [build_eq]
  cases parse source <;> simp [Except.map]

end LuaTree
