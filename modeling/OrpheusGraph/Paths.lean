import OrpheusGraph.Visibility
import OrpheusGraph.Fold
import OrpheusGraph.Written
import OrpheusGraph.Lib.Search

/-! What a path search returns. The edges it takes are read back from the end: each comes
from a neighbour that costs least to reach among those with a visible edge to the node.
Where that leaves no choice, every presentation of a graph gives the same path. -/
namespace OrpheusGraph
open Cheapest
variable {W : Type}

section laws
variable [Arith W] [TotalCmp W]
open Arith

/- How f32 behaves on the costs a search can form: sums of `1.0 / score.max(0.001)`, which
are neither negative nor NaN. -/
structure CostLaws (W : Type) [Arith W] [TotalCmp W] where
  isCost : W → Prop
  zero : isCost (ofNat 0)
  edge : ∀ score : W, isCost (div (ofNat 1) (maximum score scoreFloor))
  add : ∀ {a b : W}, isCost a → isCost b → isCost (add a b)
  ltIff : ∀ {a b : W}, isCost a → isCost b → (lt a b = true ↔ TotalCmp.totalCmp a b = .lt)
  grows : ∀ {a b : W}, isCost a → isCost b → (TotalCmp.totalCmp a (Arith.add a b)).isLE = true
  mono : ∀ {a b c : W}, isCost a → isCost b → isCost c → (TotalCmp.totalCmp a b).isLE = true →
    (TotalCmp.totalCmp (Arith.add a c) (Arith.add b c)).isLE = true

omit [Arith W] in
theorem totalCmpNotLe {a b : W} : TotalCmp.totalCmp a b = .lt ↔ ¬ (TotalCmp.totalCmp b a).isLE = true := by
  have lawful : Std.TransCmp (TotalCmp.totalCmp (W := W)) := TotalCmp.lawful
  have swapped : TotalCmp.totalCmp a b = (TotalCmp.totalCmp b a).swap := Std.OrientedCmp.eq_swap
  rw [swapped]
  cases TotalCmp.totalCmp b a <;> simp

def CostLaws.costs (laws : CostLaws W) : Costs W where
  zero := ofNat 0
  add := Arith.add
  le a b := (TotalCmp.totalCmp a b).isLE = true
  better := lt
  valid := laws.isCost
  validZero := laws.zero
  validAdd := laws.add
  refl a := by
    have lawful : Std.TransCmp (TotalCmp.totalCmp (W := W)) := TotalCmp.lawful
    rw [(Std.ReflCmp.compare_self : TotalCmp.totalCmp a a = .eq)]
    rfl
  trans left right := by
    have lawful : Std.TransCmp (TotalCmp.totalCmp (W := W)) := TotalCmp.lawful
    exact Std.TransCmp.isLE_trans left right
  betterIff left right := (laws.ltIff left right).trans totalCmpNotLe
  grows := laws.grows
  mono := laws.mono

def edgeLabel (e : NeighborEntry W) : String × String × Option String := (e.name,e.edgeKind,e.fieldName)

/- The visible edges of a graph and what it costs to enter each node. -/
def pathNet (laws : CostLaws W) (graph : GraphAccessor W) (ctx : DynamicContext W) (start : String) :
    Net String (String × Option String) laws.costs where
  next n := (neighborsWithOverlayIndexed graph ctx (.build ctx) n).map edgeLabel
  enter := edgeCost graph ctx (.build ctx)
  validEnter _ := laws.edge _
  start := start

/- What a step of a path shows of its edge. -/
def shownEdge (label : String × Option String) : String × String := (label.1,label.2.getD "")

def stepOf (s : String × String × String × Option String) : PathStep :=
  ⟨s.1,s.2.2.1,s.2.2.2.getD "","outgoing"⟩

def pathOf (start : String) (steps : List (String × String × String × Option String)) : List PathStep :=
  (steps.map stepOf ++ [PathStep.origin start]).reverse

/- A path is traced back along cheapest last steps; there is none when no route exists. -/
def Found (laws : CostLaws W) (graph : GraphAccessor W) (ctx : DynamicContext W) (start finish : String) :
    Option (List PathStep) → Prop
  | none => ∀ c, ¬ Route (pathNet laws graph ctx start) (fun _ => False) finish c
  | some path => ∃ steps, Retrace (pathNet laws graph ctx start) finish steps ∧ path = pathOf start steps

/-! The concrete search performs the steps of the abstract one. -/
structure Shows {heap : BinaryHeap W} (s : Search heap) (S : State String (String × Option String) W) :
    Prop where
  dist : ∀ n, S.dist n = s.dist.get n
  parent : ∀ n, S.parent n = (s.parent.get n).map (fun i => (i.origin,i.edgeKind,i.fieldName))
  queue : S.queue.Perm ((heap.items s.queue).map (fun e => (e.cost,e.node)))

theorem showsRelax (laws : CostLaws W) {heap : BinaryHeap W} (graph : GraphAccessor W)
    (ctx : DynamicContext W) (start node : String) (cost : W) {s : Search heap}
    {S : State String (String × Option String) W} (shows : Shows s S) (n : NeighborEntry W) :
    Shows (relax graph ctx (.build ctx) node cost s n)
      (Cheapest.relax (pathNet laws graph ctx start) node cost S (edgeLabel n)) := by
  unfold relax Cheapest.relax
  rw [shows.dist]
  show Shows (if (s.dist.get n.name).all (fun e => lt (add cost (edgeCost graph ctx (.build ctx) n.name)) e)
    then _ else _) (if (s.dist.get n.name).all (lt (add cost (edgeCost graph ctx (.build ctx) n.name)))
    then _ else _)
  split
  · refine ⟨fun m => ?_,fun m => ?_,?_⟩
    · rw [IndexMap.getInsert,← shows.dist]
      exact Function.update_apply S.dist n.name _ m
    · rw [IndexMap.getInsert]
      refine (Function.update_apply S.parent n.name _ m).trans ?_
      rw [shows.parent]
      split <;> rfl
    · have pushed := (heap.itemsPush s.queue ⟨add cost (edgeCost graph ctx (.build ctx) n.name),n.name⟩).map
        (fun e => (e.cost,e.node))
      exact (shows.queue.cons _).trans pushed.symm
  · exact shows

theorem showsRelaxAll (laws : CostLaws W) {heap : BinaryHeap W} (graph : GraphAccessor W)
    (ctx : DynamicContext W) (start node : String) (cost : W) (ns : List (NeighborEntry W))
    {s : Search heap} {S : State String (String × Option String) W} (shows : Shows s S) :
    Shows (ns.foldl (relax graph ctx (.build ctx) node cost) s)
      ((ns.map edgeLabel).foldl (Cheapest.relax (pathNet laws graph ctx start) node cost) S) := by
  induction ns generalizing s S with
  | nil => exact shows
  | cons n rest ih => exact ih (showsRelax laws graph ctx start node cost shows n)

theorem showsStart (laws : CostLaws W) (heap : BinaryHeap W) (graph : GraphAccessor W)
    (ctx : DynamicContext W) (start : String) :
    Shows (Search.start heap start) (State.start (pathNet laws graph ctx start)) where
  dist n := by
    rw [Search.start,IndexMap.getInsert]
    exact Function.update_apply (fun _ => none) start (some (ofNat 0)) n
  parent _ := rfl
  queue := by
    have pushed := heap.itemsPush heap.new ⟨ofNat 0,start⟩
    rw [heap.itemsNew] at pushed
    exact (pushed.map (fun e => (e.cost,e.node))).symm

theorem reconstructs (laws : CostLaws W) (graph : GraphAccessor W) (ctx : DynamicContext W)
    {start t : String} {heap : BinaryHeap W} {s : Search heap} {S : State String (String × Option String) W}
    (shows : Shows s S) {steps : List (String × String × String × Option String)}
    (trail : Trail (pathNet laws graph ctx start) S.parent t steps) {fuel : Nat} (enough : steps.length < fuel) :
    reconstructFrom start s.parent fuel t = some (steps.map stepOf ++ [PathStep.origin start]) := by
  induction trail generalizing fuel with
  | start =>
    obtain ⟨fuel,rfl⟩ := Nat.exists_eq_add_of_lt enough
    simp [reconstructFrom,pathNet]
  | @step t x steps away last _ ih =>
    cases fuel with
    | zero => exact absurd enough (Nat.not_lt_zero _)
    | succ fuel =>
      rw [shows.parent] at last
      obtain ⟨info,recorded,same⟩ := Option.map_eq_some_iff.mp last
      subst same
      have other : t ≠ start := away
      simp [reconstructFrom,other,recorded,ih (Nat.lt_of_succ_lt_succ enough),stepOf]

section search
variable (laws : CostLaws W) {heap : BinaryHeap W} (graph : GraphAccessor W) (ctx : DynamicContext W)
  (start finish : String) {s : Search heap}

/- The queue runs dry, or its least entry comes off. -/
theorem popShows {S : State String (String × Option String) W} (shows : Shows s S) :
    (heap.pop s.queue = none ∧ S.queue = []) ∨
    ∃ e rest q, heap.pop s.queue = some (e,rest) ∧ S.queue.Perm ((e.cost,e.node) :: q) ∧
      (∀ y ∈ S.queue, laws.costs.le e.cost y.1) ∧ Shows { s with queue := rest } { S with queue := q } := by
  cases popped : heap.pop s.queue with
  | none =>
    have items := heap.popNone _ popped
    have queue := shows.queue
    rw [items] at queue
    exact .inl ⟨rfl,queue.eq_nil⟩
  | some taken =>
    obtain ⟨e,rest⟩ := taken
    obtain ⟨perm,least⟩ := heap.popSome _ _ _ popped
    refine .inr ⟨e,rest,(heap.items rest).map (fun e => (e.cost,e.node)),rfl,
      shows.queue.trans (perm.map _),fun y member => ?_,shows.dist,shows.parent,.refl _⟩
    obtain ⟨x,listed,same⟩ := List.mem_map.mp (shows.queue.mem_iff.mp member)
    exact same ▸ least x listed

theorem searchFinds {reached : List String}
    (bounded : ∀ n c, Route (pathNet laws graph ctx start) (fun _ => False) n c → n ∈ reached)
    {done : List String} {S : State String (String × Option String) W} (shows : Shows s S)
    (inv : Inv (pathNet laws graph ctx start) done S) (closed : Closed (pathNet laws graph ctx start) done S)
    (fresh : finish ∉ done) :
    ∃ r least, (∀ fuel, least ≤ fuel → searchPath graph ctx (.build ctx) start finish fuel s = some r) ∧
      Found laws graph ctx start finish r := by
  -- Each round settles a reachable node, so the induction is on those that are left.
  generalize size : reached.length + 1 - done.length = room
  induction room using Nat.strongRecOn generalizing done s S with
  | ind room ih =>
    have inside : done.length ≤ reached.length := by
      refine (List.subperm_of_subset inv.doneOnce (fun n member => ?_)).length_le
      obtain ⟨c,known⟩ := inv.found n member
      exact bounded n c (inv.reachable known)
    rcases popShows laws shows with ⟨dry,empty⟩ | ⟨e,rest,q,popped,perm,least,next⟩
    · refine ⟨none,1,fun fuel enough => ?_,inv.unreachable closed empty fresh⟩
      obtain ⟨fuel,rfl⟩ := Nat.exists_eq_add_of_le' enough
      simp [searchPath,dry]
    · have here : (e.cost,e.node) ∈ S.queue := perm.mem_iff.mpr List.mem_cons_self
      obtain ⟨dist,unsettled⟩ := inv.queued _ here
      have settled := inv.pop perm least
      by_cases arrived : e.node = finish
      · obtain ⟨steps,trail⟩ := inv.trails _ _ dist
        refine ⟨some (pathOf start steps),steps.length + 1,fun fuel enough => ?_,steps,?_,rfl⟩
        · obtain ⟨fuel,rfl⟩ := Nat.exists_eq_add_of_le' (Nat.le_trans (Nat.le_add_left 1 _) enough)
          have back := reconstructs laws graph ctx shows trail (Nat.lt_of_succ_le enough)
          rw [← arrived]
          simp [searchPath,popped,reconstructPath,back,pathOf]
        · exact arrived ▸ inv.retrace closed dist trail
      · have best : s.dist.get e.node = some e.cost := (shows.dist e.node).symm.trans dist
        have valid := inv.valid dist
        have current : ¬ lt e.cost e.cost = true :=
          fun better => (laws.costs.betterIff valid valid).mp better (laws.costs.refl e.cost)
        obtain ⟨inv',closed'⟩ := expand settled closed dist
        have fresh' : finish ∉ e.node :: done := by
          intro member
          rcases List.mem_cons.mp member with same | old
          · exact arrived same.symm
          · exact fresh old
        have smaller : reached.length + 1 - (e.node :: done).length < room := by
          rw [List.length_cons]
          omega
        have shows' := showsRelaxAll laws graph ctx start e.node e.cost
          (neighborsWithOverlayIndexed graph ctx (.build ctx) e.node) next
        obtain ⟨r,fuel,finds,found⟩ := ih _ smaller shows' inv' closed' fresh' rfl
        refine ⟨r,fuel + 1,fun more enough => ?_,found⟩
        obtain ⟨more,rfl⟩ := Nat.exists_eq_add_of_le' (Nat.le_trans (Nat.le_add_left 1 _) enough)
        have last := finds more (Nat.le_of_succ_le_succ enough)
        simp [searchPath,popped,arrived,best,current,last]

theorem findPathFinds (heap : BinaryHeap W) {reached : List String}
    (bounded : ∀ n c, Route (pathNet laws graph ctx start) (fun _ => False) n c → n ∈ reached) :
    ∃ r least, (∀ fuel, least ≤ fuel → findPath heap graph ctx start finish fuel = some r) ∧
      Found laws graph ctx start finish r := by
  by_cases same : start = finish
  · subst same
    refine ⟨some (pathOf start []),0,fun fuel _ => ?_,[],.start,rfl⟩
    simp [findPath,pathOf]
  · obtain ⟨r,least,finds,found⟩ := searchFinds laws graph ctx start finish bounded
      (showsStart laws heap graph ctx start) (startInv _) (fun u member => absurd member List.not_mem_nil)
      List.not_mem_nil
    exact ⟨r,least,fun fuel enough => by rw [findPath,if_neg same,finds fuel enough],found⟩

end search

/-! What a presentation of a graph contributes. -/
omit [TotalCmp W] in
theorem neighborsSplit (g : NamedGraph W) {a : GraphAccessor W} (same : SameGraph g.toGraphAccessor a)
    {ctx : DynamicContext W} (uncut : ctx.maxFanOut = none) (n : String) :
    neighborsWithOverlayIndexed a ctx (.build ctx) n =
      (visibleBase a ctx n).map .ofBase ++ (visibleOverlay ctx n).map .ofOverlay := by
  rw [neighborsWithOverlayIndexed,neighborsWithOverlayUnfiltered,collectVisible,baseUncut a uncut,
    visibleOverlay]
  congr 1
  split
  · exact visibleEntries a ctx n
  · rename_i absent
    have unknown : n ∉ g.names := fun known => absent (same.isSome n ▸ (g.present n).mpr known)
    have nothing := same.outgoing n
    rw [g.outgoingAbsent unknown] at nothing
    rw [visibleBase,nothing.symm.eq_nil]
    rfl

omit [Arith W] [TotalCmp W] in
theorem visiblePerm {a b : GraphAccessor W} (same : SameGraph a b) (ctx : DynamicContext W) (n : String) :
    (visibleBase a ctx n).Perm (visibleBase b ctx n) := (same.outgoing n).filter _

theorem netPresented (laws : CostLaws W) (g : NamedGraph W) {a : GraphAccessor W}
    (same : SameGraph g.toGraphAccessor a) {ctx : DynamicContext W} (uncut : ctx.maxFanOut = none)
    (start : String) : SameEdges (pathNet laws g.toGraphAccessor ctx start) (pathNet laws a ctx start) where
  next u _ := by
    have lists := ((visiblePerm same ctx u).map NeighborEntry.ofBase).append_right
      ((visibleOverlay ctx u).map .ofOverlay)
    rw [← neighborsSplit g (.refl _) uncut,← neighborsSplit g same uncut] at lists
    exact (lists.map edgeLabel).mem_iff
  enter := by
    funext n
    have scores : scoreOf g.toGraphAccessor ctx (.build ctx) = scoreOf a ctx (.build ctx) :=
      scoresOfNodes rfl same.nodes
    show edgeCost g.toGraphAccessor ctx (.build ctx) n = edgeCost a ctx (.build ctx) n
    rw [edgeCost,edgeCost,scores]
  start := rfl

omit [TotalCmp W] in
theorem neighborOrigin {graph : GraphAccessor W} {ctx : DynamicContext W} {n : String}
    {e : NeighborEntry W} (member : e ∈ neighborsWithOverlayIndexed graph ctx (.build ctx) n) :
    (∃ v ∈ graph.outgoingNeighbors n, e = .ofBase v) ∨ ∃ x ∈ ctx.overlayEdges, e = .ofOverlay x := by
  rw [neighborsWithOverlayIndexed,neighborsWithOverlayUnfiltered,collectVisible] at member
  rcases List.mem_append.mp member with base | overlay
  · have listed := List.mem_of_mem_filter base
    unfold baseEntries at listed
    cases found : graph.getNode n with
    | none => simp [found] at listed
    | some v =>
      simp only [found] at listed
      split at listed
      · cases listed
      · obtain ⟨v,among,same⟩ := List.mem_map.mp listed
        exact .inl ⟨v,among,same.symm⟩
  · obtain ⟨x,among,same⟩ := List.mem_map.mp overlay
    exact .inr ⟨x,List.mem_of_mem_filter (List.mem_of_mem_filter among),same.symm⟩

theorem routesBounded (laws : CostLaws W) (g : NamedGraph W) {a : GraphAccessor W}
    (same : SameGraph g.toGraphAccessor a) (ctx : DynamicContext W) (start : String) :
    ∀ n c, Route (pathNet laws a ctx start) (fun _ => False) n c →
      n ∈ start :: (g.names ++ ctx.overlayEdges.map (fun x => x.2.1)) := by
  intro n c route
  induction route with
  | start => exact List.mem_cons_self
  | step _ edge =>
    refine List.mem_cons_of_mem _ (List.mem_append.mpr ?_)
    obtain ⟨e,listed,rfl⟩ := List.mem_map.mp edge
    rcases neighborOrigin listed with ⟨v,among,rfl⟩ | ⟨x,among,rfl⟩
    · exact .inl (g.targetPresent ((same.outgoing _).mem_iff.mpr among))
    · exact .inr (List.mem_map_of_mem among)

/- The condition on a graph, a context and two ends: seen from the end back, every node on a
cheapest way has one source, and the visible base edges between the two look alike. The
overlay is listed after the base and in one order, so its edges decide nothing. -/
structure OneWay (laws : CostLaws W) (graph : GraphAccessor W) (ctx : DynamicContext W)
    (start finish : String) : Prop where
  source : OneSource (pathNet laws graph ctx start) finish
  label : ∀ t, Behind (pathNet laws graph ctx start) finish t → t ≠ start →
    ∀ u, Source (pathNet laws graph ctx start) t u →
    ∀ v ∈ visibleBase graph ctx u, ∀ v' ∈ visibleBase graph ctx u, v.targetName = t → v'.targetName = t →
      shownEdge (v.edgeKind,v.fieldName) = shownEdge (v'.edgeKind,v'.fieldName)

theorem firstSplit (laws : CostLaws W) (g : NamedGraph W) {a : GraphAccessor W}
    (same : SameGraph g.toGraphAccessor a) {ctx : DynamicContext W} (uncut : ctx.maxFanOut = none)
    (start u t : String) : first (pathNet laws a ctx start) u t =
      (((visibleBase a ctx u).find? (fun v => v.targetName = t)).map (fun v =>
        (v.targetName,v.edgeKind,v.fieldName))).or
      (((visibleOverlay ctx u).find? (fun x => x.2.1 = t)).map (fun x =>
        (x.2.1,x.2.2.kind,x.2.2.fieldName))) := by
  show ((neighborsWithOverlayIndexed a ctx (.build ctx) u).map edgeLabel).find? _ = _
  rw [neighborsSplit g same uncut,List.map_append,List.map_map,List.map_map,List.find?_append,
    List.find?_map,List.find?_map]
  rfl

theorem OneWay.agree {laws : CostLaws W} {g : NamedGraph W} {ctx : DynamicContext W} {start finish : String}
    (oneWay : OneWay laws g.toGraphAccessor ctx start finish) {a : GraphAccessor W}
    (same : SameGraph g.toGraphAccessor a) (uncut : ctx.maxFanOut = none) {t u : String}
    (behind : Behind (pathNet laws g.toGraphAccessor ctx start) finish t) (away : t ≠ start)
    (source : Source (pathNet laws g.toGraphAccessor ctx start) t u) {l l' : String × Option String}
    (left : first (pathNet laws g.toGraphAccessor ctx start) u t = some (t,l))
    (right : first (pathNet laws a ctx start) u t = some (t,l')) : shownEdge l = shownEdge l' := by
  rw [firstSplit laws g (.refl _) uncut] at left
  rw [firstSplit laws g same uncut] at right
  have perm := visiblePerm same ctx u
  cases here : (visibleBase g.toGraphAccessor ctx u).find? (fun v => v.targetName = t) with
  | none =>
    have there : (visibleBase a ctx u).find? (fun v => v.targetName = t) = none := by
      rw [List.find?_eq_none] at here ⊢
      exact fun v member => here v (perm.mem_iff.mpr member)
    rw [here] at left
    rw [there] at right
    rw [left] at right
    cases right
    rfl
  | some v =>
    cases there : (visibleBase a ctx u).find? (fun v => v.targetName = t) with
    | none =>
      rw [List.find?_eq_none] at there
      exact absurd (List.find?_some here) (there v (perm.mem_iff.mp (List.mem_of_find?_eq_some here)))
    | some v' =>
      rw [here] at left
      rw [there] at right
      obtain ⟨target,rfl⟩ := Prod.mk.inj (Option.some.inj left)
      obtain ⟨target',rfl⟩ := Prod.mk.inj (Option.some.inj right)
      exact oneWay.label t behind away u source v (List.mem_of_find?_eq_some here) v'
        (perm.mem_iff.mpr (List.mem_of_find?_eq_some there)) target target'

theorem foundOnce {laws : CostLaws W} {g : NamedGraph W} {ctx : DynamicContext W} {start finish : String}
    (oneWay : OneWay laws g.toGraphAccessor ctx start finish) {a : GraphAccessor W}
    (same : SameGraph g.toGraphAccessor a) (uncut : ctx.maxFanOut = none)
    {r r' : Option (List PathStep)} (left : Found laws g.toGraphAccessor ctx start finish r)
    (right : Found laws a ctx start finish r') : r = r' := by
  have edges := netPresented laws g same uncut start
  cases r with
  | none =>
    cases r' with
    | none => rfl
    | some path =>
      obtain ⟨steps,trace,_⟩ := right
      obtain ⟨c,route⟩ := trace.route
      exact absurd (edges.symm.route route) (left c)
  | some path =>
    obtain ⟨steps,trace,rfl⟩ := left
    cases r' with
    | none =>
      obtain ⟨c,route⟩ := trace.route
      exact absurd (edges.route route) (right c)
    | some path' =>
      obtain ⟨steps',trace',rfl⟩ := right
      have agree := edges.retrace oneWay.source (fun t behind away u source l l' =>
        oneWay.agree same uncut behind away source) .finish trace trace'
      have shown := congrArg (List.map (fun s : String × String × String × String =>
        PathStep.mk s.1 s.2.2.1 s.2.2.2 "outgoing")) agree
      rw [List.map_map,List.map_map] at shown
      have stepped : steps.map stepOf = steps'.map stepOf := shown
      rw [pathOf,pathOf,stepped]

theorem pathPresented {laws : CostLaws W} (g : NamedGraph W) {ctx : DynamicContext W}
    (uncut : ctx.maxFanOut = none) {start finish : String}
    (oneWay : OneWay laws g.toGraphAccessor ctx start finish)
    {r : Option (List PathStep)} (found : Found laws g.toGraphAccessor ctx start finish r)
    (heap : BinaryHeap W) {a : GraphAccessor W} (same : SameGraph g.toGraphAccessor a) :
    ∃ least, ∀ fuel, least ≤ fuel → findPath heap a ctx start finish fuel = some r := by
  obtain ⟨r',least,finds,found'⟩ := findPathFinds laws a ctx start finish heap
    (routesBounded laws g same ctx start)
  have shared := foundOnce oneWay same uncut found found'
  exact ⟨least,shared ▸ finds⟩

theorem pathExists (laws : CostLaws W) (g : NamedGraph W) (ctx : DynamicContext W) (start finish : String) :
    ∃ r, Found laws g.toGraphAccessor ctx start finish r := by
  obtain ⟨r,_,_,found⟩ := findPathFinds laws g.toGraphAccessor ctx start finish (.sorted DijkstraEntry.cmp)
    (routesBounded laws g (.refl _) ctx start)
  exact ⟨r,found⟩

/- The three representations of a store: the merged view before a compaction, the graph it
folds into, and the mapped snapshot of that graph. -/
theorem pathOfRepresentations (laws : CostLaws W) (hash : String → Nat) {adjacency : Order}
    {base : OrpheusGraphInner W} (produced : Produced adjacency base) {h : List (Op W)} {d : GraphDelta W}
    (reached : Reached (base.accessor adjacency) h d) (room : edgeAdds h ≤ 2^32) {names : List String}
    (listed : names.Perm base.indexMap.keys) {folded : OrpheusGraphInner W}
    (fold : folded = foldBase adjacency (base.accessor adjacency) names d)
    (nodesFit : folded.graph.nodes.length < u32Max) (edgesFit : folded.graph.edges.length < u32Max)
    {ctx : DynamicContext W} (uncut : ctx.maxFanOut = none) (start finish : String)
    (oneWay : OneWay laws (folded.accessor adjacency) ctx start finish) :
    ∃ r sg, toRkyvV2 hash folded = some sg ∧ ∀ heap : BinaryHeap W, ∃ least, ∀ fuel, least ≤ fuel →
      findPath heap (deltaAccessor (base.accessor adjacency) d) ctx start finish fuel = some r ∧
      findPath heap (folded.accessor adjacency) ctx start finish fuel = some r ∧
      findPath heap (sg.archivedCsrView hash) ctx start finish fuel = some r := by
  have ok : folded.Indexed := fold ▸ foldIndexed adjacency _ names d
  have merged : SameGraph (folded.accessor adjacency) (deltaAccessor (base.accessor adjacency) d) :=
    fold ▸ foldAgrees produced reached room listed
  obtain ⟨sg,written,mapped⟩ := writtenAgrees hash adjacency ok nodesFit.le edgesFit.le
  obtain ⟨r,found⟩ := pathExists laws (folded.named adjacency ok) ctx start finish
  refine ⟨r,sg,written,fun heap => ?_⟩
  have paths : ∀ a, SameGraph (folded.accessor adjacency) a → ∃ least, ∀ fuel, least ≤ fuel →
      findPath heap a ctx start finish fuel = some r :=
    fun _ same => pathPresented (folded.named adjacency ok) uncut oneWay found heap same
  obtain ⟨first,before⟩ := paths _ merged
  obtain ⟨second,owned⟩ := paths _ (.refl _)
  obtain ⟨third,view⟩ := paths _ mapped.symm.same
  exact ⟨max first (max second third),fun fuel enough => ⟨before fuel (by omega),owned fuel (by omega),
    view fuel (by omega)⟩⟩

end laws

/-! Two nodes and the edges from the first to the second. -/
def milliLaws : CostLaws Milli where
  isCost _ := True
  zero := trivial
  edge _ := trivial
  add _ _ := trivial
  ltIff {a b} _ _ := by
    show decide (a.thousandths < b.thousandths) = true ↔ compare a.thousandths b.thousandths = .lt
    rw [decide_eq_true_iff,Nat.compare_eq_lt]
  grows {a b} _ _ := Nat.isLE_compare.mpr (Nat.le_add_right a.thousandths b.thousandths)
  mono _ _ _ le := Nat.isLE_compare.mpr (Nat.add_le_add_right (Nat.isLE_compare.mp le) _)

def pairGraph (edges : List (EdgeData Milli)) : OrpheusGraphInner Milli :=
  rebuildFromSerialized [⟨"a","module",∅,⟨500⟩,⟨0⟩,⟨500⟩⟩,⟨"b","module",∅,⟨500⟩,⟨0⟩,⟨500⟩⟩]
    (edges.map (fun e => (0,1,e)))

def callsEdge : EdgeData Milli := ⟨"calls",none,⟨1000⟩,none,none,[]⟩
def readsEdge : EdgeData Milli := ⟨"reads",none,⟨1000⟩,none,none,[]⟩

theorem pairIndexed (edges : List (EdgeData Milli)) : (pairGraph edges).Indexed :=
  rebuildIndexed (by decide) _

theorem singleEdge {u : String} {x : String × String × Option String}
    (edge : x ∈ (pathNet milliLaws ((pairGraph [callsEdge]).accessor .newestFirst) (plainContext none) "a").next u) :
    u = "a" ∧ x = ("b","calls",none) := by
  obtain ⟨e,listed,rfl⟩ := List.mem_map.mp edge
  rcases neighborOrigin listed with ⟨v,among,rfl⟩ | ⟨y,absent,_⟩
  · have pair := (OrpheusGraphInner.outgoingListed (pairIndexed [callsEdge]) .newestFirst u).mem_iff.mp
      (List.mem_map_of_mem among)
    obtain ⟨s,kept,same⟩ := List.mem_map.mp pair
    obtain ⟨stored,source⟩ := List.mem_filter.mp kept
    have only : (pairGraph [callsEdge]).namedEdges = [("a","b",callsEdge)] := rfl
    rw [only,List.mem_singleton] at stored
    subst stored
    refine ⟨(of_decide_eq_true source).symm,?_⟩
    have target : v.targetName = "b" := (congrArg Prod.fst same).symm
    have data : v.edge = callsEdge := (congrArg Prod.snd same).symm
    have kind : v.edgeKind = "calls" := congrArg EdgeData.kind data
    have field : v.fieldName = none := congrArg EdgeData.fieldName data
    simp [edgeLabel,NeighborEntry.ofBase,target,kind,field]
  · cases absent

def twinGraph : OrpheusGraphInner Milli := pairGraph [callsEdge,readsEdge]

def findsKind (graph : GraphAccessor Milli) (kind : String) : Prop :=
  findPath (.sorted DijkstraEntry.cmp) graph (plainContext none) "a" "b" 4 =
    some (some [⟨"a","","",""⟩,⟨"b",kind,"","outgoing"⟩])

instance (graph : GraphAccessor Milli) (kind : String) : Decidable (findsKind graph kind) := by
  unfold findsKind; infer_instance

theorem twinBuckets : buildNameBuckets (fun _ => 7) ["a","b"] = some [1,emptyBucket,emptyBucket,0] := by
  have capacity : bucketCapacity 2 = 4 := by
    have power : Nat.clog 2 3 = 2 := by decide +kernel
    simp [bucketCapacity,nextPowerOfTwo,usizeMax,power]
  unfold buildNameBuckets
  rw [show ["a","b"].length = 2 from rfl,capacity]
  decide +kernel

theorem pairNodes (edges : List (EdgeData Milli)) :
    namedNodes (pairGraph edges) = (pairGraph edges).graph.nodes := by
  have sorted : (pairGraph []).graph.nodes.Pairwise (fun a b => decide (a.name ≤ b.name) = true) := by decide
  exact List.mergeSort_of_pairwise sorted

theorem pairRanked (edges : List (EdgeData Milli)) :
    rankedEdges (pairGraph edges) = edges.map (.ofData 0 1) := by
  have kept : (pairGraph edges).graph.edges = edges.map (fun e => (0,1,e)) := by
    refine List.filter_eq_self.mpr (fun e member => ?_)
    obtain ⟨data,_,rfl⟩ := List.mem_map.mp member
    rfl
  unfold rankedEdges rank
  rw [pairNodes,kept,List.map_map]
  rfl

theorem twinEdges : sortedEdges twinGraph =
    [.ofData 0 1 callsEdge,.ofData 0 1 readsEdge] := by
  rw [sortedEdges,twinGraph,pairRanked]
  exact List.mergeSort_of_pairwise (by decide)

end OrpheusGraph
