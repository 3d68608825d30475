import OrpheusGraph.Beam

/-! Paths and reachability. The path search finds a way wherever there is one, through
names that resolve to nothing as well, which a beam does not enter; over exact costs the
way it finds is a cheapest one. -/
namespace OrpheusGraph
open Cheapest Walks
variable {W : Type}

section reachability
variable [Arith W] [TotalCmp W] (laws : CostLaws W)

/-! Routes of the search are walks of the edges it follows. -/
theorem routeWalk {graph : GraphAccessor W} {ctx : DynamicContext W} {start n : String} :
    (∃ c, Route (pathNet laws graph ctx start) (fun _ => False) n c) ↔
      ∃ j, Walk (Next graph ctx) (fun _ => True) j start n := by
  constructor
  · rintro ⟨c,route⟩
    induction route with
    | start => exact ⟨0,.here start⟩
    | step _ edge _ ih =>
      obtain ⟨e,listed,rfl⟩ := List.mem_map.mp edge
      obtain ⟨j,walk⟩ := ih
      exact ⟨j + 1,walk.snoc (List.mem_map_of_mem listed) trivial⟩
  · rintro ⟨j,walk⟩
    have follow : ∀ {j : Nat} {u v : String}, Walk (Next graph ctx) (fun _ => True) j u v →
        (∃ c, Route (pathNet laws graph ctx start) (fun _ => False) u c) →
        ∃ c, Route (pathNet laws graph ctx start) (fun _ => False) v c := by
      intro j u v walk
      induction walk with
      | here => exact id
      | step edge _ _ ih =>
        rintro ⟨c,route⟩
        obtain ⟨e,listed,rfl⟩ := List.mem_map.mp edge
        exact ih ⟨_,.step route (List.mem_map_of_mem listed) id⟩
    exact follow walk ⟨_,.start id⟩

theorem foundIff {graph : GraphAccessor W} {ctx : DynamicContext W} {start finish : String}
    {r : Option (List PathStep)} (found : Found laws graph ctx start finish r) :
    r.isSome = true ↔ ∃ j, Walk (Next graph ctx) (fun _ => True) j start finish := by
  rw [← routeWalk laws]
  cases r with
  | none => exact ⟨fun absent => Bool.noConfusion absent,fun ⟨c,route⟩ => absurd route (found c)⟩
  | some path =>
    obtain ⟨steps,trace,_⟩ := found
    exact ⟨fun _ => trace.route,fun _ => rfl⟩

omit [Arith W] [TotalCmp W] in
theorem resolvedShort (g : NamedGraph W) {a : GraphAccessor W} (same : SameGraph g.toGraphAccessor a)
    {ctx : DynamicContext W} {R : String → String → Prop} {j : Nat} {u v : String}
    (walk : Walk R (Resolvable a ctx) j u v) :
    ∃ i, i ≤ a.nodeCount + ctx.overlayNodes.length ∧ Walk R (Resolvable a ctx) i u v := by
  have inside : ∀ n, Resolvable a ctx n → n ∈ (g.names ++ ctx.overlayNodes.map NodeData.name).toFinset := by
    intro n resolved
    refine List.mem_toFinset.mpr (List.mem_append.mpr (resolved.imp_left (fun known => ?_)))
    exact (g.present n).mp ((same.isSome n).trans known)
  obtain ⟨i,short,clear⟩ := walk.short inside
  have few := Nat.le_trans short (List.toFinset_card_le _)
  rw [List.length_append,List.length_map,← g.countNodes,same.nodeCount] at few
  exact ⟨i,few,clear⟩

theorem reachabilityAgrees (laws : CostLaws W) (order : Order) (heap : BinaryHeap W) (g : NamedGraph W) {a : GraphAccessor W}
    (same : SameGraph g.toGraphAccessor a) (ctx : DynamicContext W) {start finish : String}
    (apart : finish ≠ start) (resolves : Resolvable a ctx finish) {k depth : Nat}
    (wide : a.nodeCount + ctx.overlayNodes.length ≤ k) (deep : a.nodeCount + ctx.overlayNodes.length ≤ depth) :
    ∃ r, (∃ least, ∀ fuel, least ≤ fuel → findPath heap a ctx start finish fuel = some r) ∧
      (r.isSome = true ↔ ∃ j, Walk (Leads a ctx) (fun _ => True) j start finish) ∧
      (finish ∈ (beamTraverse order a ctx start k depth).map NodeResult.name ↔
        ∃ j, Walk (Leads a ctx) (Resolvable a ctx) j start finish) ∧
      ((∀ u, visibleOverlay ctx u ≠ [] → u = start ∨ Resolvable a ctx u) →
        (r.isSome = true ↔ finish ∈ (beamTraverse order a ctx start k depth).map NodeResult.name)) := by
  obtain ⟨r,least,finds,found⟩ := findPathFinds laws a ctx start finish heap
    (routesBounded laws g same ctx start)
  have path : r.isSome = true ↔ ∃ j, Walk (Leads a ctx) (fun _ => True) j start finish := by
    rw [foundIff laws found]
    exact exists_congr (fun j => ⟨fun walk => walk.mono (fun _ _ => (nextIff g same).mp) (fun _ => id),
      fun walk => walk.mono (fun _ _ => (nextIff g same).mpr) (fun _ => id)⟩)
  have beam : finish ∈ (beamTraverse order a ctx start k depth).map NodeResult.name ↔
      ∃ j, Walk (Leads a ctx) (Resolvable a ctx) j start finish := by
    rw [beamReaches order g same ctx start depth wide]
    constructor
    · rintro ⟨_,j,_,walk⟩
      exact ⟨j,walk⟩
    · rintro ⟨j,walk⟩
      obtain ⟨i,short,clear⟩ := resolvedShort g same walk
      exact ⟨apart,i,Nat.le_trans short deep,clear⟩
  refine ⟨r,⟨least,finds⟩,path,beam,fun anchored => ?_⟩
  rw [path,beam]
  constructor
  · rintro ⟨j,walk⟩
    obtain ⟨i,clear⟩ := walk.leaves
    refine ⟨i,clear.inner.mono (fun _ _ edge => edge) ?_⟩
    rintro x ⟨⟨_,other⟩,rfl | ⟨y,edge⟩⟩
    · exact resolves
    · rcases edge with ⟨_,b,seen,_⟩ | ⟨e,seen,_⟩
      · exact .inl (presentedKnown g same x b (List.mem_of_mem_filter seen))
      · exact (anchored x (List.ne_nil_of_mem seen)).resolve_left other
  · rintro ⟨j,walk⟩
    exact ⟨j,walk.mono (fun _ _ edge => edge) (fun _ _ => trivial)⟩

end reachability

theorem pairReached :
    let a := (pairGraph [callsEdge]).accessor .newestFirst
    let ctx := plainContext none
    ∃ r, (∃ least, ∀ fuel, least ≤ fuel → findPath (.sorted DijkstraEntry.cmp) a ctx "a" "b" fuel = some r) ∧
      (r.isSome = true ↔ ∃ j, Walk (Leads a ctx) (fun _ => True) j "a" "b") ∧
      ("b" ∈ (beamTraverse .insertion a ctx "a" 2 2).map NodeResult.name ↔
        ∃ j, Walk (Leads a ctx) (Resolvable a ctx) j "a" "b") ∧
      ((∀ u, visibleOverlay ctx u ≠ [] → u = "a" ∨ Resolvable a ctx u) →
        (r.isSome = true ↔ "b" ∈ (beamTraverse .insertion a ctx "a" 2 2).map NodeResult.name)) :=
  reachabilityAgrees milliLaws .insertion (.sorted _)
    ((pairGraph [callsEdge]).named .newestFirst (pairIndexed _)) (.refl _) (plainContext none) (by decide)
    (.inl rfl) (k := 2) (Nat.le_refl 2) (Nat.le_refl 2)

/- Overlay edges through a name that is neither in the base nor in the overlay. -/
def ghostContext : DynamicContext Milli :=
  { plainContext none with overlayEdges := [("a","ghost",callsEdge),("ghost","b",callsEdge)] }

theorem ghostSplitsReachability : ¬ ∀ (g : NamedGraph Milli) (ctx : DynamicContext Milli)
    (start finish : String) (k depth fuel : Nat) (r : Option (List PathStep)), finish ≠ start →
    Resolvable g.toGraphAccessor ctx finish → g.nodeCount + ctx.overlayNodes.length ≤ k →
    g.nodeCount + ctx.overlayNodes.length ≤ depth →
    findPath (.sorted DijkstraEntry.cmp) g.toGraphAccessor ctx start finish fuel = some r →
    (r.isSome = true ↔
      finish ∈ (beamTraverse .insertion g.toGraphAccessor ctx start k depth).map NodeResult.name) := by
  intro agree
  have path : findPath (.sorted DijkstraEntry.cmp) ((pairGraph []).accessor .newestFirst) ghostContext "a" "b" 9 =
      some (some [⟨"a","","",""⟩,⟨"ghost","calls","","outgoing"⟩,⟨"b","calls","","outgoing"⟩]) := by
    decide +kernel
  have iff := agree ((pairGraph []).named .newestFirst (pairIndexed _)) ghostContext "a" "b" 2 2 9 _
    (by decide) (.inl rfl) (Nat.le_refl 2) (Nat.le_refl 2) path
  have absent : "b" ∉ (beamTraverse .insertion ((pairGraph []).accessor .newestFirst) ghostContext "a" 2 2).map
      NodeResult.name := by decide +kernel
  exact absent (iff.mp rfl)

/-! The rounds of the main loop. -/
section rounds
variable [Arith W] [TotalCmp W]

/- One round that goes on; none where the loop is left. -/
def searchRound {heap : BinaryHeap W} (graph : GraphAccessor W) (ctx : DynamicContext W)
    (overlay : OverlayIndex W) (finish : String) (s : Search heap) : Option (Search heap) :=
  match heap.pop s.queue with
  | none => none
  | some (entry,rest) =>
    let s := { s with queue := rest }
    if entry.node = finish then none
    else if (s.dist.get entry.node).any (fun best => Arith.lt best entry.cost) then some s
    else some ((neighborsWithOverlayIndexed graph ctx overlay entry.node).foldl
      (relax graph ctx overlay entry.node entry.cost) s)

inductive Rounds (heap : BinaryHeap W) (graph : GraphAccessor W) (ctx : DynamicContext W)
    (start finish : String) : Search heap → Prop where
  | start : Rounds heap graph ctx start finish (.start heap start)
  | round {s s'} (before : Rounds heap graph ctx start finish s)
      (step : searchRound graph ctx (.build ctx) finish s = some s') : Rounds heap graph ctx start finish s'

/- The parents of a name lead back to the start, one after the other. -/
inductive Traced (start : String) (parent : IndexMap String ParentInfo) : String → Prop where
  | start : Traced start parent start
  | step {n info} (away : n ≠ start) (recorded : parent.get n = some info)
      (before : Traced start parent info.origin) : Traced start parent n

theorem searchPathRound {heap : BinaryHeap W} {graph : GraphAccessor W} {ctx : DynamicContext W}
    {start finish : String} {s s' : Search heap}
    (step : searchRound graph ctx (.build ctx) finish s = some s') (fuel : Nat) :
    searchPath graph ctx (.build ctx) start finish (fuel + 1) s =
      searchPath graph ctx (.build ctx) start finish fuel s' := by
  unfold searchRound at step
  cases popped : heap.pop s.queue with
  | none => simp [popped] at step
  | some taken =>
    obtain ⟨entry,rest⟩ := taken
    simp only [popped] at step
    split at step
    · cases step
    · rename_i going
      split at step
      · rename_i stale
        cases Option.some.inj step
        simp [searchPath,popped,going,stale]
      · rename_i current
        cases Option.some.inj step
        simp [searchPath,popped,going,current]

theorem roundsSearched {heap : BinaryHeap W} {graph : GraphAccessor W} {ctx : DynamicContext W}
    {start finish : String} (apart : start ≠ finish) {s : Search heap}
    (rounds : Rounds heap graph ctx start finish s) :
    ∃ used, ∀ fuel, findPath heap graph ctx start finish (fuel + used) =
      searchPath graph ctx (.build ctx) start finish fuel s := by
  induction rounds with
  | start => exact ⟨0,fun fuel => if_neg apart⟩
  | round _ step ih =>
    obtain ⟨used,same⟩ := ih
    refine ⟨used + 1,fun fuel => ?_⟩
    rw [← searchPathRound step,← same,Nat.add_comm used 1,Nat.add_assoc]

variable (laws : CostLaws W) {heap : BinaryHeap W} (graph : GraphAccessor W) (ctx : DynamicContext W)
  (start finish : String)

theorem roundKeeps {s s' : Search heap} {done : List String} {S : State String (String × Option String) W}
    (shows : Shows s S) (inv : Inv (pathNet laws graph ctx start) done S)
    (closed : Closed (pathNet laws graph ctx start) done S)
    (step : searchRound graph ctx (.build ctx) finish s = some s') :
    ∃ done' S', Shows s' S' ∧ Inv (pathNet laws graph ctx start) done' S' ∧
      Closed (pathNet laws graph ctx start) done' S' := by
  unfold searchRound at step
  rcases popShows laws shows with ⟨dry,_⟩ | ⟨e,rest,q,popped,perm,least,next⟩
  · simp [dry] at step
  · simp only [popped] at step
    obtain ⟨dist,_⟩ := inv.queued _ (perm.mem_iff.mpr List.mem_cons_self)
    have best : s.dist.get e.node = some e.cost := (shows.dist e.node).symm.trans dist
    have valid := inv.valid dist
    have current : ¬ Arith.lt e.cost e.cost = true :=
      fun better => (laws.costs.betterIff valid valid).mp better (laws.costs.refl e.cost)
    split at step
    · cases step
    · simp only [best,Option.any_some,if_neg current,Option.some.injEq] at step
      obtain ⟨inv',closed'⟩ := expand (inv.pop perm least) closed dist
      exact ⟨_,_,step ▸ showsRelaxAll laws graph ctx start e.node e.cost
        (neighborsWithOverlayIndexed graph ctx (.build ctx) e.node) next,inv',closed'⟩

theorem roundsKeep {s : Search heap} (rounds : Rounds heap graph ctx start finish s) :
    ∃ done S, Shows s S ∧ Inv (pathNet laws graph ctx start) done S ∧
      Closed (pathNet laws graph ctx start) done S := by
  induction rounds with
  | start => exact ⟨[],_,showsStart laws heap graph ctx start,startInv _,
      fun u member => absurd member List.not_mem_nil⟩
  | round _ step ih =>
    obtain ⟨done,S,shows,inv,closed⟩ := ih
    exact roundKeeps laws graph ctx start finish shows inv closed step

theorem trailTraced {s : Search heap} {S : State String (String × Option String) W} (shows : Shows s S)
    {n : String} {steps : List (String × String × String × Option String)}
    (trail : Trail (pathNet laws graph ctx start) S.parent n steps) : Traced start s.parent n := by
  induction trail with
  | start => exact .start
  | step away last _ ih =>
    rw [shows.parent] at last
    obtain ⟨info,recorded,rfl⟩ := Option.map_eq_some_iff.mp last
    exact .step away recorded ih

include laws in
theorem roundsTraced {s : Search heap} (rounds : Rounds heap graph ctx start finish s) {e : DijkstraEntry W}
    {rest : heap.State} (popped : heap.pop s.queue = some (e,rest)) : Traced start s.parent e.node := by
  obtain ⟨done,S,shows,inv,_⟩ := roundsKeep laws graph ctx start finish rounds
  rcases popShows laws shows with ⟨dry,_⟩ | ⟨e',rest',q,taken,perm,_⟩
  · rw [dry] at popped
    cases popped
  · rw [taken] at popped
    cases popped
    obtain ⟨dist,_⟩ := inv.queued _ (perm.mem_iff.mpr List.mem_cons_self)
    obtain ⟨steps,trail⟩ := inv.trails _ _ dist
    exact trailTraced laws graph ctx start shows trail

end rounds

/-! Exact costs. -/
instance : Arith ℚ where
  ofNat n := n
  add a b := a + b
  sub a b := a - b
  mul a b := a * b
  div a b := a / b
  maximum a b := max a b
  lt a b := decide (a < b)
  isFinite _ := true
  epsilon := 1 / 2^23
  damping := 85 / 100

instance : TotalCmp ℚ := ⟨compare,inferInstanceAs (Std.TransOrd ℚ)⟩

/- What a step to a name costs. -/
def stepCost (graph : GraphAccessor ℚ) (ctx : DynamicContext ℚ) (n : String) : ℚ :=
  1 / max (((scoreOf graph ctx (.build ctx) n).map NodeResult.weight).getD (1 / 1000)) (1 / 1000)

theorem edgeCostExact (graph : GraphAccessor ℚ) (ctx : DynamicContext ℚ) (n : String) :
    edgeCost graph ctx (.build ctx) n = stepCost graph ctx n := by
  have one : (Arith.ofNat 1 : ℚ) = 1 := Nat.cast_one
  have floor : (scoreFloor : ℚ) = 1 / 1000 := by
    show ((1 : ℕ) : ℚ) / ((1000 : ℕ) : ℚ) = 1 / 1000
    norm_num
  unfold edgeCost stepCost
  rw [one,floor]
  cases scoreOf graph ctx (.build ctx) n <;> rfl

theorem leExact {a b : ℚ} : (TotalCmp.totalCmp a b).isLE = true ↔ a ≤ b := by
  rw [Ordering.isLE_iff_ne_gt]
  exact compare_le_iff_le

def exactLaws : CostLaws ℚ where
  isCost c := 0 ≤ c
  zero := by
    show (0 : ℚ) ≤ ((0 : ℕ) : ℚ)
    norm_num
  edge score := by
    show (0 : ℚ) ≤ ((1 : ℕ) : ℚ) / max score (((1 : ℕ) : ℚ) / ((1000 : ℕ) : ℚ))
    exact div_nonneg (by norm_num) (le_trans (by norm_num) (le_max_right _ _))
  add left right := add_nonneg left right
  ltIff {a b} _ _ := by
    show decide (a < b) = true ↔ compare a b = .lt
    rw [decide_eq_true_iff,compare_lt_iff_lt]
  grows _ right := leExact.mpr (le_add_of_nonneg_right right)
  mono _ _ _ le := leExact.mpr (add_le_add_left (leExact.mp le) _)

/-! A path as the edges it takes. -/
section paths
variable (graph : GraphAccessor ℚ) (ctx : DynamicContext ℚ)

def PathStep.ofEntry (e : NeighborEntry ℚ) : PathStep := ⟨e.name,e.edgeKind,e.fieldName.getD "","outgoing"⟩

inductive Follows : String → List PathStep → String → Prop where
  | stop (u : String) : Follows u [] u
  | step {u v steps} (e : NeighborEntry ℚ) (edge : Seen graph ctx u e) (rest : Follows e.name steps v) :
      Follows u (.ofEntry e :: steps) v

def pathCost (steps : List PathStep) : ℚ := (steps.map (fun s => stepCost graph ctx s.node)).sum

/- None where no walk leads to the end, else a walk that costs least. -/
def Best (start finish : String) : Option (List PathStep) → Prop
  | none => ∀ steps, ¬ Follows graph ctx start steps finish
  | some path => ∃ steps, path = .origin start :: steps ∧ Follows graph ctx start steps finish ∧
      ∀ other, Follows graph ctx start other finish → pathCost graph ctx steps ≤ pathCost graph ctx other

variable {graph ctx}

theorem Follows.snoc {u v : String} {steps : List PathStep} (follows : Follows graph ctx u steps v)
    {e : NeighborEntry ℚ} (edge : Seen graph ctx v e) : Follows graph ctx u (steps ++ [.ofEntry e]) e.name := by
  induction follows with
  | stop => exact .step e edge (.stop _)
  | step first here _ ih => exact .step first here (ih edge)

section presented
variable (g : NamedGraph ℚ) {a : GraphAccessor ℚ} (same : SameGraph g.toGraphAccessor a)
  {start finish : String}
include g same

theorem followsRoute {u v : String} {steps : List PathStep} (follows : Follows a ctx u steps v) {c : ℚ}
    (route : Route (pathNet exactLaws a ctx start) (fun _ => False) u c) :
    Route (pathNet exactLaws a ctx start) (fun _ => False) v (c + pathCost a ctx steps) := by
  induction follows generalizing c with
  | stop =>
    have nothing : c + pathCost a ctx [] = c := add_zero c
    rwa [nothing]
  | @step u v steps e edge rest ih =>
    have listed : edgeLabel e ∈ (pathNet exactLaws a ctx start).next u :=
      List.mem_map_of_mem ((seenIff g same).mpr edge)
    have next := ih (.step route listed id)
    have total : c + pathCost a ctx (.ofEntry e :: steps) =
        c + edgeCost a ctx (.build ctx) e.name + pathCost a ctx steps := by
      rw [edgeCostExact,add_assoc]
      rfl
    rwa [total]

theorem retraceFollows {t : String} {steps : List (String × String × String × Option String)}
    (trace : Retrace (pathNet exactLaws a ctx start) t steps) :
    Follows a ctx start (steps.map stepOf).reverse t ∧
      pathCost a ctx (steps.map stepOf).reverse = stepsCost (pathNet exactLaws a ctx start) steps := by
  induction trace with
  | start => exact ⟨.stop _,(Nat.cast_zero).symm⟩
  | @step t x steps _ _ edge _ ih =>
    obtain ⟨follows,cost⟩ := ih
    obtain ⟨e,listed,label⟩ := List.mem_map.mp (List.mem_of_find?_eq_some edge)
    have shown : stepOf (t,x) = .ofEntry e := by
      obtain ⟨name,rest⟩ := Prod.mk.inj label
      obtain ⟨kind,field⟩ := Prod.mk.inj rest
      simp only [stepOf,PathStep.ofEntry,← kind,← field,name]
    have name : e.name = t := congrArg Prod.fst label
    rw [List.map_cons,List.reverse_cons,shown]
    refine ⟨name ▸ follows.snoc ((seenIff g same).mp listed),?_⟩
    rw [pathCost,List.map_append,List.sum_append,← pathCost,cost]
    have last : stepCost a ctx e.name = edgeCost a ctx (.build ctx) t := by rw [edgeCostExact,name]
    simp only [List.map_cons,List.map_nil,List.sum_cons,List.sum_nil,add_zero,PathStep.ofEntry,last]
    rfl

theorem foundBest {r : Option (List PathStep)} (found : Found exactLaws a ctx start finish r) :
    Best a ctx start finish r := by
  have routes : ∀ steps, Follows a ctx start steps finish →
      Route (pathNet exactLaws a ctx start) (fun _ => False) finish (pathCost a ctx steps) := by
    intro steps follows
    have route := followsRoute g same follows (.start id)
    have zero : exactLaws.costs.zero + pathCost a ctx steps = pathCost a ctx steps := by
      show ((0 : ℕ) : ℚ) + _ = _
      rw [Nat.cast_zero,zero_add]
    rwa [zero] at route
  cases r with
  | none => exact fun steps follows => found _ (routes steps follows)
  | some path =>
    obtain ⟨steps,trace,rfl⟩ := found
    obtain ⟨follows,cost⟩ := retraceFollows g same trace
    refine ⟨_,by simp [pathOf],follows,fun other leads => ?_⟩
    rw [cost]
    exact leExact.mp (trace.optimal (routes other leads))

end presented
end paths

theorem findPathOptimal (heap : BinaryHeap ℚ) (g : NamedGraph ℚ) {a : GraphAccessor ℚ}
    (same : SameGraph g.toGraphAccessor a) (ctx : DynamicContext ℚ) {start finish : String}
    (apart : start ≠ finish) :
    (∃ r, (∃ least, ∀ fuel, least ≤ fuel → findPath heap a ctx start finish fuel = some r) ∧
      Best a ctx start finish r) ∧
    ∀ s, Rounds heap a ctx start finish s →
      (∃ used, ∀ fuel, findPath heap a ctx start finish (fuel + used) =
        searchPath a ctx (.build ctx) start finish fuel s) ∧
      ∀ e rest, heap.pop s.queue = some (e,rest) → Traced start s.parent e.node := by
  obtain ⟨r,least,finds,found⟩ := findPathFinds exactLaws a ctx start finish heap
    (routesBounded exactLaws g same ctx start)
  exact ⟨⟨r,⟨least,finds⟩,foundBest g same found⟩,fun s rounds => ⟨roundsSearched apart rounds,
    fun e rest popped => roundsTraced exactLaws a ctx start finish rounds popped⟩⟩

def linkGraph : OrpheusGraphInner ℚ :=
  rebuildFromSerialized [⟨"a","module",∅,1 / 2,0,1 / 2⟩,⟨"b","module",∅,1 / 2,0,1 / 2⟩]
    [(0,1,⟨"calls",none,1,none,none,[]⟩)]

def linkContext (maxFanOut : Option Nat) : DynamicContext ℚ :=
  ⟨∅,[],[],∅,1,3 / 2,1,1,[],maxFanOut,none,none,[]⟩

theorem linkIndexed : linkGraph.Indexed := rebuildIndexed (by decide) _

theorem linkOptimal :
    let a := linkGraph.accessor .newestFirst
    let ctx := linkContext none
    (∃ r, (∃ least, ∀ fuel, least ≤ fuel →
      findPath (.sorted DijkstraEntry.cmp) a ctx "a" "b" fuel = some r) ∧ Best a ctx "a" "b" r) ∧
    ∀ s, Rounds (.sorted DijkstraEntry.cmp) a ctx "a" "b" s →
      (∃ used, ∀ fuel, findPath (.sorted DijkstraEntry.cmp) a ctx "a" "b" (fuel + used) =
        searchPath a ctx (.build ctx) "a" "b" fuel s) ∧
      ∀ e rest, (PriorityQueue.sorted DijkstraEntry.cmp).pop s.queue = some (e,rest) →
        Traced "a" s.parent e.node :=
  findPathOptimal (.sorted _) (linkGraph.named .newestFirst linkIndexed) (.refl _) (linkContext none) (by decide)

/- A cutoff of zero hides the one base edge, which the context may see. -/
theorem cutoffStopsPath : ¬ ∀ (g : NamedGraph ℚ) (ctx : DynamicContext ℚ) (start finish : String)
    (fuel : Nat) (r : Option (List PathStep)), start ≠ finish →
    findPath (.sorted DijkstraEntry.cmp) g.toGraphAccessor ctx start finish fuel = some r →
    (r = none ↔ ∀ j, ¬ Walk (Joined g.toGraphAccessor ctx) (fun _ => True) j start finish) := by
  intro complete
  have stopped : findPath (.sorted DijkstraEntry.cmp) (linkGraph.accessor .newestFirst) (linkContext (some 0))
      "a" "b" 2 = some none := by decide +kernel
  have unreachable := (complete (linkGraph.named .newestFirst linkIndexed) (linkContext (some 0)) "a" "b" 2 none
    (by decide) stopped).mp rfl
  have walk : Walk (Joined (linkGraph.accessor .newestFirst) (linkContext (some 0))) (fun _ => True) 1 "a" "b" :=
    .step (.inl ⟨.ofEdge "b" ⟨"calls",none,1,none,none,[]⟩,List.mem_singleton.mpr rfl,rfl⟩) trivial (.here "b")
  exact unreachable 1 walk

end OrpheusGraph
