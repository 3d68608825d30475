import OrpheusGraph.Unordered

/-! What a caller may learn. Edges the context may not see leave no trace in the results of
the four queries; the fan-out cutoff, which counts a node's base edges before the filter,
is the one place where they can. -/
namespace OrpheusGraph
variable {W : Type}

/- The edges of a node that the context sees. -/
def visibleBase (graph : GraphAccessor W) (ctx : DynamicContext W) (n : String) : List (NeighborView W) :=
  (graph.outgoingNeighbors n).filter (fun v => ctx.isEdgeVisible v.validFrom v.validTo v.acl)

def visibleOverlay (ctx : DynamicContext W) (n : String) : List (String × String × EdgeData W) :=
  (ctx.overlayEdges.filter (fun x => ctx.isEdgeVisible x.2.2.validFrom x.2.2.validTo x.2.2.acl)).filter
    (fun x => x.1 == n)

/- Two contexts that differ in their overlay edges only, and two graphs, that show the
same nodes and, node by node and in one order, the same visible edges. -/
structure SameView (a b : GraphAccessor W) (ctx ctx' : DynamicContext W) : Prop where
  context : ctx' = { ctx with overlayEdges := ctx'.overlayEdges }
  nodes : ∀ n, (a.getNode n).map NodeView.unranked = (b.getNode n).map NodeView.unranked
  base : ∀ n, visibleBase a ctx n = visibleBase b ctx n
  overlay : ∀ n, visibleOverlay ctx n = visibleOverlay ctx' n

section edges
variable {a b : GraphAccessor W} {ctx ctx' : DynamicContext W}

theorem visibleEntries (graph : GraphAccessor W) (ctx : DynamicContext W) (n : String) :
    ((graph.outgoingNeighbors n).map NeighborEntry.ofBase).filter (·.visible ctx) =
      (visibleBase graph ctx n).map .ofBase := by
  rw [List.filter_map]
  rfl

theorem SameView.edges (same : SameView a b ctx ctx') : edgesAmong a ctx = edgesAmong b ctx' := by
  funext set n
  have base := same.base n
  have overlay := same.overlay n
  unfold visibleBase at base
  unfold visibleOverlay at overlay
  have inside : ∀ xs : List (String × String × EdgeData W),
      xs.filter (fun x => x.1 == n && decide (x.2.1 ∈ set)) =
        (xs.filter (fun x => x.1 == n)).filter (fun x => decide (x.2.1 ∈ set)) := by
    intro xs
    rw [List.filter_filter]
    exact List.filter_congr (fun x _ => Bool.and_comm _ _)
  have filters : ∀ v : NeighborView W, ctx'.isEdgeVisible v.validFrom v.validTo v.acl =
      ctx.isEdgeVisible v.validFrom v.validTo v.acl := by
    intro v
    rw [same.context]
    rfl
  unfold edgesAmong
  rw [inside,inside,overlay,base]
  simp only [filters]

end edges

section views
variable [Arith W] {a b : GraphAccessor W} {ctx ctx' : DynamicContext W}

theorem scoreUnranked (ctx : DynamicContext W) {v v' : NodeView W} (same : v.unranked = v'.unranked) :
    computeScore v ctx = computeScore v' ctx := by
  cases v
  cases v'
  cases same
  rfl

theorem scoresOfNodes (context : ctx' = { ctx with overlayEdges := ctx'.overlayEdges })
    (nodes : ∀ n, (a.getNode n).map NodeView.unranked = (b.getNode n).map NodeView.unranked) :
    scoreOf a ctx (.build ctx) = scoreOf b ctx' (.build ctx') := by
  funext n
  rw [context]
  have node := nodes n
  unfold scoreOf
  cases left : a.getNode n with
  | none =>
    rw [left,Option.map_none,eq_comm,Option.map_eq_none_iff] at node
    rw [node]
    rfl
  | some v =>
    rw [left,Option.map_some,eq_comm] at node
    obtain ⟨v',right,unranked⟩ := Option.map_eq_some_iff.mp node
    rw [right]
    exact congrArg some (scoreUnranked ctx unranked.symm)

theorem SameView.scores (same : SameView a b ctx ctx') :
    scoreOf a ctx (.build ctx) = scoreOf b ctx' (.build ctx') := scoresOfNodes same.context same.nodes

theorem baseUncut (graph : GraphAccessor W) {ctx : DynamicContext W} (uncut : ctx.maxFanOut = none)
    (n : String) : baseEntries graph ctx n =
      if (graph.getNode n).isSome then (graph.outgoingNeighbors n).map .ofBase else [] := by
  unfold baseEntries
  cases graph.getNode n with
  | none => rfl
  | some v => simp [uncut]

theorem SameView.neighbors (same : SameView a b ctx ctx') (uncut : ctx.maxFanOut = none) :
    neighborsWithOverlayIndexed a ctx (.build ctx) = neighborsWithOverlayIndexed b ctx' (.build ctx') := by
  funext n
  have uncut' : ctx'.maxFanOut = none := by rw [same.context]; exact uncut
  have present : (a.getNode n).isSome = (b.getNode n).isSome := by
    simpa using congrArg Option.isSome (same.nodes n)
  have filters : ∀ e : NeighborEntry W, e.visible ctx' = e.visible ctx := by
    intro e
    rw [same.context]
    rfl
  rw [neighborsWithOverlayIndexed,neighborsWithOverlayIndexed,neighborsWithOverlayUnfiltered,
    neighborsWithOverlayUnfiltered,collectVisible,collectVisible,baseUncut a uncut,baseUncut b uncut',
    present]
  have overlay := same.overlay n
  unfold visibleOverlay at overlay
  rw [overlay]
  congr 1
  simp only [filters]
  split
  · rw [visibleEntries,visibleEntries,same.base]
  · rfl

variable [TotalCmp W]

/-! Each query reads its graph through scores and visible neighbours only. -/
section reads
variable (scores : scoreOf a ctx (.build ctx) = scoreOf b ctx' (.build ctx'))
  (neighbors : neighborsWithOverlayIndexed a ctx (.build ctx) = neighborsWithOverlayIndexed b ctx' (.build ctx'))
include scores neighbors

theorem beamReads (order : Order) (start : String) (k depth : Nat) :
    beamTraverse order a ctx start k depth = beamTraverse order b ctx' start k depth := by
  have neighbor : levelNeighbor a ctx (.build ctx) = levelNeighbor b ctx' (.build ctx') := by
    funext visited levelMap n
    simp only [levelNeighbor,scores]
  have level : levelOf a ctx (.build ctx) = levelOf b ctx' (.build ctx') := by
    funext visited frontier
    simp only [levelOf,neighbor,neighbors]
  have levels : ∀ visited frontier, beamLevels order a ctx (.build ctx) k depth visited frontier =
      beamLevels order b ctx' (.build ctx') k depth visited frontier := by
    induction depth with
    | zero => exact fun _ _ => rfl
    | succ depth ih =>
      intro visited frontier
      simp only [beamLevels,level,ih]
  rw [beamTraverse,beamTraverse,levels]

theorem pathReads (heap : BinaryHeap W) (start finish : String) (fuel : Nat) :
    findPath heap a ctx start finish fuel = findPath heap b ctx' start finish fuel := by
  have costs : edgeCost a ctx (.build ctx) = edgeCost b ctx' (.build ctx') := by
    funext n
    simp only [edgeCost,scores]
  have step : ∀ node cost, (relax a ctx (.build ctx) node cost : Search heap → _) =
      relax b ctx' (.build ctx') node cost := by
    intro node cost
    funext s n
    simp only [relax,costs]
  have search : ∀ s : Search heap, searchPath a ctx (.build ctx) start finish fuel s =
      searchPath b ctx' (.build ctx') start finish fuel s := by
    induction fuel with
    | zero => exact fun _ => rfl
    | succ fuel ih =>
      intro s
      simp only [searchPath,step,neighbors,ih]
  rw [findPath,findPath,search]

theorem subgraphReads (order : Order) (k : Nat) (boosts : ctx'.semanticBoosts = ctx.semanticBoosts) :
    contextualSubgraph order a ctx k = contextualSubgraph order b ctx' k := by
  have neighbor : collectNeighbor a ctx (.build ctx) = collectNeighbor b ctx' (.build ctx') := by
    funext seed c n
    simp only [collectNeighbor,scores]
  have seed : collectSeed a ctx (.build ctx) = collectSeed b ctx' (.build ctx') := by
    funext c seed
    simp only [collectSeed,scores,neighbors,neighbor]
  simp only [contextualSubgraph,seed,seedsOf,boosts]

theorem heatReads (order : Order) (startNodes : List String) (k depth threshold : Nat)
    (edges : edgesAmong a ctx = edgesAmong b ctx') :
    multiBeamIntersection order a ctx startNodes k depth threshold =
      multiBeamIntersection order b ctx' startNodes k depth threshold := by
  have beams : (fun start => beamTraverse order a ctx start k depth) =
      (fun start => beamTraverse order b ctx' start k depth) :=
    funext (fun start => beamReads scores neighbors order start k depth)
  have starts : keepStart a ctx (.build ctx) = keepStart b ctx' (.build ctx') := by
    funext f start
    simp only [keepStart,scores]
  have among : reconstructEdges a ctx = reconstructEdges b ctx' := by
    funext set listed
    simp only [reconstructEdges,edges]
  simp only [multiBeamIntersection,beams,starts,among]

end reads

theorem invisibleEdgesUnobserved (order order' : Order) (heap : BinaryHeap W) (named : b.Named)
    (same : SameView a b ctx ctx') (uncut : ctx.maxFanOut = none) :
    (∀ start k depth, beamTraverse order a ctx start k depth = beamTraverse order' b ctx' start k depth) ∧
    (∀ start finish fuel, findPath heap a ctx start finish fuel = findPath heap b ctx' start finish fuel) ∧
    (∀ k, contextualSubgraph order a ctx k = contextualSubgraph order' b ctx' k) ∧
    (∀ startNodes k depth threshold, multiBeamIntersection order a ctx startNodes k depth threshold =
      multiBeamIntersection order' b ctx' startNodes k depth threshold) := by
  have scores := same.scores
  have neighbors := same.neighbors uncut
  have boosts : ctx'.semanticBoosts = ctx.semanticBoosts := by rw [same.context]
  refine ⟨fun start k depth => ?_,pathReads scores neighbors heap,fun k => ?_,
    fun startNodes k depth threshold => ?_⟩
  · exact (beamReads scores neighbors order start k depth).trans (beamUnordered named order order' ctx' start k depth)
  · exact (subgraphReads scores neighbors order k boosts).trans (subgraphUnordered b order order' ctx' k)
  · exact (heatReads scores neighbors order startNodes k depth threshold same.edges).trans
      (multiUnordered named order order' ctx' startNodes k depth threshold)

end views

/-! The fan-out cutoff. Adding base edges that the context cannot see keeps the neighbours
of a node exactly where it does not tip the node over the cutoff. -/
structure Hides (a b : GraphAccessor W) (ctx : DynamicContext W) : Prop where
  nodes : ∀ n, (a.getNode n).map NodeView.unranked = (b.getNode n).map NodeView.unranked
  kept : ∀ n, (a.outgoingNeighbors n).Sublist (b.outgoingNeighbors n)
  hidden : ∀ n, visibleBase a ctx n = visibleBase b ctx n

theorem Hides.same {a b : GraphAccessor W} {ctx : DynamicContext W} (hides : Hides a b ctx) :
    SameView a b ctx ctx := ⟨rfl,hides.nodes,hides.hidden,fun _ => rfl⟩

section cutoff
variable [Arith W]

/- The node is expanded in the smaller graph and cut in the larger one, with visible base
edges to lose. -/
structure Tipped (a b : GraphAccessor W) (ctx : DynamicContext W) (m : Nat) (n : String) : Prop where
  present : (a.getNode n).isSome = true
  unboosted : hasSemanticBoost ctx n = false
  within : (a.outgoingNeighbors n).length ≤ m
  beyond : m < (b.outgoingNeighbors n).length
  loses : visibleBase a ctx n ≠ []

theorem baseCut (graph : GraphAccessor W) {ctx : DynamicContext W} {m : Nat}
    (limit : ctx.maxFanOut = some m) (strict : ctx.fanOutPagerankBypass = none) (n : String) :
    (baseEntries graph ctx n).filter (·.visible ctx) =
      if (graph.getNode n).isSome = true ∧
          ((graph.outgoingNeighbors n).length ≤ m ∨ hasSemanticBoost ctx n = true) then
        (visibleBase graph ctx n).map .ofBase else [] := by
  rw [← visibleEntries]
  unfold baseEntries
  cases graph.getNode n with
  | none => simp
  | some v =>
    have bypass : hasHighPagerank ctx v = false := by simp [hasHighPagerank,strict]
    rcases Nat.lt_or_ge m (graph.outgoingNeighbors n).length with past | under
    · have outside : ¬ (graph.outgoingNeighbors n).length ≤ m := Nat.not_le_of_lt past
      cases boost : hasSemanticBoost ctx n <;> simp [limit,bypass,past,outside]
    · have inside : ¬ m < (graph.outgoingNeighbors n).length := Nat.not_lt_of_le under
      simp [limit,bypass,inside,under]

theorem cutoffCounts {a b : GraphAccessor W} {ctx : DynamicContext W} {m : Nat} (hides : Hides a b ctx)
    (limit : ctx.maxFanOut = some m) (strict : ctx.fanOutPagerankBypass = none) (n : String) :
    neighborsWithOverlay a ctx n = neighborsWithOverlay b ctx n ↔ ¬ Tipped a b ctx m n := by
  have present : (a.getNode n).isSome = (b.getNode n).isSome := by
    simpa using congrArg Option.isSome (hides.nodes n)
  have grows := (hides.kept n).length_le
  rw [neighborsWithOverlay,neighborsWithOverlay,neighborsWithOverlayIndexed,neighborsWithOverlayIndexed,
    neighborsWithOverlayUnfiltered,neighborsWithOverlayUnfiltered,collectVisible,collectVisible,
    List.append_left_inj,baseCut a limit strict,baseCut b limit strict,present,hides.hidden]
  constructor
  · intro equal tipped
    have expanded : (b.getNode n).isSome = true ∧
        ((a.outgoingNeighbors n).length ≤ m ∨ hasSemanticBoost ctx n = true) :=
      ⟨present ▸ tipped.present,.inl tipped.within⟩
    have cut : ¬ ((b.getNode n).isSome = true ∧
        ((b.outgoingNeighbors n).length ≤ m ∨ hasSemanticBoost ctx n = true)) := by
      rintro ⟨_,under | boosted⟩
      · exact Nat.not_le_of_lt tipped.beyond under
      · rw [tipped.unboosted] at boosted
        cases boosted
    rw [if_pos expanded,if_neg cut,List.map_eq_nil_iff,← hides.hidden] at equal
    exact tipped.loses equal
  · intro steady
    by_cases expanded : (b.getNode n).isSome = true ∧
        ((a.outgoingNeighbors n).length ≤ m ∨ hasSemanticBoost ctx n = true)
    · rw [if_pos expanded]
      by_cases still : (b.outgoingNeighbors n).length ≤ m ∨ hasSemanticBoost ctx n = true
      · rw [if_pos ⟨expanded.1,still⟩]
      · obtain ⟨past,unboosted⟩ := not_or.mp still
        have within := expanded.2.resolve_right unboosted
        have nothing : visibleBase a ctx n = [] := by
          by_contra loses
          exact steady ⟨present ▸ expanded.1,by simpa using unboosted,within,Nat.lt_of_not_le past,loses⟩
        rw [← hides.hidden,nothing]
        simp
    · have cut : ¬ ((b.getNode n).isSome = true ∧
          ((b.outgoingNeighbors n).length ≤ m ∨ hasSemanticBoost ctx n = true)) :=
        fun h => expanded ⟨h.1,h.2.imp grows.trans id⟩
      rw [if_neg expanded,if_neg cut]

theorem cutoffSeesCounts [TotalCmp W] (order order' : Order) (heap : BinaryHeap W)
    {a b : GraphAccessor W} (named : b.Named) {ctx : DynamicContext W} {m : Nat} (hides : Hides a b ctx)
    (limit : ctx.maxFanOut = some m) (strict : ctx.fanOutPagerankBypass = none) :
    (∀ n, neighborsWithOverlay a ctx n = neighborsWithOverlay b ctx n ↔ ¬ Tipped a b ctx m n) ∧
    ((∀ n, ¬ Tipped a b ctx m n) →
      (∀ start k depth, beamTraverse order a ctx start k depth = beamTraverse order' b ctx start k depth) ∧
      ∀ start finish fuel, findPath heap a ctx start finish fuel = findPath heap b ctx start finish fuel) := by
  refine ⟨cutoffCounts hides limit strict,fun steady => ?_⟩
  have neighbors : neighborsWithOverlay a ctx = neighborsWithOverlay b ctx :=
    funext (fun n => (cutoffCounts hides limit strict n).mpr (steady n))
  have scores := hides.same.scores
  refine ⟨fun start k depth => ?_,pathReads scores neighbors heap⟩
  exact (beamReads scores neighbors order start k depth).trans (beamUnordered named order order' ctx start k depth)

end cutoff

/-! A hub with one public edge, and the same hub once a restricted edge has joined it.
The weights are decimal fractions with three digits. -/
structure Milli where
  thousandths : Nat
  deriving DecidableEq, Repr

instance : Arith Milli where
  ofNat n := ⟨1000 * n⟩
  add a b := ⟨a.thousandths + b.thousandths⟩
  sub a b := ⟨a.thousandths - b.thousandths⟩
  mul a b := ⟨a.thousandths * b.thousandths / 1000⟩
  div a b := ⟨1000 * a.thousandths / b.thousandths⟩
  maximum a b := ⟨max a.thousandths b.thousandths⟩
  lt a b := a.thousandths < b.thousandths
  isFinite _ := true
  epsilon := ⟨0⟩
  damping := ⟨850⟩

instance : TotalCmp Milli :=
  ⟨compareOn Milli.thousandths,inferInstanceAs (Std.TransCmp (compareOn Milli.thousandths))⟩

def hubGraph (edges : List (NeighborView Milli)) : GraphAccessor Milli where
  nodeCount := 1
  edgeCount := edges.length
  getNode n := if n = "hub" then some ⟨"hub","module",⟨500⟩,⟨0⟩,⟨1000⟩,∅⟩ else none
  outgoingNeighbors n := if n = "hub" then edges else []
  incomingNeighbors n := if n = "hub" then edges else []

def publicEdge : NeighborView Milli := ⟨"hub","depends",none,⟨1000⟩,none,none,[]⟩
def secretEdge : NeighborView Milli := ⟨"hub","depends",none,⟨1000⟩,none,none,["audit"]⟩

def plainContext (maxFanOut : Option Nat) : DynamicContext Milli :=
  ⟨∅,[],[],∅,⟨1000⟩,⟨1500⟩,⟨1000⟩,⟨1000⟩,[],maxFanOut,none,none,[]⟩

theorem hubNamed (edges : List (NeighborView Milli)) : (hubGraph edges).Named := by
  intro n v found
  simp only [hubGraph] at found
  split at found
  · rename_i same
    exact Option.some.inj found ▸ same.symm
  · cases found

theorem hubHides (maxFanOut : Option Nat) :
    Hides (hubGraph [publicEdge]) (hubGraph [secretEdge,publicEdge]) (plainContext maxFanOut) where
  nodes _ := rfl
  kept n := by
    simp only [hubGraph]
    split
    · exact List.sublist_cons_self _ _
    · exact .refl _
  hidden n := by
    simp only [visibleBase,hubGraph]
    split <;> rfl

theorem secretUnobserved :
    let a := hubGraph [publicEdge]
    let b := hubGraph [secretEdge,publicEdge]
    let ctx := plainContext none
    (∀ start k depth, beamTraverse .insertion a ctx start k depth =
      beamTraverse .newestFirst b ctx start k depth) ∧
    (∀ start finish fuel, findPath (.sorted _) a ctx start finish fuel =
      findPath (.sorted _) b ctx start finish fuel) ∧
    (∀ k, contextualSubgraph .insertion a ctx k = contextualSubgraph .newestFirst b ctx k) ∧
    (∀ startNodes k depth threshold, multiBeamIntersection .insertion a ctx startNodes k depth threshold =
      multiBeamIntersection .newestFirst b ctx startNodes k depth threshold) :=
  invisibleEdgesUnobserved .insertion .newestFirst (.sorted _) (hubNamed _) (hubHides none).same rfl

theorem secretSteady :
    let a := hubGraph [publicEdge]
    let b := hubGraph [secretEdge,publicEdge]
    let ctx := plainContext (some 2)
    (∀ n, neighborsWithOverlay a ctx n = neighborsWithOverlay b ctx n ↔ ¬ Tipped a b ctx 2 n) ∧
    ((∀ n, ¬ Tipped a b ctx 2 n) →
      (∀ start k depth, beamTraverse .insertion a ctx start k depth =
        beamTraverse .newestFirst b ctx start k depth) ∧
      ∀ start finish fuel, findPath (.sorted _) a ctx start finish fuel =
        findPath (.sorted _) b ctx start finish fuel) :=
  cutoffSeesCounts .insertion .newestFirst (.sorted _) (hubNamed _) (hubHides (some 2)) rfl rfl

/- With a cutoff of one, the restricted edge makes the hub lose its public one. -/
theorem secretTips :
    ¬ ∀ (a b : GraphAccessor Milli) (ctx : DynamicContext Milli) (m : Nat), Hides a b ctx →
      ctx.maxFanOut = some m → ctx.fanOutPagerankBypass = none →
      ∀ n, neighborsWithOverlay a ctx n = neighborsWithOverlay b ctx n := by
  intro steady
  have equal := steady _ _ _ 1 (hubHides (some 1)) rfl rfl "hub"
  have before : (neighborsWithOverlay (hubGraph [publicEdge]) (plainContext (some 1)) "hub").length = 1 := rfl
  have after : (neighborsWithOverlay (hubGraph [secretEdge,publicEdge]) (plainContext (some 1)) "hub").length = 0 :=
    rfl
  rw [equal,after] at before
  cases before

end OrpheusGraph
