import OrpheusGraph.Heatmap

/-! Subgraphs of one graph in several presentations. Nodes never differ; edges are told
apart by source, target and kind alone, so the presentations agree exactly when no two
parallel edges of one kind differ in another field. -/
namespace OrpheusGraph
variable {W : Type}

/- Visible base edges with the same ends and the same kind are the same. -/
def Plain (graph : GraphAccessor W) (ctx : DynamicContext W) : Prop :=
  ∀ u, ∀ v ∈ visibleBase graph ctx u, ∀ v' ∈ visibleBase graph ctx u,
    v.targetName = v'.targetName → v.edgeKind = v'.edgeKind → v = v'

theorem permConstant {α : Type} {xs ys : List α} (perm : xs.Perm ys) (same : ∀ x ∈ xs, ∀ y ∈ xs, x = y) :
    xs = ys := by
  cases xs with
  | nil => exact perm.nil_eq
  | cons x rest =>
    have constant : x :: rest = List.replicate (rest.length + 1) x :=
      List.eq_replicate_iff.mpr ⟨rfl,fun y member => same y member x List.mem_cons_self⟩
    rw [constant] at perm ⊢
    exact List.replicate_perm.mp perm

/-! The edges of one key come in the same order from every presentation. -/
section edges
variable {a b : GraphAccessor W} {ctx : DynamicContext W}
  (seen : ∀ n, (visibleBase a ctx n).Perm (visibleBase b ctx n)) (plain : Plain a ctx)
include seen plain

theorem plainList (n : String) {p : EdgeResult W → Bool}
    (one : ∀ e e', p e = true → p e' = true → e.key = e'.key) :
    ((visibleBase a ctx n).map (EdgeResult.ofBase n)).filter p =
      ((visibleBase b ctx n).map (EdgeResult.ofBase n)).filter p := by
  refine permConstant (((seen n).map _).filter _) (fun e left e' right => ?_)
  obtain ⟨listed,here⟩ := List.mem_filter.mp left
  obtain ⟨listed',here'⟩ := List.mem_filter.mp right
  obtain ⟨v,member,rfl⟩ := List.mem_map.mp listed
  obtain ⟨v',member',rfl⟩ := List.mem_map.mp listed'
  obtain ⟨_,rest⟩ := Prod.mk.inj (one _ _ here here')
  obtain ⟨target,kind⟩ := Prod.mk.inj rest
  rw [plain n v member v' member' target kind]

theorem amongPlain (set : List String) (n : String) (key : String × String × String) :
    (edgesAmong a ctx set n).filter (fun e => decide (e.key = key)) =
      (edgesAmong b ctx set n).filter (fun e => decide (e.key = key)) := by
  have inside : ∀ g : GraphAccessor W, ((visibleBase g ctx n).filter (fun v => v.targetName ∈ set)).map
      (EdgeResult.ofBase n) = ((visibleBase g ctx n).map (EdgeResult.ofBase n)).filter
        (fun e => decide (e.target ∈ set)) := by
    intro g
    rw [List.filter_map]
    rfl
  have left := inside a
  have right := inside b
  unfold visibleBase at left right
  unfold edgesAmong
  rw [List.filter_append,List.filter_append,left,right]
  congr 1
  rw [List.filter_filter,List.filter_filter]
  refine plainList seen plain n (fun e e' here here' => ?_)
  rw [Bool.and_eq_true,decide_eq_true_iff] at here here'
  exact here.1.trans here'.1.symm

theorem edgesPlain (order order' : Order) {set set' : List String} (perm : set.Perm set') :
    byEdge (reconstructEdges a ctx set (order.arrange set)) =
      byEdge (reconstructEdges b ctx set' (order'.arrange set')) := by
  rw [edgesUnordered a ctx order order' perm,reconstructFirsts,reconstructFirsts,byEdge,byEdge]
  have firsts : (Distinct.firsts EdgeResult.key ((order'.arrange set').flatMap (edgesAmong a ctx set'))).Perm
      (Distinct.firsts EdgeResult.key ((order'.arrange set').flatMap (edgesAmong b ctx set'))) := by
    refine (List.perm_ext_iff_of_nodup (Distinct.firstsNodup _ _) (Distinct.firstsNodup _ _)).mpr (fun e => ?_)
    rw [Distinct.memFirsts,Distinct.memFirsts,← List.head?_filter,← List.head?_filter,List.filter_flatMap,
      List.filter_flatMap]
    simp only [amongPlain seen plain set']
  exact Sorting.sortedUniqueKey edgeResultCmpLawful firsts (Distinct.firstsKeys _ _) edgeResultTied

end edges

section presentations
variable [Arith W] [TotalCmp W] (g : NamedGraph W) {a b : GraphAccessor W}
  (same : SameGraph g.toGraphAccessor a) (same' : SameGraph g.toGraphAccessor b) {ctx : DynamicContext W}
  (uncut : ctx.maxFanOut = none)
include same same' uncut

omit [TotalCmp W] in
theorem neighborsPerm (n : String) :
    (neighborsWithOverlay a ctx n).Perm (neighborsWithOverlay b ctx n) := by
  rw [neighborsWithOverlay,neighborsWithOverlay,neighborsSplit g same uncut,neighborsSplit g same' uncut]
  exact (((same.symm.trans same').outgoing n).filter _ |>.map _).append_right _

omit [TotalCmp W] in
theorem expandedAgree (seeds : List String) : expandedSeeds a ctx seeds = expandedSeeds b ctx seeds := by
  have scores : scoreOf a ctx (.build ctx) = scoreOf b ctx (.build ctx) :=
    scoresOfNodes rfl (same.symm.trans same').nodes
  have reached : ∀ expanded n, n ∈ reachedBy a ctx expanded ↔ n ∈ reachedBy b ctx expanded := by
    intro expanded n
    rw [reachedBy,reachedBy,List.mem_flatMap,List.mem_flatMap]
    exact exists_congr (fun u => and_congr_right (fun _ => ((neighborsPerm g same same' uncut u).map _).mem_iff))
  have step : expandSeed a ctx = expandSeed b ctx := by
    funext expanded seed
    simp only [expandSeed,scores,reached]
  rw [expandedSeeds,expandedSeeds,step]

omit [TotalCmp W] in
theorem entriesPlain (plain : Plain a ctx) (n : String) {p : EdgeResult W → Bool}
    (one : ∀ e e', p e = true → p e' = true → e.key = e'.key) :
    ((neighborsWithOverlay a ctx n).map (EdgeResult.ofEntry n)).filter p =
      ((neighborsWithOverlay b ctx n).map (EdgeResult.ofEntry n)).filter p := by
  have split : ∀ h : GraphAccessor W, SameGraph g.toGraphAccessor h →
      (neighborsWithOverlay h ctx n).map (EdgeResult.ofEntry n) =
        (visibleBase h ctx n).map (EdgeResult.ofBase n) ++
          ((visibleOverlay ctx n).map NeighborEntry.ofOverlay).map (EdgeResult.ofEntry n) := by
    intro h presented
    rw [neighborsWithOverlay,neighborsSplit g presented uncut,List.map_append,List.map_map]
    rfl
  rw [split a same,split b same',List.filter_append,List.filter_append,
    plainList (visiblePerm (same.symm.trans same') ctx) plain n one]

theorem subgraphPlain (plain : Plain a ctx) (order order' : Order) (k : Nat) :
    contextualSubgraph order a ctx k = contextualSubgraph order' b ctx k := by
  have named := same.keepsNames g
  have named' := same'.keepsNames g
  have scores : scoreOf a ctx (.build ctx) = scoreOf b ctx (.build ctx) :=
    scoresOfNodes rfl (same.symm.trans same').nodes
  rw [subgraphUnordered a order order']
  have left := gathered named ctx (seedsOf order' ctx k)
  have right := gathered named' ctx (seedsOf order' ctx k)
  rw [← expandedAgree g same same' uncut] at right
  unfold contextualSubgraph
  generalize expandedSeeds a ctx (seedsOf order' ctx k) = expanded at left right
  generalize (seedsOf order' ctx k).foldl (collectSeed a ctx (.build ctx)) ⟨[],[],[]⟩ = c at left
  generalize (seedsOf order' ctx k).foldl (collectSeed b ctx (.build ctx)) ⟨[],[],[]⟩ = c' at right
  have reached : ∀ n, n ∈ reachedBy a ctx expanded ↔ n ∈ reachedBy b ctx expanded := by
    intro n
    rw [reachedBy,reachedBy,List.mem_flatMap,List.mem_flatMap]
    exact exists_congr (fun u => and_congr_right (fun _ => ((neighborsPerm g same same' uncut u).map _).mem_iff))
  have nodes : c.nodes.Perm c'.nodes := by
    refine (List.perm_ext_iff_of_nodup left.exact.once.of_map right.exact.once.of_map).mpr (fun r => ?_)
    rw [left.exact.nodes,right.exact.nodes,left.set,right.set,reached,scores]
  have present : (fun e : EdgeResult W => decide (e.source ∈ c.nodes.map NodeResult.name) &&
      decide (e.target ∈ c.nodes.map NodeResult.name)) = (fun e => decide (e.source ∈ c'.nodes.map NodeResult.name) &&
      decide (e.target ∈ c'.nodes.map NodeResult.name)) := by
    funext e
    simp only [(nodes.map NodeResult.name).mem_iff]
  have edges : byEdge (c.edges.filter (fun e : EdgeResult W => decide (e.source ∈ c'.nodes.map NodeResult.name) &&
      decide (e.target ∈ c'.nodes.map NodeResult.name))) = byEdge (c'.edges.filter (fun e =>
      decide (e.source ∈ c'.nodes.map NodeResult.name) && decide (e.target ∈ c'.nodes.map NodeResult.name))) := by
    rw [left.edges,right.edges,byEdge,byEdge]
    refine Sorting.stableUnique edgeResultCmpLawful ?_ (fun e _ => ?_)
    · exact (List.Perm.flatMap_left _ (fun s _ => (neighborsPerm g same same' uncut s).map _)).filter _
    · rw [List.filter_filter,List.filter_filter,List.filter_flatMap,List.filter_flatMap]
      congr 1
      funext s
      refine entriesPlain g same same' uncut plain s (fun x y here here' => ?_)
      have left := (Bool.and_eq_true_iff.mp here).1
      have right := (Bool.and_eq_true_iff.mp here').1
      exact (edgeResultTied e x (eq_of_beq left)).symm.trans (edgeResultTied e y (eq_of_beq right))
  have sorted : byWeight c.nodes = byWeight c'.nodes :=
    Sorting.sortedUniqueKey nodeResultCmpLawful nodes left.exact.once (fun _ _ => Sorting.rankedTied)
  exact congrArg₂ SubGraph.mk sorted ((congrArg (fun p => byEdge (c.edges.filter p)) present).trans edges)

theorem multiPlain (plain : Plain a ctx) (order order' : Order) (startNodes : List String)
    (k depth threshold : Nat) : multiBeamIntersection order a ctx startNodes k depth threshold =
      multiBeamIntersection order' b ctx startNodes k depth threshold := by
  have named := same.keepsNames g
  have named' := same'.keepsNames g
  have scores : scoreOf a ctx (.build ctx) = scoreOf b ctx (.build ctx) :=
    scoresOfNodes rfl (same.symm.trans same').nodes
  have next : ∀ u v, Next a ctx u v ↔ Next b ctx u v :=
    fun u v => ((neighborsPerm g same same' uncut u).map _).mem_iff
  have often : ∀ n, hits (beamsOf order a ctx startNodes k depth) n =
      hits (beamsOf order' b ctx startNodes k depth) n := by
    intro n
    have beams : (fun start => beamTraverse order a ctx start k depth) =
        (fun start => beamTraverse order' b ctx start k depth) :=
      funext (fun start => beamAgrees scores next named named' order order' start k depth)
    rw [beamsOf,beamsOf,beams]
  obtain ⟨nodes,set⟩ := keptAgrees named named' scores (beamsHold named order ctx startNodes k depth)
    (beamsHold named' order' ctx startNodes k depth) often (fun _ => Iff.rfl) order order' threshold
  rw [multiSplit,multiSplit]
  exact congrArg₂ SubGraph.mk nodes
    (edgesPlain (visiblePerm (same.symm.trans same') ctx) plain order order' set)

end presentations

/-! Without plain edges two presentations differ: each may list first what the other lists second. -/
def relisted (g : GraphAccessor W) (u : String) (listed : List (NeighborView W)) : GraphAccessor W :=
  { g with outgoingNeighbors := fun n => if n = u then listed else g.outgoingNeighbors n }

theorem relistedSame (g : GraphAccessor W) {u : String} {listed : List (NeighborView W)}
    (perm : (g.outgoingNeighbors u).Perm listed) : SameGraph g (relisted g u listed) where
  nodes _ := rfl
  nodeCount := rfl
  edgeCount := rfl
  outgoing n := by
    show (g.outgoingNeighbors n).Perm (if n = u then listed else g.outgoingNeighbors n)
    split
    · rename_i same
      exact same ▸ perm
    · exact .refl _
  incoming _ := .refl _

section converse
variable [Arith W] [TotalCmp W]

theorem firstKept (g : NamedGraph W) {a : GraphAccessor W} (same : SameGraph g.toGraphAccessor a)
    {ctx : DynamicContext W} {u : String} {v : NeighborView W} {rest : List (NeighborView W)}
    (listed : visibleBase a ctx u = v :: rest) (order : Order) :
    .ofBase u v ∈ (multiBeamIntersection order a ctx [u,v.targetName] 0 0 1).edges := by
  have named := same.keepsNames g
  have set := keptSet (beamsHold named order ctx [u,v.targetName] 0 0) named order [u,v.targetName] 1
  have source := (set u).mpr (.inl List.mem_cons_self)
  have target := (set v.targetName).mpr (.inl (List.mem_cons_of_mem u List.mem_cons_self))
  rw [multiSplit]
  refine List.mem_mergeSort.mpr ?_
  rw [reconstructFirsts,Distinct.memFirsts,Distinct.findGrouped EdgeResult.key Prod.fst
    (edgesAmongSource a ctx _)]
  refine (if_pos ((order.perm _).mem_iff.mpr source)).trans ?_
  unfold visibleBase at listed
  show (edgesAmong a ctx _ u).find? _ = _
  unfold edgesAmong
  rw [listed,List.filter_cons_of_pos (by simpa using target)]
  exact List.find?_cons_of_pos (decide_eq_true rfl)

theorem multiKeys (order : Order) (a : GraphAccessor W) (ctx : DynamicContext W) (startNodes : List String)
    (k depth threshold : Nat) :
    ((multiBeamIntersection order a ctx startNodes k depth threshold).edges.map EdgeResult.key).Nodup := by
  rw [multiSplit]
  refine ((List.mergeSort_perm _ _).map EdgeResult.key).nodup_iff.mpr ?_
  rw [reconstructFirsts]
  exact Distinct.firstsKeys _ _

theorem plainOfAgreement (g : NamedGraph W) {ctx : DynamicContext W}
    (agree : ∀ (a b : GraphAccessor W), SameGraph g.toGraphAccessor a → SameGraph g.toGraphAccessor b →
      ∀ startNodes k depth threshold, multiBeamIntersection .insertion a ctx startNodes k depth threshold =
        multiBeamIntersection .insertion b ctx startNodes k depth threshold) : Plain g.toGraphAccessor ctx := by
  intro u v member v' member' target kind
  -- Either edge may be the one that is listed first.
  have present : ∀ x ∈ visibleBase g.toGraphAccessor ctx u, ∃ a, SameGraph g.toGraphAccessor a ∧
      ∃ rest, visibleBase a ctx u = x :: rest := by
    intro x among
    obtain ⟨stored,seen⟩ := List.mem_filter.mp among
    obtain ⟨before,after,split⟩ := List.append_of_mem stored
    refine ⟨relisted g.toGraphAccessor u (x :: (before ++ after)),relistedSame _ ?_,
      (before ++ after).filter (fun v => ctx.isEdgeVisible v.validFrom v.validTo v.acl),?_⟩
    · rw [split]
      exact List.perm_middle
    · show List.filter _ (if u = u then _ else _) = _
      rw [if_pos rfl]
      exact List.filter_cons_of_pos seen
  obtain ⟨a,same,rest,first⟩ := present v member
  obtain ⟨b,same',rest',first'⟩ := present v' member'
  have kept := firstKept g same first .insertion
  have kept' := firstKept g same' first' .insertion
  rw [← target,← agree a b same same'] at kept'
  have key : (EdgeResult.ofBase u v).key = (EdgeResult.ofBase u v').key := by
    rw [EdgeResult.key,EdgeResult.key]
    exact congrArg₂ (fun t k => (u,t,k)) target kind
  have edge := List.inj_on_of_nodup_map (multiKeys .insertion a ctx [u,v.targetName] 0 0 1) kept kept' key
  cases v
  cases v'
  cases edge
  rfl

omit [Arith W] [TotalCmp W] in
theorem plainPresented (g : NamedGraph W) {a : GraphAccessor W} (same : SameGraph g.toGraphAccessor a)
    {ctx : DynamicContext W} (plain : Plain g.toGraphAccessor ctx) : Plain a ctx := by
  intro u v member v' member' target kind
  have perm := visiblePerm same ctx u
  exact plain u v (perm.mem_iff.mpr member) v' (perm.mem_iff.mpr member') target kind

/- The three representations of a store: the merged view before a compaction, the graph it
folds into, and the mapped snapshot of that graph. -/
theorem subgraphsOfRepresentations (hash : String → Nat) {adjacency : Order} {base : OrpheusGraphInner W}
    (produced : Produced adjacency base) {h : List (Op W)} {d : GraphDelta W}
    (reached : Reached (base.accessor adjacency) h d) (room : edgeAdds h ≤ 2^32) {names : List String}
    (listed : names.Perm base.indexMap.keys) {folded : OrpheusGraphInner W}
    (fold : folded = foldBase adjacency (base.accessor adjacency) names d)
    (nodesFit : folded.graph.nodes.length < u32Max) (edgesFit : folded.graph.edges.length < u32Max)
    {ctx : DynamicContext W} (uncut : ctx.maxFanOut = none) (plain : Plain (folded.accessor adjacency) ctx)
    (order order' : Order) :
    ∃ sg, toRkyvV2 hash folded = some sg ∧ ∀ a ∈ [deltaAccessor (base.accessor adjacency) d,
      sg.archivedCsrView hash],
      (∀ k, contextualSubgraph order (folded.accessor adjacency) ctx k = contextualSubgraph order' a ctx k) ∧
      ∀ startNodes k depth threshold,
        multiBeamIntersection order (folded.accessor adjacency) ctx startNodes k depth threshold =
          multiBeamIntersection order' a ctx startNodes k depth threshold := by
  have ok : folded.Indexed := fold ▸ foldIndexed adjacency _ names d
  have merged : SameGraph (folded.accessor adjacency) (deltaAccessor (base.accessor adjacency) d) :=
    fold ▸ foldAgrees produced reached room listed
  obtain ⟨sg,written,mapped⟩ := writtenAgrees hash adjacency ok nodesFit.le edgesFit.le
  refine ⟨sg,written,fun a member => ?_⟩
  have same : SameGraph (folded.accessor adjacency) a := by
    rcases List.mem_cons.mp member with rfl | last
    · exact merged
    · exact List.mem_singleton.mp last ▸ mapped.symm.same
  exact ⟨subgraphPlain (folded.named adjacency ok) (.refl _) same uncut plain order order',
    multiPlain (folded.named adjacency ok) (.refl _) same uncut plain order order'⟩

end converse

/-! Two parallel edges of one kind. -/
def slowEdge : EdgeData Milli := ⟨"calls",none,⟨2000⟩,none,none,[]⟩

theorem slowEdges : sortedEdges (pairGraph [callsEdge,slowEdge]) =
    [.ofData 0 1 callsEdge,.ofData 0 1 slowEdge] := by
  rw [sortedEdges,pairRanked]
  exact List.mergeSort_of_pairwise (by decide)

end OrpheusGraph
