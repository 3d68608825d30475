import OrpheusGraph.Beam

/-! What a contextual subgraph holds. A seed is expanded unless a seed expanded before it
already led to it; the nodes and the edges are those of the expanded seeds. -/
namespace OrpheusGraph
variable {W : Type}

section gathering
variable [Arith W]

/- Whether the next seed is expanded. -/
def expandSeed (graph : GraphAccessor W) (ctx : DynamicContext W) (expanded : List String) (seed : String) :
    List String :=
  if seed ∈ expanded ∨ seed ∈ reachedBy graph ctx expanded then expanded
  else if (scoreOf graph ctx (.build ctx) seed).isSome then expanded ++ [seed] else expanded

def expandedSeeds (graph : GraphAccessor W) (ctx : DynamicContext W) (seeds : List String) : List String :=
  seeds.foldl (expandSeed graph ctx) []

/- Every name met has been marked, and the nodes are those of the marked names that have a score. -/
structure Collected.Exact (graph : GraphAccessor W) (ctx : DynamicContext W) (c : Collected W) : Prop where
  nodes : ∀ r, r ∈ c.nodes ↔ r.name ∈ c.nodeSet ∧ scoreOf graph ctx (.build ctx) r.name = some r
  once : (c.nodes.map NodeResult.name).Nodup

variable {graph : GraphAccessor W} (named : graph.Named) (ctx : DynamicContext W)

include named in
theorem Collected.Exact.mark {ctx : DynamicContext W} {c : Collected W} (exact : c.Exact graph ctx)
    {name : String} (fresh : name ∉ c.nodeSet) (edges : List (EdgeResult W)) :
    Collected.Exact graph ctx
      ⟨name :: c.nodeSet,c.nodes ++ (scoreOf graph ctx (.build ctx) name).toList,edges⟩ where
  nodes r := by
    rw [List.mem_append,exact.nodes,List.mem_cons,Option.mem_toList]
    constructor
    · rintro (⟨old,scored⟩ | scored)
      · exact ⟨.inr old,scored⟩
      · cases scoreNamed named ctx scored
        exact ⟨.inl rfl,scored⟩
    · rintro ⟨rfl | old,scored⟩
      · exact .inr scored
      · exact .inl ⟨old,scored⟩
  once := by
    rw [List.map_append]
    refine List.nodup_append.mpr ⟨exact.once,?_,fun n here m added same => ?_⟩
    · cases scoreOf graph ctx (.build ctx) name <;> simp
    · obtain ⟨old,listed,rfl⟩ := List.mem_map.mp here
      obtain ⟨new,member,rfl⟩ := List.mem_map.mp added
      have scored := Option.mem_toList.mp member
      exact fresh (scoreNamed named ctx scored ▸ same ▸ ((exact.nodes old).mp listed).1)

include named in
theorem collectAll (seed : String) (ns : List (NeighborEntry W)) {c : Collected W}
    (exact : c.Exact graph ctx) :
    (ns.foldl (collectNeighbor graph ctx (.build ctx) seed) c).Exact graph ctx ∧
    (∀ n, n ∈ (ns.foldl (collectNeighbor graph ctx (.build ctx) seed) c).nodeSet ↔
      n ∈ c.nodeSet ∨ n ∈ ns.map NeighborEntry.name) ∧
    (ns.foldl (collectNeighbor graph ctx (.build ctx) seed) c).edges =
      c.edges ++ ns.map (.ofEntry seed) := by
  induction ns generalizing c with
  | nil => simpa using exact
  | cons e rest ih =>
    rcases em (e.name ∈ c.nodeSet) with old | fresh
    · have step : collectNeighbor graph ctx (.build ctx) seed c e =
          { c with edges := c.edges ++ [.ofEntry seed e] } := if_pos old
      obtain ⟨held,set,edges⟩ := ih (c := { c with edges := c.edges ++ [.ofEntry seed e] })
        ⟨exact.nodes,exact.once⟩
      rw [List.foldl_cons,step]
      refine ⟨held,fun n => ?_,by rw [edges]; simp⟩
      rw [set,List.map_cons,List.mem_cons]
      constructor
      · exact Or.imp_right .inr
      · rintro (here | rfl | later)
        · exact .inl here
        · exact .inl old
        · exact .inr later
    · have step : collectNeighbor graph ctx (.build ctx) seed c e =
          ⟨e.name :: c.nodeSet,c.nodes ++ (scoreOf graph ctx (.build ctx) e.name).toList,
            c.edges ++ [.ofEntry seed e]⟩ := if_neg fresh
      obtain ⟨held,set,edges⟩ := ih (exact.mark named fresh (c.edges ++ [.ofEntry seed e]))
      rw [List.foldl_cons,step]
      refine ⟨held,fun n => ?_,by rw [edges]; simp⟩
      rw [set,List.map_cons,List.mem_cons,List.mem_cons,or_assoc,or_left_comm]

/- What has been collected once some seeds have been expanded. -/
structure Gathers (graph : GraphAccessor W) (ctx : DynamicContext W) (expanded : List String)
    (c : Collected W) : Prop where
  exact : c.Exact graph ctx
  set : ∀ n, n ∈ c.nodeSet ↔ n ∈ expanded ∨ n ∈ reachedBy graph ctx expanded
  edges : c.edges = expanded.flatMap (fun s => (neighborsWithOverlay graph ctx s).map (.ofEntry s))
  scored : ∀ s ∈ expanded, (scoreOf graph ctx (.build ctx) s).isSome = true

include named in
theorem gatherSeed {expanded : List String} {c : Collected W} (gathers : Gathers graph ctx expanded c)
    (seed : String) :
    Gathers graph ctx (expandSeed graph ctx expanded seed) (collectSeed graph ctx (.build ctx) c seed) := by
  unfold collectSeed expandSeed
  rcases em (seed ∈ c.nodeSet) with old | fresh
  · rw [if_pos old,if_pos ((gathers.set seed).mp old)]
    exact gathers
  · rw [if_neg fresh,if_neg (mt (gathers.set seed).mpr fresh)]
    cases scored : scoreOf graph ctx (.build ctx) seed with
    | none => exact gathers
    | some r =>
      have marked := gathers.exact.mark named fresh c.edges
      rw [scored] at marked
      obtain ⟨held,set,edges⟩ := collectAll named ctx seed (neighborsWithOverlay graph ctx seed) marked
      refine ⟨held,fun n => ?_,?_,fun s member => ?_⟩
      · refine (set n).trans ?_
        show n ∈ seed :: c.nodeSet ∨ _ ↔ n ∈ expanded ++ [seed] ∨ n ∈ reachedBy graph ctx (expanded ++ [seed])
        rw [reachedBy,List.flatMap_append,List.flatMap_singleton,List.mem_append,List.mem_append,
          List.mem_cons,List.mem_singleton,gathers.set,reachedBy]
        tauto
      · refine edges.trans ?_
        show c.edges ++ _ = (expanded ++ [seed]).flatMap _
        rw [gathers.edges,List.flatMap_append,List.flatMap_singleton]
      · rcases List.mem_append.mp member with before | last
        · exact gathers.scored s before
        · cases List.mem_singleton.mp last
          exact Option.isSome_of_eq_some scored

include named in
theorem gatherAll (seeds : List String) {expanded : List String} {c : Collected W}
    (gathers : Gathers graph ctx expanded c) :
    Gathers graph ctx (seeds.foldl (expandSeed graph ctx) expanded)
      (seeds.foldl (collectSeed graph ctx (.build ctx)) c) := by
  induction seeds generalizing expanded c with
  | nil => exact gathers
  | cons seed rest ih => exact ih (gatherSeed named ctx gathers seed)

include named in
theorem gathered (seeds : List String) : Gathers graph ctx (expandedSeeds graph ctx seeds)
    (seeds.foldl (collectSeed graph ctx (.build ctx)) ⟨[],[],[]⟩) :=
  gatherAll named ctx seeds
    { exact := ⟨fun r => by simp,List.nodup_nil⟩
      set := fun n => by simp [reachedBy]
      edges := rfl
      scored := fun s member => absurd member List.not_mem_nil }

/-! Which seeds are expanded. -/
omit named in
theorem expandGrows (seeds : List String) {expanded : List String} {s : String} (member : s ∈ expanded) :
    s ∈ seeds.foldl (expandSeed graph ctx) expanded := by
  induction seeds generalizing expanded with
  | nil => exact member
  | cons seed rest ih =>
    refine ih ?_
    unfold expandSeed
    split
    · exact member
    · split
      · exact List.mem_append_left _ member
      · exact member

/- A resolvable seed is met, and it is expanded unless it was met before its turn. -/
theorem expandTurn (expanded : List String) {s : String} (resolves : Resolvable graph ctx s) :
    s ∈ expandSeed graph ctx expanded s ∨ s ∈ reachedBy graph ctx expanded := by
  unfold expandSeed
  rcases em (s ∈ expanded ∨ s ∈ reachedBy graph ctx expanded) with met | fresh
  · rw [if_pos met]
    exact met
  · rw [if_neg fresh,if_pos ((scoredIff graph ctx s).mpr resolves)]
    exact .inl (List.mem_append_right _ List.mem_cons_self)

theorem reachedGrows {expanded more : List String} (grows : ∀ s ∈ expanded, s ∈ more) {n : String}
    (reached : n ∈ reachedBy graph ctx expanded) : n ∈ reachedBy graph ctx more := by
  obtain ⟨s,member,next⟩ := List.mem_flatMap.mp reached
  exact List.mem_flatMap.mpr ⟨s,grows s member,next⟩

end gathering

section queries
variable [Arith W] [TotalCmp W] {graph : GraphAccessor W} (named : graph.Named) (ctx : DynamicContext W)
  (order : Order) (k : Nat)
include named

theorem subgraphNodes (r : NodeResult W) : r ∈ (contextualSubgraph order graph ctx k).nodes ↔
    (r.name ∈ expandedSeeds graph ctx (seedsOf order ctx k) ∨
      r.name ∈ reachedBy graph ctx (expandedSeeds graph ctx (seedsOf order ctx k))) ∧
    scoreOf graph ctx (.build ctx) r.name = some r := by
  have gathers := gathered named ctx (seedsOf order ctx k)
  rw [← gathers.set,← gathers.exact.nodes]
  exact List.mem_mergeSort

theorem subgraphPresent (n : String) :
    n ∈ (contextualSubgraph order graph ctx k).nodes.map NodeResult.name ↔
    (n ∈ expandedSeeds graph ctx (seedsOf order ctx k) ∨
      n ∈ reachedBy graph ctx (expandedSeeds graph ctx (seedsOf order ctx k))) ∧ Resolvable graph ctx n := by
  rw [List.mem_map,← scoredIff]
  constructor
  · rintro ⟨r,member,rfl⟩
    obtain ⟨met,scored⟩ := (subgraphNodes named ctx order k r).mp member
    exact ⟨met,Option.isSome_of_eq_some scored⟩
  · rintro ⟨met,resolved⟩
    obtain ⟨r,scored⟩ := Option.isSome_iff_exists.mp resolved
    cases scoreNamed named ctx scored
    exact ⟨r,(subgraphNodes named ctx order k r).mpr ⟨met,scored⟩,rfl⟩

theorem subgraphEdges (e : EdgeResult W) : e ∈ (contextualSubgraph order graph ctx k).edges ↔
    ∃ s ∈ expandedSeeds graph ctx (seedsOf order ctx k), ∃ n ∈ neighborsWithOverlay graph ctx s,
      e = .ofEntry s n ∧ Resolvable graph ctx n.name := by
  have gathers := gathered named ctx (seedsOf order ctx k)
  have present : ∀ n, n ∈ ((seedsOf order ctx k).foldl (collectSeed graph ctx (.build ctx)) ⟨[],[],[]⟩).nodes.map
      NodeResult.name ↔ n ∈ (contextualSubgraph order graph ctx k).nodes.map NodeResult.name :=
    fun n => ((List.mergeSort_perm _ _).map NodeResult.name).mem_iff.symm
  rw [contextualSubgraph,byEdge,List.mem_mergeSort,List.mem_filter,gathers.edges,List.mem_flatMap]
  simp only [Bool.and_eq_true,decide_eq_true_eq,present,subgraphPresent named ctx order k]
  constructor
  · rintro ⟨⟨s,member,listed⟩,_,_,resolves⟩
    obtain ⟨n,among,rfl⟩ := List.mem_map.mp listed
    exact ⟨s,member,n,among,rfl,resolves⟩
  · rintro ⟨s,member,n,among,rfl,resolves⟩
    refine ⟨⟨s,member,List.mem_map_of_mem among⟩,⟨.inl member,?_⟩,.inr ?_,resolves⟩
    · exact (scoredIff graph ctx s).mp (gathers.scored s member)
    · exact List.mem_flatMap.mpr ⟨s,member,List.mem_map_of_mem among⟩

/- No node twice, no edge out of sight, no edge without its ends. -/
structure SubGraph.Closed (s : SubGraph W) (ctx : DynamicContext W) : Prop where
  once : (s.nodes.map NodeResult.name).Nodup
  visible : ∀ e ∈ s.edges, ctx.isEdgeVisible e.validFrom e.validTo e.acl = true
  ends : ∀ e ∈ s.edges, e.source ∈ s.nodes.map NodeResult.name ∧ e.target ∈ s.nodes.map NodeResult.name

theorem subgraphClosed : (contextualSubgraph order graph ctx k).Closed ctx := by
  have gathers := gathered named ctx (seedsOf order ctx k)
  constructor
  · exact ((List.mergeSort_perm _ _).map NodeResult.name).nodup_iff.mpr gathers.exact.once
  · intro e member
    obtain ⟨s,_,n,listed,rfl,_⟩ := (subgraphEdges named ctx order k e).mp member
    exact (List.mem_filter.mp listed).2
  · intro e member
    obtain ⟨s,expanded,n,listed,rfl,resolves⟩ := (subgraphEdges named ctx order k e).mp member
    constructor
    · refine (subgraphPresent named ctx order k s).mpr ⟨.inl expanded,?_⟩
      exact (scoredIff graph ctx s).mp (gathers.scored s expanded)
    · refine (subgraphPresent named ctx order k n.name).mpr ⟨.inr ?_,resolves⟩
      exact List.mem_flatMap.mpr ⟨s,expanded,List.mem_map_of_mem listed⟩

end queries

/-! The seeds and what they bring. -/
section seeds
variable [TotalCmp W]

theorem boostCmpLawful : Std.TransCmp (boostCmp (W := W)) := Sorting.rankedLawful TotalCmp.lawful

/- A name is a seed when fewer than `k` boosted names come before it. -/
theorem seedRanked (order : Order) (ctx : DynamicContext W) (k : Nat) (s : String) :
    s ∈ seedsOf order ctx k ↔ ∃ boost, ctx.semanticBoosts.get s = some boost ∧
      ctx.semanticBoosts.entries.countP (fun x => boostCmp x (s,boost) == .lt) < k := by
  have keys : ((order.arrange ctx.semanticBoosts.entries).map Prod.fst).Nodup := by
    rw [((order.perm _).map Prod.fst).nodup_iff]
    exact ctx.semanticBoosts.keysNodup
  have ranked : ∀ x ∈ ctx.semanticBoosts.entries,
      x ∈ ((order.arrange ctx.semanticBoosts.entries).mergeSort (fun a b => (boostCmp a b).isLE)).take k ↔
        ctx.semanticBoosts.entries.countP (fun y => boostCmp y x == .lt) < k := by
    intro x member
    rw [← (order.perm ctx.semanticBoosts.entries).countP_eq]
    exact Sorting.memTakeSorted boostCmpLawful keys.of_map
      (fun a left b right tied => List.inj_on_of_nodup_map keys left right (Sorting.rankedTied tied)) k
      ((order.perm _).mem_iff.mpr member)
  rw [seedsOf,List.mem_map]
  constructor
  · rintro ⟨x,taken,rfl⟩
    have member := (order.perm _).mem_iff.mp (List.mem_mergeSort.mp (List.mem_of_mem_take taken))
    exact ⟨x.2,getOfMem member,(ranked x member).mp taken⟩
  · rintro ⟨boost,found,few⟩
    exact ⟨(s,boost),(ranked _ (memOfGet found)).mpr few,rfl⟩

variable [Arith W]

theorem seedsExpanded (order : Order) (g : NamedGraph W) {a : GraphAccessor W}
    (same : SameGraph g.toGraphAccessor a) (ctx : DynamicContext W) (k : Nat) :
    (∀ s, s ∈ seedsOf order ctx k ↔ ∃ boost, ctx.semanticBoosts.get s = some boost ∧
      ctx.semanticBoosts.entries.countP (fun x => boostCmp x (s,boost) == .lt) < k) ∧
    ∀ before s after, seedsOf order ctx k = before ++ s :: after → Resolvable a ctx s →
      s ∈ (contextualSubgraph order a ctx k).nodes.map NodeResult.name ∧
      ((∀ x ∈ expandedSeeds a ctx before, ¬ Leads a ctx x s) →
        ∀ e, Seen a ctx s e → Resolvable a ctx e.name →
          e.name ∈ (contextualSubgraph order a ctx k).nodes.map NodeResult.name ∧
          .ofEntry s e ∈ (contextualSubgraph order a ctx k).edges) := by
  refine ⟨seedRanked order ctx k,fun before s after split resolves => ?_⟩
  have named := same.keepsNames g
  have all : expandedSeeds a ctx (seedsOf order ctx k) =
      after.foldl (expandSeed a ctx) (expandSeed a ctx (expandedSeeds a ctx before) s) := by
    rw [split,expandedSeeds,List.foldl_append]
    rfl
  have earlier : ∀ x ∈ expandedSeeds a ctx before, x ∈ expandedSeeds a ctx (seedsOf order ctx k) := by
    intro x member
    rw [split,expandedSeeds,List.foldl_append]
    exact expandGrows ctx (s :: after) member
  refine ⟨(subgraphPresent named ctx order k s).mpr ⟨?_,resolves⟩,fun fresh e seen target => ?_⟩
  · rcases expandTurn ctx (expandedSeeds a ctx before) resolves with here | met
    · exact .inl (all ▸ expandGrows ctx after here)
    · exact .inr (reachedGrows ctx earlier met)
  · have expanded : s ∈ expandedSeeds a ctx (seedsOf order ctx k) := by
      rcases expandTurn ctx (expandedSeeds a ctx before) resolves with here | met
      · exact all ▸ expandGrows ctx after here
      · obtain ⟨x,member,next⟩ := List.mem_flatMap.mp met
        exact absurd ((nextIff g same).mp next) (fresh x member)
    have listed : e ∈ neighborsWithOverlay a ctx s := (seenIff g same).mpr seen
    refine ⟨(subgraphPresent named ctx order k e.name).mpr ⟨.inr ?_,target⟩,
      (subgraphEdges named ctx order k _).mpr ⟨s,expanded,e,listed,rfl,target⟩⟩
    exact List.mem_flatMap.mpr ⟨s,expanded,List.mem_map_of_mem listed⟩

end seeds

/- The two ends of one edge, boosted or not. -/
def boostContext (semanticBoosts : IndexMap String Milli) (maxFanOut : Option Nat) : DynamicContext Milli :=
  { plainContext maxFanOut with semanticBoosts }

def bothBoosted : IndexMap String Milli := ((∅ : IndexMap String Milli).insert "a" ⟨2000⟩).insert "b" ⟨1000⟩

theorem pairSeeds :
    let a := (pairGraph [callsEdge]).accessor .newestFirst
    let ctx := boostContext bothBoosted none
    (∀ s, s ∈ seedsOf .insertion ctx 2 ↔ ∃ boost, ctx.semanticBoosts.get s = some boost ∧
      ctx.semanticBoosts.entries.countP (fun x => boostCmp x (s,boost) == .lt) < 2) ∧
    ∀ before s after, seedsOf .insertion ctx 2 = before ++ s :: after → Resolvable a ctx s →
      s ∈ (contextualSubgraph .insertion a ctx 2).nodes.map NodeResult.name ∧
      ((∀ x ∈ expandedSeeds a ctx before, ¬ Leads a ctx x s) →
        ∀ e, Seen a ctx s e → Resolvable a ctx e.name →
          e.name ∈ (contextualSubgraph .insertion a ctx 2).nodes.map NodeResult.name ∧
          .ofEntry s e ∈ (contextualSubgraph .insertion a ctx 2).edges) :=
  seedsExpanded .insertion ((pairGraph [callsEdge]).named .newestFirst (pairIndexed _)) (.refl _)
    (boostContext bothBoosted none) 2

/- A seed whose boost does not raise it is cut like any other hub. -/
theorem cutoffStopsSeed : ¬ ∀ (g : NamedGraph Milli) (ctx : DynamicContext Milli) (k : Nat) (s n : String),
    s ∈ seedsOf .insertion ctx k → Resolvable g.toGraphAccessor ctx s → Joined g.toGraphAccessor ctx s n →
    Resolvable g.toGraphAccessor ctx n →
    n ∈ (contextualSubgraph .insertion g.toGraphAccessor ctx k).nodes.map NodeResult.name := by
  intro expands
  have listed := expands ((pairGraph [callsEdge]).named .newestFirst (pairIndexed _))
    (boostContext (.insert ∅ "a" ⟨0⟩) (some 0)) 1 "a" "b" (by decide +kernel) (.inl rfl)
    (.inl ⟨.ofEdge "b" callsEdge,List.mem_singleton.mpr rfl,rfl⟩) (.inl rfl)
  have absent : "b" ∉ (contextualSubgraph .insertion ((pairGraph [callsEdge]).accessor .newestFirst)
      (boostContext (.insert ∅ "a" ⟨0⟩) (some 0)) 1).nodes.map NodeResult.name := by decide +kernel
  exact absent listed

end OrpheusGraph
