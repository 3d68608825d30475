import OrpheusGraph.Builder
import OrpheusGraph.Merged

/-! Folding the merged view into a new base: the builder, fed what `materialize` emits,
presents the graph it was emitted from. -/
namespace OrpheusGraph
variable {W : Type} [Arith W]

/- The inputs `materialize` would emit for a graph, given an enumeration of its nodes. -/
def nodeInputs (g : GraphAccessor W) (names : List String) : List (NodeInput W) :=
  names.filterMap (fun n => (g.getNode n).map NodeView.unranked)

def edgeInputs (g : GraphAccessor W) (names : List String) : List (EdgeInput W) :=
  names.flatMap (fun n => (g.outgoingNeighbors n).map (edgeInput n))

/- What compaction builds: `materialize`, then `build_graph_prenormalized`. -/
def foldBase (adjacency : Order) (base : GraphAccessor W) (names : List String) (d : GraphDelta W) :
    OrpheusGraphInner W :=
  let inputs := materialize base names d
  buildGraphPrenormalized adjacency inputs.1 inputs.2

namespace Fold

omit [Arith W] in
theorem nodeInputNames (g : NamedGraph W) {names : List String} (known : ∀ n ∈ names, n ∈ g.names) :
    (nodeInputs g.toGraphAccessor names).map NodeInput.name = names := by
  induction names with
  | nil => rfl
  | cons n rest ih =>
    have tail := ih (fun x member => known x (List.mem_cons_of_mem n member))
    obtain ⟨v,found⟩ := Option.isSome_iff_exists.mp ((g.present n).mpr (known n List.mem_cons_self))
    have same := g.named n v found
    simp only [nodeInputs,List.filterMap_cons,found,Option.map_some,List.map_cons]
    exact congrArg₂ _ same tail

/- Distinct inputs survive deduplication as they are. -/
omit [Arith W] in
theorem dedupDistinct {nodes : List (NodeInput W)} (distinct : (nodes.map NodeInput.name).Nodup) :
    (dedupNodes nodes).entries.map Prod.snd = nodes := by
  have grows : ∀ (nodes : List (NodeInput W)) (m : IndexMap String (NodeInput W)),
      (nodes.map NodeInput.name).Nodup → (∀ n ∈ nodes, n.name ∉ m.keys) →
      ((nodes.foldl (fun m n => m.insert n.name n) m).entries.map Prod.snd) =
        m.entries.map Prod.snd ++ nodes := by
    intro nodes
    induction nodes with
    | nil => intro m _ _; simp
    | cons n rest ih =>
      intro m distinct fresh
      obtain ⟨apart,tail⟩ := List.nodup_cons.mp distinct
      have next := ih (m.insert n.name n) tail (fun x member known => by
        rcases (IndexMap.memKeysInsert m n.name x.name n).mp known with same | old
        · exact apart (same ▸ List.mem_map_of_mem member)
        · exact fresh x (List.mem_cons_of_mem n member) old)
      rw [List.foldl_cons,next,IndexMap.insertFresh m _ _ (fresh n List.mem_cons_self)]
      simp
  exact (grows nodes ∅ distinct (fun _ _ known => by cases known)).trans (List.nil_append _)

omit [Arith W] in
theorem sortedDistinct {nodes : List (NodeInput W)} (distinct : (nodes.map NodeInput.name).Nodup) :
    (sortedNodes nodes).Perm nodes := by
  rw [sortedNodes,dedupDistinct distinct]
  exact List.perm_insertionSort _ _

omit [Arith W] in
theorem lookupUnranked {g : OrpheusGraphInner W} (ok : g.Indexed) (n : String) (v : NodeInput W) :
    (g.getNode n).map NodeView.unranked = some v ↔
      (∃ nd ∈ g.graph.nodes, (NodeView.ofData nd).unranked = v) ∧ v.name = n := by
  rw [OrpheusGraphInner.getNode,OrpheusGraphInner.getIndex]
  constructor
  · intro found
    cases index : g.indexMap.get n with
    | none => simp [index] at found
    | some i =>
      obtain ⟨nd,read,same⟩ := Option.map_eq_some_iff.mp ((ok n i).mp index)
      simp only [index,Option.bind_eq_bind,Option.bind_some,read,Option.pure_def,Option.map_some,
        Option.some.injEq] at found
      exact ⟨⟨nd,List.mem_of_getElem? read,found⟩,by rw [← found]; exact same⟩
  · rintro ⟨⟨nd,member,same⟩,named⟩
    obtain ⟨i,read⟩ := List.mem_iff_getElem?.mp member
    have index : g.indexMap.get n = some i := by
      refine (ok n i).mpr ?_
      rw [read,← named,← same]
      rfl
    simp [index,read,same]

theorem builtUnranked (adjacency : Order) {nodes : List (NodeInput W)} (edges : List (EdgeInput W))
    (distinct : (nodes.map NodeInput.name).Nodup) (v : NodeInput W) :
    (∃ nd ∈ (buildGraphPrenormalized adjacency nodes edges).graph.nodes,
      (NodeView.ofData nd).unranked = v) ↔ v ∈ nodes := by
  have verbatim : (builtNodes nodes false).map (fun nd => (NodeView.ofData nd).unranked) =
      sortedNodes nodes := by
    rw [builtNodes,List.map_map]
    exact List.map_id _
  rw [← List.mem_map,List.mem_iff_getElem?,← (sortedDistinct distinct).mem_iff,← verbatim,
    List.mem_iff_getElem?]
  refine exists_congr (fun i => ?_)
  rw [List.getElem?_map,List.getElem?_map]
  exact Eq.congr_left (rankedFields _ _ i)

theorem builtLookup (adjacency : Order) {nodes : List (NodeInput W)} (edges : List (EdgeInput W))
    (distinct : (nodes.map NodeInput.name).Nodup) (n : String) (v : NodeInput W) :
    ((buildGraphPrenormalized adjacency nodes edges).getNode n).map NodeView.unranked = some v ↔
      v ∈ nodes ∧ v.name = n := by
  have ok : (buildGraphPrenormalized adjacency nodes edges).Indexed :=
    buildIndexed adjacency nodes edges false
  rw [lookupUnranked ok,builtUnranked adjacency edges distinct]

theorem builtMembers (adjacency : Order) {nodes : List (NodeInput W)} (edges : List (EdgeInput W))
    (distinct : (nodes.map NodeInput.name).Nodup) (n : String) :
    n ∈ (buildGraphPrenormalized adjacency nodes edges).names ↔ n ∈ nodes.map NodeInput.name := by
  have ok : (buildGraphPrenormalized adjacency nodes edges).Indexed :=
    buildIndexed adjacency nodes edges false
  rw [ok.known,List.mem_map,← Option.isSome_map (f := NodeView.unranked),Option.isSome_iff_exists]
  exact exists_congr (fun v => builtLookup adjacency edges distinct n v)

/- Every emitted edge resolves: its endpoints were emitted and its window is satisfiable. -/
theorem builtNamedEdges (adjacency : Order) {nodes : List (NodeInput W)} {edges : List (EdgeInput W)}
    (distinct : (nodes.map NodeInput.name).Nodup)
    (ends : ∀ e ∈ edges, e.fromName ∈ nodes.map NodeInput.name ∧ e.toName ∈ nodes.map NodeInput.name)
    (windows : ∀ e ∈ edges, emptyWindow e.validFrom e.validTo = false) :
    (buildGraphPrenormalized adjacency nodes edges).namedEdges =
      edges.map (fun e => (e.fromName,e.toName,builtEdge e)) := by
  have ok : (buildGraphPrenormalized adjacency nodes edges).Indexed :=
    buildIndexed adjacency nodes edges false
  have resolved : ∀ e ∈ edges, (resolveEdge (indexNodes (builtNodes nodes false)) e).map (fun x =>
      ((buildGraphPrenormalized adjacency nodes edges).nameAt x.1,
        (buildGraphPrenormalized adjacency nodes edges).nameAt x.2.1,x.2.2)) =
      some (e.fromName,e.toName,builtEdge e) := by
    intro e member
    obtain ⟨source,target⟩ := ends e member
    obtain ⟨i,fromIndex⟩ := (ok.numbered _).mp ((builtMembers adjacency edges distinct _).mpr source)
    obtain ⟨j,toIndex⟩ := (ok.numbered _).mp ((builtMembers adjacency edges distinct _).mpr target)
    have fromName := ok.nameOf fromIndex
    have toName := ok.nameOf toIndex
    change (indexNodes (builtNodes nodes false)).get e.fromName = some i at fromIndex
    change (indexNodes (builtNodes nodes false)).get e.toName = some j at toIndex
    simp [resolveEdge,fromIndex,toIndex,windows e member,fromName,toName]
  change (edges.filterMap (resolveEdge (indexNodes (builtNodes nodes false)))).map _ = _
  rw [List.map_filterMap,List.filterMap_congr resolved]
  exact List.filterMap_eq_map_iff_forall_eq_some.mpr (fun _ _ => rfl)

omit [Arith W] in
theorem emittedEdges (g : NamedGraph W) (canonical : g.toGraphAccessor.Canonical) (names : List String) :
    (edgeInputs g.toGraphAccessor names).map (fun e => (e.fromName,e.toName,builtEdge e)) =
      Mirror.edgesOf names g.outPairs := by
  rw [edgeInputs,List.map_flatMap,Mirror.edgesOf]
  refine List.flatMap_congr (fun f _ => ?_)
  rw [GraphAccessor.outPairs,List.map_map,List.map_map]
  refine List.map_congr_left (fun nb member => ?_)
  have fixed := (canonical f nb member).normalized
  simp only [Function.comp]
  change (f,nb.targetName,nb.edge.normalized) = (f,nb.targetName,nb.edge)
  rw [fixed]

theorem builtPresents (adjacency : Order) (g : NamedGraph W) (canonical : g.toGraphAccessor.Canonical)
    {names : List String} (distinct : names.Nodup) (exact : ∀ n, n ∈ names ↔ n ∈ g.names) :
    SameGraph ((buildGraphPrenormalized adjacency (nodeInputs g.toGraphAccessor names)
      (edgeInputs g.toGraphAccessor names)).accessor adjacency) g.toGraphAccessor := by
  have inputNames := nodeInputNames g (fun n member => (exact n).mp member)
  have inputDistinct := inputNames ▸ distinct
  have ok : (buildGraphPrenormalized adjacency (nodeInputs g.toGraphAccessor names)
      (edgeInputs g.toGraphAccessor names)).Indexed := buildIndexed adjacency _ _ false
  have ends : ∀ e ∈ edgeInputs g.toGraphAccessor names, e.fromName ∈ names ∧ e.toName ∈ names := by
    intro e member
    obtain ⟨f,source,listed⟩ := List.mem_flatMap.mp member
    obtain ⟨nb,neighbor,rfl⟩ := List.mem_map.mp listed
    exact ⟨source,(exact _).mpr (g.targetPresent neighbor)⟩
  have windows : ∀ e ∈ edgeInputs g.toGraphAccessor names,
      emptyWindow e.validFrom e.validTo = false := by
    intro e member
    obtain ⟨f,_,listed⟩ := List.mem_flatMap.mp member
    obtain ⟨nb,neighbor,rfl⟩ := List.mem_map.mp listed
    exact (canonical f nb neighbor).window
  have edges := builtNamedEdges adjacency inputDistinct (inputNames.symm ▸ ends) windows
  rw [emittedEdges g canonical] at edges
  refine SameGraph.ofOutgoing (OrpheusGraphInner.named adjacency _ ok) g ?_ ?_
  · intro n
    refine Option.ext (fun v => ?_)
    refine (builtLookup adjacency _ inputDistinct n v).trans ?_
    constructor
    · rintro ⟨member,rfl⟩
      obtain ⟨m,_,found⟩ := List.mem_filterMap.mp member
      obtain ⟨view,read,rfl⟩ := Option.map_eq_some_iff.mp found
      have same : view.unranked.name = m := g.named m view read
      rw [same,read]
      rfl
    · intro found
      obtain ⟨view,read,rfl⟩ := Option.map_eq_some_iff.mp found
      have present := (exact n).mpr ((g.present n).mp (by simp [read]))
      exact ⟨List.mem_filterMap.mpr ⟨n,present,found⟩,g.named n view read⟩
  · intro n
    have pairs := OrpheusGraphInner.outgoingListed ok adjacency n
    rw [edges,Mirror.outOfEdges distinct (fun v absent =>
      g.mirrored.absentOut v (mt (exact v).mpr absent))] at pairs
    exact pairs

/-! What `materialize` enumerates. -/
section enumerate
omit [Arith W]

theorem pushAll (names more : List String) (distinct : names.Nodup) :
    (more.foldl pushUnseen names).Nodup ∧ ∀ n, n ∈ more.foldl pushUnseen names ↔ n ∈ names ∨ n ∈ more := by
  induction more generalizing names with
  | nil => exact ⟨distinct,fun n => by simp⟩
  | cons m rest ih =>
    have pushed : (pushUnseen names m).Nodup := by
      unfold pushUnseen
      split
      · exact distinct
      · rename_i unseen
        exact List.nodup_append.mpr ⟨distinct,by simp,fun a left b right same => unseen (by
          rwa [← List.mem_singleton.mp right,← same])⟩
    obtain ⟨nodup,members⟩ := ih (pushUnseen names m) pushed
    refine ⟨nodup,fun n => ?_⟩
    rw [List.foldl_cons,members,List.mem_cons,pushUnseen]
    split
    · rename_i seen
      constructor
      · rintro (old | later)
        · exact .inl old
        · exact .inr (.inr later)
      · rintro (old | rfl | later)
        · exact .inl old
        · exact .inl seen
        · exact .inr later
    · simp [or_assoc]

theorem filterFold (skip : String → Prop) [DecidablePred skip] (names more : List String) :
    more.foldl (fun names n => if skip n then names else pushUnseen names n) names =
      (more.filter (fun n => ¬ skip n)).foldl pushUnseen names := by
  induction more generalizing names with
  | nil => rfl
  | cons m rest ih =>
    rw [List.foldl_cons,ih,List.filter_cons]
    split <;> rename_i h <;> simp [h]

theorem liveNamesExact {base : NamedGraph W} {h : List (Op W)} {d : GraphDelta W}
    (r : Represents base.toGraphAccessor h d) {names : List String} (listed : ∀ n, n ∈ names ↔ n ∈ base.names) :
    (liveNames names d).Nodup ∧ ∀ n, n ∈ liveNames names d ↔ n ∈ Merged.names base d := by
  have survivors := pushAll [] (names.filter (fun n =>
    ¬ (d.addedNodes.containsKey n = true ∨ n ∈ d.removedNodes))) List.nodup_nil
  rw [← filterFold] at survivors
  obtain ⟨distinct,members⟩ := survivors
  have added := pushAll _ d.addedNodes.keys distinct
  refine ⟨added.1,fun n => ?_⟩
  rw [liveNames,added.2,members,Merged.namesExact r,← r.presentIn]
  have inBase := base.present n
  have shadowed := d.addedNodes.containsKeyIff n
  simp only [List.not_mem_nil,List.mem_filter,listed,GraphDelta.presentIn,← shadowed,← inBase]
  grind

theorem materializeShape (base : GraphAccessor W) (names : List String) (d : GraphDelta W) :
    materialize base names d = (nodeInputs (deltaAccessor base d) (liveNames names d),
      edgeInputs (deltaAccessor base d) (liveNames names d)) := rfl

theorem mergedCanonical {base : NamedGraph W} {h : List (Op W)} {d : GraphDelta W}
    (canonical : base.toGraphAccessor.Canonical) (reached : Reached base.toGraphAccessor h d)
    (i : Indexed h d) : (deltaAccessor base.toGraphAccessor d).Canonical := by
  intro f v member
  rw [Merged.outgoingExact reached.represents i,historyOutgoing,List.mem_append] at member
  rcases member with old | fresh
  · exact canonical f v (List.mem_of_mem_filter old)
  · obtain ⟨s,survives,rfl⟩ := List.mem_map.mp fresh
    exact reached.survivorsCanonical s (List.mem_of_mem_filter survives)

end enumerate

/- Folding over any canonical named graph. -/
theorem foldNamed (adjacency : Order) {base : NamedGraph W} (canonical : base.toGraphAccessor.Canonical)
    {h : List (Op W)} {d : GraphDelta W} (reached : Reached base.toGraphAccessor h d)
    (room : edgeAdds h ≤ 2^32) {names : List String} (listed : ∀ n, n ∈ names ↔ n ∈ base.names) :
    SameGraph ((foldBase adjacency base.toGraphAccessor names d).accessor adjacency)
      (deltaAccessor base.toGraphAccessor d) := by
  have r := reached.represents
  have i := reached.indexed room
  obtain ⟨distinct,exact⟩ := liveNamesExact r listed
  exact builtPresents adjacency (Merged.graph r reached.counted i)
    (mergedCanonical canonical reached i) distinct exact

end Fold

/-! The bases a store can have. -/
inductive Produced (adjacency : Order) : OrpheusGraphInner W → Prop where
  | built (nodes : List (NodeInput W)) (edges : List (EdgeInput W)) :
      Produced adjacency (buildGraph adjacency nodes edges)
  | folded {base : OrpheusGraphInner W} {h : List (Op W)} {d : GraphDelta W} {names : List String}
      (earlier : Produced adjacency base) (reached : Reached (base.accessor adjacency) h d)
      (listed : names.Perm base.indexMap.keys) :
      Produced adjacency (foldBase adjacency (base.accessor adjacency) names d)

theorem Produced.fromBuilder {adjacency : Order} {base : OrpheusGraphInner W}
    (produced : Produced adjacency base) :
    ∃ nodes edges normalize, base = buildGraphInner adjacency nodes edges normalize := by
  cases produced with
  | built nodes edges => exact ⟨nodes,edges,true,rfl⟩
  | folded earlier reached listed => exact ⟨_,_,false,rfl⟩

theorem Produced.indexed {adjacency : Order} {base : OrpheusGraphInner W}
    (produced : Produced adjacency base) : base.Indexed := by
  obtain ⟨nodes,edges,normalize,rfl⟩ := produced.fromBuilder
  exact buildIndexed adjacency nodes edges normalize

theorem Produced.canonical {adjacency : Order} {base : OrpheusGraphInner W}
    (produced : Produced adjacency base) : (base.accessor adjacency).Canonical := by
  obtain ⟨nodes,edges,normalize,rfl⟩ := produced.fromBuilder
  exact buildCanonical adjacency nodes edges normalize

omit [Arith W] in
theorem indexKeys {g : OrpheusGraphInner W} (ok : g.Indexed) (n : String) :
    n ∈ g.indexMap.keys ↔ n ∈ g.names := by
  rw [ok.numbered,← IndexMap.containsKeyIff,IndexMap.containsKey,Option.isSome_iff_exists]

theorem foldAgrees {adjacency : Order} {base : OrpheusGraphInner W}
    (produced : Produced adjacency base) {h : List (Op W)} {d : GraphDelta W}
    (reached : Reached (base.accessor adjacency) h d) (room : edgeAdds h ≤ 2^32)
    {names : List String} (listed : names.Perm base.indexMap.keys) :
    SameGraph ((foldBase adjacency (base.accessor adjacency) names d).accessor adjacency)
      (deltaAccessor (base.accessor adjacency) d) := by
  have ok := produced.indexed
  have enumerated : ∀ n, n ∈ names ↔ n ∈ base.names :=
    fun n => listed.mem_iff.trans (indexKeys ok n)
  have canonical : (base.named adjacency ok).toGraphAccessor.Canonical := produced.canonical
  exact Fold.foldNamed adjacency canonical reached room enumerated

theorem foldIndexed (adjacency : Order) (base : GraphAccessor W) (names : List String)
    (d : GraphDelta W) : (foldBase adjacency base names d).Indexed := buildIndexed adjacency _ _ false

instance : Arith Unit := ⟨fun _ => (),fun _ _ => (),fun _ _ => (),fun _ _ => (),fun _ _ => (),
  fun _ _ => (),fun _ _ => false,fun _ => true,(),()⟩

def emptyBase : OrpheusGraphInner Unit := buildGraph .newestFirst [] []

theorem emptyBaseAccessor : emptyBase.accessor .newestFirst = NamedGraph.empty.toGraphAccessor := rfl

omit [Arith W] in
theorem sumOfNamed (g : NamedGraph W) {base : GraphAccessor W} {d : GraphDelta W}
    (same : SameGraph g.toGraphAccessor (deltaAccessor base d)) : edgeCountIsSum base d := by
  intro present exact
  have nodes : present = g.names.toFinset := by
    ext n
    rw [exact,← same.isSome,g.present,List.mem_toFinset]
  rw [nodes,List.sum_toFinset _ g.namesNodup,← same.edgeCount,g.countEdges]
  exact congrArg List.sum (List.map_congr_left (fun n _ => (same.outgoing n).length_eq))

end OrpheusGraph
