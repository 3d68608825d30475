import OrpheusGraph.Canonical
import OrpheusGraph.Epochs

/-! What a compaction writes depends on the graph alone: not on the base, the delta and the history it is held as,
nor on the orders of hash maps and adjacency lists. -/
namespace OrpheusGraph
open Storage Effects
variable {W : Type} [TotalCmp W]

/-! What a graph is built from. -/
section inputs
variable {W : Type} {a b : GraphAccessor W} {names names' : List String}

theorem nodeInputsPerm (same : SameGraph a b) (listed : names.Perm names') : (nodeInputs a names).Perm (nodeInputs b names') := by
  rw [nodeInputs,nodeInputs,funext same.nodes]
  exact listed.filterMap _

theorem edgeInputsPerm (same : SameGraph a b) (listed : names.Perm names') : (edgeInputs a names).Perm (edgeInputs b names') :=
  (listed.flatMap_right _).trans (.flatMap_left _ (fun n _ => (same.outgoing n).map _))

/- The names that are kept are those of the nodes that are shown. -/
theorem liveNamesPerm {base base' : NamedGraph W} {h h' : List (Op W)} {d d' : GraphDelta W} (r : Represents base.toGraphAccessor h d)
    (r' : Represents base'.toGraphAccessor h' d') (listed : ∀ n, n ∈ names ↔ n ∈ base.names) (listed' : ∀ n, n ∈ names' ↔ n ∈ base'.names)
    (same : SameGraph (deltaAccessor base.toGraphAccessor d) (deltaAccessor base'.toGraphAccessor d')) :
    (liveNames names d).Perm (liveNames names' d') := by
  obtain ⟨distinct,live⟩ := Fold.liveNamesExact r listed
  obtain ⟨distinct',live'⟩ := Fold.liveNamesExact r' listed'
  refine (List.perm_ext_iff_of_nodup distinct distinct').mpr (fun n => ?_)
  have shown := same.isSome n
  rw [Merged.getNodeExact r,Merged.getNodeExact r',← presentAfterNode,← presentAfterNode] at shown
  rw [live,live',Merged.namesExact r,Merged.namesExact r',shown]

end inputs

theorem archivePerm [ExactCmp W] {g g' : OrpheusGraphInner W} (nodes : g.graph.nodes = g'.graph.nodes)
    (edges : g.graph.edges.Perm g'.graph.edges) : archive g = archive g' := by
  have fits : g.Fits ↔ g'.Fits := by rw [OrpheusGraphInner.Fits,OrpheusGraphInner.Fits,nodes,edges.length_eq]
  rw [archive,archive,snapshotPerm fnv1a nodes edges]
  exact if_congr fits rfl rfl

variable [Arith W]

/- The archive shows neither the order of the inputs nor that of the neighbors PageRank goes through. -/
theorem archivedInputs [ExactCmp W] (adjacency adjacency' : Order) {nodes nodes' : List (NodeInput W)} {edges edges' : List (EdgeInput W)}
    (distinct : (nodes.map NodeInput.name).Nodup) (sameNodes : nodes.Perm nodes') (sameEdges : edges.Perm edges') (normalize : Bool) :
    archive (buildGraphInner adjacency nodes edges normalize) = archive (buildGraphInner adjacency' nodes' edges' normalize) := by
  have inserted : builtNodes nodes normalize = builtNodes nodes' normalize := by
    simp only [builtNodes,sortedNodesPerm distinct sameNodes]
  have resolved : (edges.filterMap (resolveEdge (indexNodes (builtNodes nodes normalize)))).Perm
      (edges'.filterMap (resolveEdge (indexNodes (builtNodes nodes' normalize)))) := by
    rw [inserted]
    exact sameEdges.filterMap _
  refine archivePerm ?_ resolved
  change (computePagerank adjacency _ Arith.damping 20).nodes = (computePagerank adjacency' _ Arith.damping 20).nodes
  exact rankedPerm inserted resolved adjacency adjacency' Arith.damping 20

section states
variable [ExactCmp W] {pk pk' : Packages W} {g g' : GraphState W} {sg : SerializableGraphV2 W}

theorem foldCanonical (proper : Proper pk g) (proper' : Proper pk' g') (room : g.delta.addedEdges.length ≤ 2^32)
    (same : SameGraph (g.view pk) (g'.view pk')) : archive (g.fold pk) = archive (g'.fold pk') := by
  obtain ⟨⟨base,shown,_,names⟩,h,reached⟩ := proper
  obtain ⟨⟨base',shown',_,names'⟩,h',reached'⟩ := proper'
  rw [GraphState.view,GraphState.view] at same
  rw [GraphState.fold,GraphState.fold]
  rw [← shown] at reached same ⊢
  rw [← shown'] at reached' same ⊢
  have r := reached.represents
  have listed := liveNamesPerm r reached'.represents names names' same
  obtain ⟨distinct,live⟩ := Fold.liveNamesExact r names
  have count := r.count
  have inputs := Fold.nodeInputNames (Merged.graph r reached.counted (reached.indexed (by omega))) (fun n member => (live n).mp member)
  exact archivedInputs pk.adjacency pk'.adjacency (inputs.symm ▸ distinct) (nodeInputsPerm same listed) (edgeInputsPerm same listed) false

/- A base that shows the same is written as the same. -/
theorem againCanonical {base : BaseGraph W} (proper : Proper pk g) (presents : Presents pk base)
    (same : SameGraph (base.asAccessor pk) (g.view pk)) (seq epoch : Nat) :
    archive ((⟨base,.new,seq,epoch⟩ : GraphState W).fold pk) = archive (g.fold pk) := by
  refine foldCanonical ⟨presents,[],.new⟩ proper (Nat.zero_le _) ?_
  rw [GraphState.view,emptyOverlay]
  exact same

end states

/-! A state that a run published, from the creation of its store on. -/
inductive Handed (pk : Packages W) (g : GraphState W) : Prop where
  | shown {faults : Faults W} {asked : List (Op W) → Prop} {st₀ st : Store W} (tame : Tame True faults) (fresh : faults.fresh)
      (created : Created pk st₀) (goes : Goes pk faults True asked st₀ st) (small : Small st.world)
      (member : g ∈ st.world.published.drop (st₀.world.published.length - 1)) : Handed pk g

theorem Handed.proper {pk : Packages W} {g : GraphState W} (lawful : pk.Lawful) (handed : Handed pk g) :
    Proper pk g ∧ g.delta.addedEdges.length ≤ 2^32 := by
  obtain ⟨tame,fresh,created,goes,small,member⟩ := handed
  obtain ⟨_,proper,_⟩ := publishedNames lawful tame fresh created goes small
  exact ⟨proper g member,small g (List.mem_of_mem_drop member)⟩

end OrpheusGraph
