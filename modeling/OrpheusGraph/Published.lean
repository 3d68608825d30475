import OrpheusGraph.Store

/-! What readers see of a published state, the bases that are graphs, and what a compaction
puts in the place of one. -/
namespace OrpheusGraph
variable {W : Type}

/- An empty delta hides nothing and adds nothing. -/
theorem emptyOverlay (base : GraphAccessor W) : deltaAccessor base .new = base := by
  have none_there : (GraphDelta.new : GraphDelta W).isEmpty = true := rfl
  have nodes : DeltaAccessor.getNode base .new = base.getNode := by
    funext n
    rw [← show (deltaAccessor base .new).getNode n = DeltaAccessor.getNode base .new n from rfl,Merged.getNodeShape]
    simp [GraphDelta.new]
  have outgoing : DeltaAccessor.outgoingNeighbors base .new = base.outgoingNeighbors :=
    funext (fun _ => if_pos none_there)
  have incoming : DeltaAccessor.incomingNeighbors base .new = base.incomingNeighbors :=
    funext (fun _ => if_pos none_there)
  rw [deltaAccessor,nodes,outgoing,incoming]
  rfl

/- What presents a named graph is one. -/
def NamedGraph.presentedBy (g : NamedGraph W) {a : GraphAccessor W} (same : Agrees a g.toGraphAccessor) :
    NamedGraph W where
  toGraphAccessor := a
  names := g.names
  present n := by rw [same.nodes,g.present]
  named n v found := g.named n v (same.nodes n ▸ found)
  mirrored := g.mirrored.reorder (fun n => (same.outgoing n).map _) (fun n => (same.incoming n).map _)
  countNodes := same.nodeCount.trans g.countNodes
  countEdges := by
    rw [same.edgeCount,g.countEdges]
    exact congrArg List.sum (List.map_congr_left (fun n _ => (same.outgoing n).length_eq.symm))

namespace GraphState

def view (pk : Packages W) (g : GraphState W) : GraphAccessor W := deltaAccessor (g.base.asAccessor pk) g.delta

def fold [Arith W] (pk : Packages W) (g : GraphState W) : OrpheusGraphInner W :=
  foldBase pk.adjacency (g.base.asAccessor pk) (g.base.nodeNames pk) g.delta

end GraphState

/- A base that is a graph, and lists its nodes. -/
def Presents (pk : Packages W) (base : BaseGraph W) : Prop :=
  ∃ g : NamedGraph W, g.toGraphAccessor = base.asAccessor pk ∧ g.toGraphAccessor.Canonical ∧
    ∀ n, n ∈ base.nodeNames pk ↔ n ∈ g.names

/- A state that accepted operations lead to. -/
structure Proper (pk : Packages W) (g : GraphState W) : Prop where
  base : Presents pk g.base
  delta : ∃ h, Reached (g.base.asAccessor pk) h g.delta

theorem ownedPresents {pk : Packages W} {g : OrpheusGraphInner W} (ok : g.Indexed)
    (canonical : (g.accessor pk.adjacency).Canonical) : Presents pk (.owned g) := by
  refine ⟨g.named pk.adjacency ok,rfl,canonical,fun n => ?_⟩
  change n ∈ pk.keys.arrange g.indexMap.keys ↔ n ∈ g.names
  rw [(pk.keys.perm _).mem_iff,indexKeys ok]

section archive
variable [TotalCmp W] {pk : Packages W} {g : OrpheusGraphInner W} {sg : SerializableGraphV2 W}

theorem archiveFits (archived : archive g = some sg) : g.Fits ∧ toRkyvV2 fnv1a g = some sg := by
  unfold archive at archived
  split at archived
  · exact ⟨by assumption,archived⟩
  · contradiction

theorem archiveSome (ok : g.Indexed) (fits : g.Fits) : ∃ sg, archive g = some sg := by
  obtain ⟨buckets,_,written⟩ := writes fnv1a ok.distinct fits.1 fits.2
  exact ⟨_,by rw [archive,if_pos fits,written]⟩

theorem archivedWellFormed (ok : g.Indexed) (archived : archive g = some sg) : sg.WellFormed fnv1a := by
  obtain ⟨fits,written⟩ := archiveFits archived
  obtain ⟨buckets,built,same⟩ := writes fnv1a ok.distinct fits.1 fits.2
  cases Option.some.inj (written.symm.trans same)
  exact snapshotWellFormed ok.distinct fits.1 built

/- An archive presents the graph it was made of. -/
theorem archivedAgrees (ok : g.Indexed) (archived : archive g = some sg) (adjacency : Order) :
    Agrees (sg.archivedCsrView fnv1a) (g.accessor adjacency) ∧ sg.nodeNames.Perm g.names := by
  have wf := archivedWellFormed ok archived
  obtain ⟨fits,written⟩ := archiveFits archived
  obtain ⟨buckets,built,same⟩ := writes fnv1a ok.distinct fits.1 fits.2
  cases Option.some.inj (written.symm.trans same)
  refine ⟨(wf.agreesRebuilt adjacency).trans (rebuildReturns ok wf adjacency adjacency),?_⟩
  have names : (snapshot g buckets).nodeNames = (namedNodes g).map NodeData.name := by
    rw [SerializableGraphV2.nodeNames,snapshot,List.map_map]
    rfl
  rw [names]
  exact (namedNodesPerm g).map _

theorem archivedPresents (ok : g.Indexed) (canonical : (g.accessor pk.adjacency).Canonical)
    (archived : archive g = some sg) : Presents pk (.archived sg) := by
  obtain ⟨same,names⟩ := archivedAgrees ok archived pk.adjacency
  refine ⟨(g.named pk.adjacency ok).presentedBy same,rfl,?_,fun n => names.mem_iff⟩
  exact fun n v member => canonical n v ((same.outgoing n).mem_iff.mp member)

variable [Arith W]

/- The base that a compaction goes on with: the fold itself, or its archive. -/
inductive Refolds (pk : Packages W) (g : GraphState W) : BaseGraph W → Prop where
  | owned : Refolds pk g (.owned (g.fold pk))
  | archived {sg : SerializableGraphV2 W} (written : archive (g.fold pk) = some sg) : Refolds pk g (.archived sg)

variable {state : GraphState W} {base : BaseGraph W}

omit [TotalCmp W] in
theorem foldSound (pk : Packages W) (state : GraphState W) :
    (state.fold pk).Indexed ∧ ((state.fold pk).accessor pk.adjacency).Canonical :=
  ⟨foldIndexed _ _ _ _,buildCanonical _ _ _ _⟩

theorem Refolds.presents (refolds : Refolds pk state base) : Presents pk base := by
  obtain ⟨ok,canonical⟩ := foldSound pk state
  cases refolds with
  | owned => exact ownedPresents ok canonical
  | archived written => exact archivedPresents ok canonical written

theorem Refolds.agrees (refolds : Refolds pk state base) :
    Agrees (base.asAccessor pk) ((state.fold pk).accessor pk.adjacency) := by
  cases refolds with
  | owned => exact ⟨fun _ => rfl,rfl,rfl,fun _ => .refl _,fun _ => .refl _⟩
  | archived written => exact (archivedAgrees (foldSound pk state).1 written pk.adjacency).1

/- Within the range of the delta's positions and of the numbers of a built graph. -/
structure Roomy (pk : Packages W) (g : GraphState W) : Prop where
  delta : g.delta.addedEdges.length ≤ 2^32
  nodes : (g.view pk).nodeCount ≤ u32Max
  edges : (g.view pk).edgeCount ≤ u32Max

omit [TotalCmp W] in
theorem Proper.foldSame (proper : Proper pk state) (room : state.delta.addedEdges.length ≤ 2^32) :
    SameGraph ((state.fold pk).accessor pk.adjacency) (state.view pk) := by
  obtain ⟨⟨g,same,canonical,names⟩,h,reached⟩ := proper
  have count := reached.represents.count
  rw [GraphState.fold,GraphState.view]
  rw [← same] at reached ⊢
  exact Fold.foldNamed pk.adjacency canonical reached (by omega) names

theorem Proper.refoldSame (proper : Proper pk state) (room : state.delta.addedEdges.length ≤ 2^32)
    (refolds : Refolds pk state base) (seq epoch : Nat) :
    SameGraph ((⟨base,.new,seq,epoch⟩ : GraphState W).view pk) (state.view pk) := by
  rw [GraphState.view,emptyOverlay]
  exact refolds.agrees.same.trans (proper.foldSame room)

theorem Proper.archives (proper : Proper pk state) (room : Roomy pk state) : ∃ sg, archive (state.fold pk) = some sg := by
  have same := proper.foldSame room.delta
  refine archiveSome (foldSound pk state).1 ⟨?_,?_⟩
  · exact same.nodeCount.trans_le room.nodes
  · exact same.edgeCount.trans_le room.edges

end archive
end OrpheusGraph
