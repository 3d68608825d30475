import OrpheusGraph.Types
import OrpheusGraph.Lib.Mirror

/-! The read interface every representation offers, and when two of them present the
same logical graph. PageRank is left out of that comparison: it is recomputed by every
build and no mutation rule reads it. -/
namespace OrpheusGraph
variable {W : Type}

structure NodeView (W : Type) where
  name : String
  kind : String
  baseWeight : W
  noisePenalty : W
  pagerankWeight : W
  metadata : Metadata

def NodeView.ofData (n : NodeData W) : NodeView W :=
  ⟨n.name,n.kind,n.baseWeight,n.noisePenalty,n.pagerankWeight,n.metadata⟩

/- Every field of a view except its PageRank. -/
def NodeView.unranked (v : NodeView W) : NodeInput W :=
  ⟨v.name,v.kind,v.metadata,v.baseWeight,v.noisePenalty⟩

structure NeighborView (W : Type) where
  targetName : String
  edgeKind : String
  fieldName : Option String
  edgeWeight : W
  validFrom : Option Nat
  validTo : Option Nat
  acl : List String
  deriving DecidableEq, Repr

def NeighborView.ofEdge (other : String) (e : EdgeData W) : NeighborView W :=
  ⟨other,e.kind,e.fieldName,e.baseWeight,e.validFrom,e.validTo,e.acl⟩

def NeighborView.edge (v : NeighborView W) : EdgeData W :=
  ⟨v.edgeKind,v.fieldName,v.edgeWeight,v.validFrom,v.validTo,v.acl⟩

def NeighborView.pair (v : NeighborView W) : String × EdgeData W := (v.targetName,v.edge)

@[simp] theorem edgeOfEdge (other : String) (e : EdgeData W) : (NeighborView.ofEdge other e).edge = e := rfl
@[simp] theorem targetOfEdge (other : String) (e : EdgeData W) :
    (NeighborView.ofEdge other e).targetName = other := rfl
@[simp] theorem kindOfEdge (other : String) (e : EdgeData W) :
    (NeighborView.ofEdge other e).edgeKind = e.kind := rfl
@[simp] theorem pairOfEdge (other : String) (e : EdgeData W) :
    (NeighborView.ofEdge other e).pair = (other,e) := rfl
@[simp] theorem pairTarget (v : NeighborView W) : v.pair.1 = v.targetName := rfl
@[simp] theorem pairEdge (v : NeighborView W) : v.pair.2 = v.edge := rfl
@[simp] theorem edgeKind (v : NeighborView W) : v.edge.kind = v.edgeKind := rfl
@[simp] theorem ofEdgePair (v : NeighborView W) : NeighborView.ofEdge v.targetName v.edge = v := rfl

structure GraphAccessor (W : Type) where
  nodeCount : Nat
  edgeCount : Nat
  getNode : String → Option (NodeView W)
  outgoingNeighbors : String → List (NeighborView W)
  incomingNeighbors : String → List (NeighborView W)

def GraphAccessor.outPairs (g : GraphAccessor W) (n : String) : List (String × EdgeData W) :=
  (g.outgoingNeighbors n).map NeighborView.pair

def GraphAccessor.incPairs (g : GraphAccessor W) (n : String) : List (String × EdgeData W) :=
  (g.incomingNeighbors n).map NeighborView.pair

theorem outgoingPairs (g : GraphAccessor W) (n : String) :
    (g.outPairs n).map (fun x => NeighborView.ofEdge x.1 x.2) = g.outgoingNeighbors n := by
  rw [GraphAccessor.outPairs,List.map_map]
  exact List.map_id _

theorem incomingPairs (g : GraphAccessor W) (n : String) :
    (g.incPairs n).map (fun x => NeighborView.ofEdge x.1 x.2) = g.incomingNeighbors n := by
  rw [GraphAccessor.incPairs,List.map_map]
  exact List.map_id _

/- A graph with distinct node names whose two adjacency directions mirror each other
and whose counts are those of its nodes and edges. -/
structure NamedGraph (W : Type) extends GraphAccessor W where
  names : List String
  present : ∀ n, (getNode n).isSome = true ↔ n ∈ names
  named : ∀ n v, getNode n = some v → v.name = n
  mirrored : Mirror.Mirrored names toGraphAccessor.outPairs toGraphAccessor.incPairs
  countNodes : nodeCount = names.length
  countEdges : edgeCount = (names.map (fun n => (outgoingNeighbors n).length)).sum

/- Every edge has a satisfiable validity window and a canonical ACL. -/
def GraphAccessor.Canonical (g : GraphAccessor W) : Prop :=
  ∀ n, ∀ v ∈ g.outgoingNeighbors n, v.edge.Canonical

structure SameGraph (a b : GraphAccessor W) : Prop where
  nodes : ∀ n, (a.getNode n).map NodeView.unranked = (b.getNode n).map NodeView.unranked
  nodeCount : a.nodeCount = b.nodeCount
  edgeCount : a.edgeCount = b.edgeCount
  outgoing : ∀ n, (a.outgoingNeighbors n).Perm (b.outgoingNeighbors n)
  incoming : ∀ n, (a.incomingNeighbors n).Perm (b.incomingNeighbors n)

theorem SameGraph.refl (a : GraphAccessor W) : SameGraph a a :=
  ⟨fun _ => rfl,rfl,rfl,fun _ => .refl _,fun _ => .refl _⟩

theorem SameGraph.symm {a b : GraphAccessor W} (h : SameGraph a b) : SameGraph b a :=
  ⟨fun n => (h.nodes n).symm,h.nodeCount.symm,h.edgeCount.symm,
    fun n => (h.outgoing n).symm,fun n => (h.incoming n).symm⟩

theorem SameGraph.trans {a b c : GraphAccessor W} (h : SameGraph a b) (k : SameGraph b c) :
    SameGraph a c :=
  ⟨fun n => (h.nodes n).trans (k.nodes n),h.nodeCount.trans k.nodeCount,
    h.edgeCount.trans k.edgeCount,fun n => (h.outgoing n).trans (k.outgoing n),
    fun n => (h.incoming n).trans (k.incoming n)⟩

theorem SameGraph.isSome {a b : GraphAccessor W} (h : SameGraph a b) (n : String) :
    (a.getNode n).isSome = (b.getNode n).isSome := by
  simpa using congrArg Option.isSome (h.nodes n)

theorem SameGraph.canonical {a b : GraphAccessor W} (h : SameGraph a b) (ok : a.Canonical) :
    b.Canonical := fun n v member => ok n v ((h.outgoing n).mem_iff.mpr member)

/- Same graph, PageRank included. -/
structure Agrees (a b : GraphAccessor W) : Prop where
  nodes : ∀ n, a.getNode n = b.getNode n
  nodeCount : a.nodeCount = b.nodeCount
  edgeCount : a.edgeCount = b.edgeCount
  outgoing : ∀ n, (a.outgoingNeighbors n).Perm (b.outgoingNeighbors n)
  incoming : ∀ n, (a.incomingNeighbors n).Perm (b.incomingNeighbors n)

theorem Agrees.same {a b : GraphAccessor W} (h : Agrees a b) : SameGraph a b :=
  ⟨fun n => congrArg _ (h.nodes n),h.nodeCount,h.edgeCount,h.outgoing,h.incoming⟩

theorem Agrees.symm {a b : GraphAccessor W} (h : Agrees a b) : Agrees b a :=
  ⟨fun n => (h.nodes n).symm,h.nodeCount.symm,h.edgeCount.symm,
    fun n => (h.outgoing n).symm,fun n => (h.incoming n).symm⟩

theorem Agrees.trans {a b c : GraphAccessor W} (h : Agrees a b) (k : Agrees b c) : Agrees a c :=
  ⟨fun n => (h.nodes n).trans (k.nodes n),h.nodeCount.trans k.nodeCount,
    h.edgeCount.trans k.edgeCount,fun n => (h.outgoing n).trans (k.outgoing n),
    fun n => (h.incoming n).trans (k.incoming n)⟩

theorem NamedGraph.namesNodup (g : NamedGraph W) : g.names.Nodup := g.mirrored.distinct

theorem NamedGraph.outgoingAbsent (g : NamedGraph W) {n : String} (absent : n ∉ g.names) :
    g.outgoingNeighbors n = [] := by
  simpa [GraphAccessor.outPairs] using g.mirrored.absentOut n absent

theorem NamedGraph.incomingAbsent (g : NamedGraph W) {n : String} (absent : n ∉ g.names) :
    g.incomingNeighbors n = [] := by
  simpa [GraphAccessor.incPairs] using g.mirrored.absentInc n absent

theorem NamedGraph.sourcePresent (g : NamedGraph W) {n : String} {v : NeighborView W}
    (member : v ∈ g.outgoingNeighbors n) : n ∈ g.names := by
  by_contra absent
  simp [g.outgoingAbsent absent] at member

theorem NamedGraph.targetPresent (g : NamedGraph W) {n : String} {v : NeighborView W}
    (member : v ∈ g.outgoingNeighbors n) : v.targetName ∈ g.names :=
  g.mirrored.targets n v.pair (List.mem_map.mpr ⟨v,member,rfl⟩)

theorem NamedGraph.sourceListed (g : NamedGraph W) {n : String} {v : NeighborView W}
    (member : v ∈ g.incomingNeighbors n) : v.targetName ∈ g.names :=
  g.mirrored.sources n v.pair (List.mem_map.mpr ⟨v,member,rfl⟩)

/- The number of edges in terms of the adjacency library. -/
theorem NamedGraph.edgeCountAll (g : NamedGraph W) :
    g.edgeCount = Mirror.countEdges g.names g.outPairs (fun _ _ _ => true) := by
  rw [g.countEdges]
  simp [Mirror.countEdges,GraphAccessor.outPairs]

/- Two named graphs are the same once their nodes and their outgoing edges are: the
incoming edges mirror those, and the counts follow. -/
theorem SameGraph.ofOutgoing (a b : NamedGraph W)
    (nodes : ∀ n, (a.getNode n).map NodeView.unranked = (b.getNode n).map NodeView.unranked)
    (outgoing : ∀ n, (a.outPairs n).Perm (b.outPairs n)) :
    SameGraph a.toGraphAccessor b.toGraphAccessor := by
  have members : ∀ n, n ∈ a.names ↔ n ∈ b.names := by
    intro n
    have present := congrArg Option.isSome (nodes n)
    rw [Option.isSome_map,Option.isSome_map] at present
    rw [← a.present,← b.present,present]
  have names := (List.perm_ext_iff_of_nodup a.namesNodup b.namesNodup).mpr members
  refine ⟨nodes,?_,?_,?_,?_⟩
  · rw [a.countNodes,b.countNodes,names.length_eq]
  · have lengths : ∀ n, (a.outgoingNeighbors n).length = (b.outgoingNeighbors n).length := by
      intro n
      have count := (outgoing n).length_eq
      rwa [GraphAccessor.outPairs,GraphAccessor.outPairs,List.length_map,List.length_map] at count
    simp only [a.countEdges,b.countEdges,lengths]
    exact (names.map _).sum_eq
  · intro n
    rw [← outgoingPairs,← outgoingPairs]
    exact (outgoing n).map _
  · intro t
    have left := a.mirrored.incOfEdges a.namesNodup (fun _ member => member) t
    have right := b.mirrored.incOfEdges a.namesNodup (fun n member => (members n).mpr member) t
    have edges : (Mirror.edgesOf a.names a.outPairs).Perm (Mirror.edgesOf a.names b.outPairs) :=
      List.Perm.flatMap_left _ (fun n _ => (outgoing n).map _)
    rw [← incomingPairs,← incomingPairs]
    exact (left.symm.trans (((edges.filter _).map _).trans right)).map _

def NamedGraph.empty : NamedGraph W where
  nodeCount := 0
  edgeCount := 0
  getNode _ := none
  outgoingNeighbors _ := []
  incomingNeighbors _ := []
  names := []
  present _ := by simp
  named _ _ found := by simp at found
  mirrored := Mirror.ofList List.nodup_nil [] (by simp)
  countNodes := rfl
  countEdges := rfl

end OrpheusGraph
