import OrpheusGraph.Written

/-! The legacy snapshot: edges between node numbers, the view that reads it in place and
the owned rebuild. Whatever indexes without a check is an option, and `none` its panic. -/
namespace OrpheusGraph
variable {W : Type}

structure SerializableEdge (W : Type) where
  fromIdx : Nat
  toIdx : Nat
  kind : String
  fieldName : Option String
  baseWeight : W
  validFrom : Option Nat
  validTo : Option Nat
  acl : List String

structure SerializableGraph (W : Type) where
  nodes : List (NodeData W)
  edges : List (SerializableEdge W)

def SerializableEdge.data (e : SerializableEdge W) : EdgeData W :=
  ⟨e.kind,e.fieldName,e.baseWeight,e.validFrom,e.validTo,e.acl⟩

def SerializableEdge.ofData (fromIdx toIdx : Nat) (ed : EdgeData W) : SerializableEdge W :=
  ⟨fromIdx,toIdx,ed.kind,ed.fieldName,ed.baseWeight,ed.validFrom,ed.validTo,ed.acl⟩

def serializableEdge (inner : DiGraph W) (nameToIdx : IndexMap String Nat) (e : Nat × Nat × EdgeData W) :
    Option (SerializableEdge W) := do
  let source ← inner.nodes[e.1]?
  let target ← inner.nodes[e.2.1]?
  let i ← nameToIdx.get source.name
  let j ← nameToIdx.get target.name
  return .ofData (asU32 i) (asU32 j) e.2.2

def toRkyv (g : OrpheusGraphInner W) : Option (SerializableGraph W) := do
  let nameToIdx := indexNodes g.graph.nodes
  let edges ← g.graph.edges.mapM (serializableEdge g.graph nameToIdx)
  return ⟨g.graph.nodes,edges⟩

def fromRkyvRebuild (sg : SerializableGraph W) : OrpheusGraphInner W :=
  rebuildFromSerialized sg.nodes (sg.edges.map (fun e => (e.fromIdx,e.toIdx,e.data)))

structure ArchivedGraphView (W : Type) where
  archived : SerializableGraph W
  nameIndex : IndexMap String Nat

namespace ArchivedGraphView

def corruptEdge (i : Nat) (e : SerializableEdge W) (nodeCount : Nat) : String :=
  s!"corrupt snapshot: edge {i} references out-of-bounds node index (from_idx={e.fromIdx}, to_idx={e.toIdx}, node_count={nodeCount})"

def outOfBounds (nodeCount : Nat) (e : SerializableEdge W) : Bool :=
  nodeCount ≤ e.fromIdx || nodeCount ≤ e.toIdx

def fromBytes (archived : SerializableGraph W) : Except String (ArchivedGraphView W) :=
  let nodeCount := archived.nodes.length
  match archived.edges.zipIdx.find? (fun x => outOfBounds nodeCount x.1) with
  | some x => .error (corruptEdge x.2 x.1 nodeCount)
  | none => .ok ⟨archived,indexNodes archived.nodes⟩

def nodeCount (view : ArchivedGraphView W) : Nat := view.archived.nodes.length

def edgeCount (view : ArchivedGraphView W) : Nat := view.archived.edges.length

def getNode (view : ArchivedGraphView W) (name : String) : Option (Option (NodeView W)) :=
  match view.nameIndex.get name with
  | none => some none
  | some idx => (view.archived.nodes[idx]?).map (fun node => some (.ofData node))

/- Both directions filter by one end of an edge and read the node at the other. -/
def neighbors (near far : SerializableEdge W → Nat) (view : ArchivedGraphView W) (name : String) :
    Option (List (NeighborView W)) :=
  match view.nameIndex.get name with
  | none => some []
  | some idx => (view.archived.edges.filter (fun e => near e == asU32 idx)).mapM
      (fun e => (view.archived.nodes[far e]?).map (fun node => NeighborView.ofEdge node.name e.data))

def outgoingNeighbors (view : ArchivedGraphView W) (name : String) : Option (List (NeighborView W)) :=
  view.neighbors SerializableEdge.fromIdx SerializableEdge.toIdx name

def incomingNeighbors (view : ArchivedGraphView W) (name : String) : Option (List (NeighborView W)) :=
  view.neighbors SerializableEdge.toIdx SerializableEdge.fromIdx name

/- Every call returns, with the answer of the accessor. -/
structure Answers (view : ArchivedGraphView W) (a : GraphAccessor W) : Prop where
  nodeCount : view.nodeCount = a.nodeCount
  edgeCount : view.edgeCount = a.edgeCount
  getNode : ∀ name, view.getNode name = some (a.getNode name)
  outgoing : ∀ name, view.outgoingNeighbors name = some (a.outgoingNeighbors name)
  incoming : ∀ name, view.incomingNeighbors name = some (a.incomingNeighbors name)

end ArchivedGraphView

def SerializableGraph.InRange (sg : SerializableGraph W) : Prop :=
  ∀ e ∈ sg.edges, e.fromIdx < sg.nodes.length ∧ e.toIdx < sg.nodes.length

/-! The check at the load. -/
open ArchivedGraphView in
theorem fromBytesIff (sg : SerializableGraph W) (view : ArchivedGraphView W) :
    fromBytes sg = .ok view ↔ sg.InRange ∧ view = ⟨sg,indexNodes sg.nodes⟩ := by
  have bounds : ∀ e : SerializableEdge W, outOfBounds sg.nodes.length e = false ↔
      e.fromIdx < sg.nodes.length ∧ e.toIdx < sg.nodes.length := by
    intro e
    rw [ArchivedGraphView.outOfBounds,Bool.or_eq_false_iff,decide_eq_false_iff_not,decide_eq_false_iff_not,
      Nat.not_le,Nat.not_le]
  unfold fromBytes
  dsimp only
  cases bad : sg.edges.zipIdx.find? (fun x => outOfBounds sg.nodes.length x.1) with
  | some x =>
    refine iff_of_false (fun accepted => by cases accepted) ?_
    rintro ⟨ok,_⟩
    have listed : x.1 ∈ sg.edges := by
      have member := List.mem_map_of_mem (f := Prod.fst) (List.mem_of_find?_eq_some bad)
      rwa [List.zipIdx_map_fst] at member
    have out := List.find?_some bad
    rw [(bounds x.1).mpr (ok x.1 listed)] at out
    contradiction
  | none =>
    have ok : sg.InRange := by
      intro e listed
      obtain ⟨i,read⟩ := List.mem_iff_getElem?.mp listed
      have member : (e,i) ∈ sg.edges.zipIdx := List.mem_zipIdx_iff_getElem?.mpr read
      exact (bounds e).mp (by simpa using List.find?_eq_none.mp bad _ member)
    change Except.ok _ = Except.ok view ↔ _
    rw [Except.ok.injEq,and_iff_right ok]
    exact eq_comm

/- A rejection names an edge that points outside. -/
theorem fromBytesNames {sg : SerializableGraph W} {text : String}
    (rejected : ArchivedGraphView.fromBytes sg = .error text) : ∃ i e, sg.edges[i]? = some e ∧
      ArchivedGraphView.outOfBounds sg.nodes.length e = true ∧
      text = ArchivedGraphView.corruptEdge i e sg.nodes.length := by
  unfold ArchivedGraphView.fromBytes at rejected
  dsimp only at rejected
  split at rejected <;> try contradiction
  rename_i x bad
  have out := List.find?_some bad
  have read := List.mem_zipIdx_iff_getElem?.mp (List.mem_of_find?_eq_some bad)
  exact ⟨x.2,x.1,read,out,(Except.error.inj rejected).symm⟩

/- A recorded number is that of a node, also when names repeat. -/
theorem indexNodesInside {nodes : List (NodeData W)} {n : String} {i : Nat}
    (found : (indexNodes nodes).get n = some i) : ∃ nd, nodes[i]? = some nd := by
  have last := IndexMap.getFold (fun x : NodeData W × Nat => x.1.name) Prod.snd nodes.zipIdx ∅ n
  rw [IndexMap.getEmpty,Option.or_none] at last
  obtain ⟨x,stored,rfl⟩ := Option.map_eq_some_iff.mp (last.symm.trans found)
  have member := List.mem_of_mem_filter (List.mem_of_getLast? stored)
  exact ⟨x.1,List.mem_zipIdx_iff_getElem?.mp member⟩

theorem mapMTotal {α β : Type} {f : α → Option β} {xs : List α} (all : ∀ x ∈ xs, ∃ y, f x = some y) :
    xs.mapM f = some (xs.filterMap f) := by
  induction xs with
  | nil => rfl
  | cons x xs ih =>
    obtain ⟨y,read⟩ := all x List.mem_cons_self
    rw [List.mapM_cons,read,ih (fun z later => all z (List.mem_cons_of_mem x later)),List.filterMap_cons_some read]
    rfl

/-! What a view that was accepted answers. -/
section view
variable {sg : SerializableGraph W}

theorem SerializableGraph.InRange.rebuiltEdges (ok : sg.InRange) :
    (fromRkyvRebuild sg).graph.edges = sg.edges.map (fun e => (e.fromIdx,e.toIdx,e.data)) := by
  refine List.filter_eq_self.mpr (fun x member => ?_)
  obtain ⟨e,listed,rfl⟩ := List.mem_map.mp member
  simpa using ok e listed

theorem getNodeReads (sg : SerializableGraph W) (name : String) :
    ArchivedGraphView.getNode ⟨sg,indexNodes sg.nodes⟩ name = some ((fromRkyvRebuild sg).getNode name) := by
  have index : (fromRkyvRebuild sg).indexMap = indexNodes sg.nodes := rfl
  have nodes : (fromRkyvRebuild sg).graph.nodes = sg.nodes := rfl
  simp only [ArchivedGraphView.getNode,OrpheusGraphInner.getNode,OrpheusGraphInner.getIndex,index,nodes]
  cases found : (indexNodes sg.nodes).get name with
  | none => rfl
  | some i =>
    obtain ⟨nd,read⟩ := indexNodesInside found
    simp [read]

/- A row of the view is a row of the rebuilt graph, at any number below the truncation. -/
theorem neighborsRead (direction : Direction) {near far : SerializableEdge W → Nat}
    (nearEnd : ∀ e : SerializableEdge W, direction.near (e.fromIdx,e.toIdx,e.data) = near e)
    (farEnd : ∀ e : SerializableEdge W, direction.far (e.fromIdx,e.toIdx,e.data) = far e)
    (ok : sg.InRange) (inside : ∀ e ∈ sg.edges, far e < sg.nodes.length) (name : String) :
    ∃ listed, ArchivedGraphView.neighbors near far ⟨sg,indexNodes sg.nodes⟩ name = some listed ∧
      (sg.nodes.length ≤ u32Max →
        listed = (fromRkyvRebuild sg).graphNeighbors .insertion name direction) := by
  have index : (fromRkyvRebuild sg).indexMap = indexNodes sg.nodes := rfl
  have nodes : (fromRkyvRebuild sg).graph.nodes = sg.nodes := rfl
  simp only [ArchivedGraphView.neighbors,OrpheusGraphInner.graphNeighbors,index,nodes,ok.rebuiltEdges]
  cases found : (indexNodes sg.nodes).get name with
  | none => exact ⟨[],rfl,fun _ => rfl⟩
  | some i =>
    refine ⟨_,mapMTotal (fun e member => ?_),fun fits => ?_⟩
    · have read := List.getElem?_eq_getElem (inside e (List.mem_of_mem_filter member))
      exact ⟨_,by rw [read]; rfl⟩
    · obtain ⟨nd,read⟩ := indexNodesInside found
      have small : i ≤ u32Max := (List.getElem?_eq_some_iff.mp read).1.le.trans fits
      dsimp only [Order.insertion]
      rw [asU32Small small,List.filter_map,List.filterMap_map]
      simp only [Function.comp_def,nearEnd,farEnd]

theorem acceptedAnswers (ok : sg.InRange) (fits : sg.nodes.length ≤ u32Max) :
    ArchivedGraphView.Answers ⟨sg,indexNodes sg.nodes⟩ ((fromRkyvRebuild sg).accessor .insertion) where
  nodeCount := rfl
  edgeCount := by
    change sg.edges.length = (fromRkyvRebuild sg).graph.edges.length
    rw [ok.rebuiltEdges,List.length_map]
  getNode := getNodeReads sg
  outgoing name := by
    obtain ⟨listed,read,same⟩ := neighborsRead .outgoing (fun _ => rfl) (fun _ => rfl) ok
      (fun e member => (ok e member).2) name
    exact read.trans (congrArg some (same fits))
  incoming name := by
    obtain ⟨listed,read,same⟩ := neighborsRead .incoming (fun _ => rfl) (fun _ => rfl) ok
      (fun e member => (ok e member).1) name
    exact read.trans (congrArg some (same fits))

end view

/-! What the writer produces. -/
section writer

/- The same edges under the same numbers. -/
def numberedGraph (g : OrpheusGraphInner W) : SerializableGraph W :=
  ⟨g.graph.nodes,g.graph.edges.map (fun e => .ofData e.1 e.2.1 e.2.2)⟩

variable {g : OrpheusGraphInner W}

theorem toRkyvWrites (ok : g.Indexed) (fits : g.graph.nodes.length ≤ u32Max) :
    toRkyv g = some (numberedGraph g) := by
  have kept : ∀ {i : Nat}, i < g.graph.nodes.length → ∃ nd, g.graph.nodes[i]? = some nd ∧
      (indexNodes g.graph.nodes).get nd.name = some i ∧ asU32 i = i := by
    intro i inside
    refine ⟨g.graph.nodes[i],List.getElem?_eq_getElem inside,?_,asU32Small (inside.le.trans fits)⟩
    rw [indexNodesExact ok.distinct,List.getElem?_eq_getElem inside]
    rfl
  have listed : g.graph.edges.mapM (serializableEdge g.graph (indexNodes g.graph.nodes)) =
      some (g.graph.edges.map (fun e => .ofData e.1 e.2.1 e.2.2)) := by
    refine mapMSome (fun e member => ?_)
    obtain ⟨source,target⟩ := g.graph.inRange e member
    obtain ⟨nd,read,numbered,small⟩ := kept source
    obtain ⟨nd',read',numbered',small'⟩ := kept target
    simp only [serializableEdge,read,read',Option.bind_eq_bind,Option.bind_some,numbered,numbered',small,small']
    rfl
  rw [toRkyv]
  simp only [listed,Option.bind_eq_bind,Option.bind_some]
  rfl

theorem numberedInRange (g : OrpheusGraphInner W) : (numberedGraph g).InRange := by
  intro x member
  obtain ⟨e,listed,rfl⟩ := List.mem_map.mp member
  exact g.graph.inRange e listed

/- Rebuilding returns every node and edge at its place. -/
theorem legacyReturns (ok : g.Indexed) (adjacency adjacency' : Order) :
    Agrees ((fromRkyvRebuild (numberedGraph g)).accessor adjacency) (g.accessor adjacency') := by
  have indexed : (fromRkyvRebuild (numberedGraph g)).Indexed := rebuildIndexed ok.distinct _
  have names : (fromRkyvRebuild (numberedGraph g)).nameAt = g.nameAt := rfl
  have edges : (fromRkyvRebuild (numberedGraph g)).namedEdges = g.namedEdges := by
    rw [OrpheusGraphInner.namedEdges,OrpheusGraphInner.namedEdges,names,(numberedInRange g).rebuiltEdges,
      numberedGraph,List.map_map,List.map_map]
    rfl
  exact OrpheusGraphInner.agreesOfPerm indexed ok adjacency adjacency' (.refl _) (.of_eq edges)

end writer

theorem legacyAgrees (adjacency adjacency' : Order) :
    (∀ g : OrpheusGraphInner W, g.Indexed → g.graph.nodes.length ≤ u32Max →
      ∃ (sg : SerializableGraph W) (view : ArchivedGraphView W) (answers : GraphAccessor W),
        toRkyv g = some sg ∧ ArchivedGraphView.fromBytes sg = .ok view ∧ view.Answers answers ∧
        Agrees answers (g.accessor adjacency') ∧
        Agrees ((fromRkyvRebuild sg).accessor adjacency) (g.accessor adjacency')) ∧
    ∀ (sg : SerializableGraph W) (view : ArchivedGraphView W), ArchivedGraphView.fromBytes sg = .ok view →
      ∀ name, (view.getNode name).isSome = true ∧ (view.outgoingNeighbors name).isSome = true ∧
        (view.incomingNeighbors name).isSome = true := by
  refine ⟨fun g ok fits => ?_,fun sg view accepted name => ?_⟩
  · have range := numberedInRange g
    exact ⟨_,_,_,toRkyvWrites ok fits,(fromBytesIff _ _).mpr ⟨range,rfl⟩,acceptedAnswers range fits,
      legacyReturns ok .insertion adjacency',legacyReturns ok adjacency adjacency'⟩
  · obtain ⟨ok,rfl⟩ := (fromBytesIff sg view).mp accepted
    obtain ⟨targets,outgoing,_⟩ := neighborsRead .outgoing (fun _ => rfl) (fun _ => rfl) ok
      (fun e member => (ok e member).2) name
    obtain ⟨sources,incoming,_⟩ := neighborsRead .incoming (fun _ => rfl) (fun _ => rfl) ok
      (fun e member => (ok e member).1) name
    exact ⟨Option.isSome_of_eq_some (getNodeReads sg name),Option.isSome_of_eq_some outgoing,
      Option.isSome_of_eq_some incoming⟩

theorem tangledAgrees : ∃ sg view answers, toRkyv tangled = some sg ∧
    ArchivedGraphView.fromBytes sg = .ok view ∧ view.Answers answers ∧
    Agrees answers (tangled.accessor .newestFirst) ∧ (view.outgoingNeighbors "b").isSome = true := by
  obtain ⟨write,read⟩ := legacyAgrees (W := Unit) .insertion .newestFirst
  obtain ⟨sg,view,answers,written,accepted,told,agrees,_⟩ := write tangled (rebuildIndexed (by decide) _) (by decide)
  exact ⟨sg,view,answers,written,accepted,told,agrees,(read sg view accepted "b").2.1⟩

end OrpheusGraph
