import OrpheusGraph.Accessor
import OrpheusGraph.Lib.IndexMap

/-! The owned graph: numbered nodes, edges between numbers, and a map from names to
numbers. The order in which a node's edges are listed belongs to the graph package and
the order of a hash map's keys to the standard library, so both are left open. -/
namespace OrpheusGraph
variable {W : Type}

structure Order where
  arrange : {α : Type} → List α → List α
  perm : ∀ {α : Type} (l : List α), (arrange l).Perm l

def Order.insertion : Order := ⟨fun l => l,fun _ => .refl _⟩
def Order.newestFirst : Order := ⟨fun l => l.reverse,List.reverse_perm⟩

structure DiGraph (W : Type) where
  nodes : List (NodeData W)
  edges : List (Nat × Nat × EdgeData W)
  inRange : ∀ e ∈ edges, e.1 < nodes.length ∧ e.2.1 < nodes.length

structure OrpheusGraphInner (W : Type) where
  graph : DiGraph W
  indexMap : IndexMap String Nat

inductive Direction where
  | outgoing
  | incoming
  deriving DecidableEq, Repr

def Direction.near : Direction → Nat × Nat × EdgeData W → Nat
  | .outgoing, e => e.1
  | .incoming, e => e.2.1

def Direction.far : Direction → Nat × Nat × EdgeData W → Nat
  | .outgoing, e => e.2.1
  | .incoming, e => e.1

namespace OrpheusGraphInner

def getIndex (g : OrpheusGraphInner W) (name : String) : Option Nat := g.indexMap.get name

def getNode (g : OrpheusGraphInner W) (name : String) : Option (NodeView W) := do
  let i ← g.getIndex name
  let nd ← g.graph.nodes[i]?
  return NodeView.ofData nd

def graphNeighbors (adjacency : Order) (g : OrpheusGraphInner W) (name : String)
    (direction : Direction) : List (NeighborView W) :=
  match g.indexMap.get name with
  | none => []
  | some i => (adjacency.arrange (g.graph.edges.filter (fun e => direction.near e == i))).filterMap
      (fun e => (g.graph.nodes[direction.far e]?).map (fun other => NeighborView.ofEdge other.name e.2.2))

def accessor (adjacency : Order) (g : OrpheusGraphInner W) : GraphAccessor W where
  nodeCount := g.graph.nodes.length
  edgeCount := g.graph.edges.length
  getNode := g.getNode
  outgoingNeighbors name := g.graphNeighbors adjacency name .outgoing
  incomingNeighbors name := g.graphNeighbors adjacency name .incoming

end OrpheusGraphInner

/- Record each node under its name. A repeated name keeps the last number. -/
def indexNodes (nodes : List (NodeData W)) : IndexMap String Nat :=
  nodes.zipIdx.foldl (fun m x => m.insert x.1.name x.2) ∅

/- No normalization and no PageRank: edges that point outside the node list are dropped. -/
def rebuildFromSerialized (nodes : List (NodeData W)) (edges : List (Nat × Nat × EdgeData W)) :
    OrpheusGraphInner W where
  graph := ⟨nodes,edges.filter (fun e => e.1 < nodes.length && e.2.1 < nodes.length),
    fun e member => by simpa using (List.mem_filter.mp member).2⟩
  indexMap := indexNodes nodes

/-! The map and the node list describe each other exactly when names are distinct. -/
def OrpheusGraphInner.Indexed (g : OrpheusGraphInner W) : Prop :=
  ∀ n i, g.indexMap.get n = some i ↔ (g.graph.nodes[i]?).map NodeData.name = some n

theorem indexNodesFrom {nodes : List (NodeData W)} (distinct : (nodes.map NodeData.name).Nodup)
    (start : Nat) (m : IndexMap String Nat) (n : String) (i : Nat) :
    ((nodes.zipIdx start).foldl (fun m x => m.insert x.1.name x.2) m).get n = some i ↔
      (∃ k, i = start + k ∧ (nodes[k]?).map NodeData.name = some n) ∨
        (n ∉ nodes.map NodeData.name ∧ m.get n = some i) := by
  induction nodes generalizing start m with
  | nil => simp
  | cons nd rest ih =>
    obtain ⟨fresh,tail⟩ := List.nodup_cons.mp distinct
    have shift : (∃ k, i = start + k ∧ ((nd :: rest)[k]?).map NodeData.name = some n) ↔
        (i = start ∧ nd.name = n) ∨
          ∃ k, i = start + 1 + k ∧ (rest[k]?).map NodeData.name = some n := by
      constructor
      · rintro ⟨k,rfl,found⟩
        cases k with
        | zero => exact .inl ⟨rfl,by simpa using found⟩
        | succ k => exact .inr ⟨k,by omega,by simpa using found⟩
      · rintro (⟨rfl,same⟩ | ⟨k,rfl,found⟩)
        · exact ⟨0,rfl,by simp [same]⟩
        · exact ⟨k+1,by omega,by simpa using found⟩
    rw [List.zipIdx_cons,List.foldl_cons,ih tail,shift,IndexMap.getInsert,List.map_cons,List.mem_cons]
    cases decEq n nd.name with
    | isTrue same =>
      subst same
      simp only [fresh,not_false_eq_true,if_true,Option.some.injEq,true_and,not_true,
        false_and,or_false,and_true]
      rw [or_comm,eq_comm]
    | isFalse other => simp [other,Ne.symm other]

theorem indexNodesExact {nodes : List (NodeData W)} (distinct : (nodes.map NodeData.name).Nodup)
    (n : String) (i : Nat) :
    (indexNodes nodes).get n = some i ↔ (nodes[i]?).map NodeData.name = some n := by
  rw [indexNodes,indexNodesFrom distinct]
  simp

theorem rebuildIndexed {nodes : List (NodeData W)} (distinct : (nodes.map NodeData.name).Nodup)
    (edges : List (Nat × Nat × EdgeData W)) : (rebuildFromSerialized nodes edges).Indexed :=
  indexNodesExact distinct

namespace OrpheusGraphInner
variable {g : OrpheusGraphInner W}

def names (g : OrpheusGraphInner W) : List String := g.graph.nodes.map NodeData.name

theorem Indexed.distinct (ok : g.Indexed) : g.names.Nodup := by
  refine List.nodup_iff_getElem?_ne_getElem?.mpr (fun i j before inside same => ?_)
  have bound : i < g.graph.nodes.length := by simp [names] at inside; omega
  have left : (g.graph.nodes[i]?).map NodeData.name = some (g.graph.nodes[i].name) := by
    simp [List.getElem?_eq_getElem bound]
  have right : (g.graph.nodes[j]?).map NodeData.name = some (g.graph.nodes[i].name) := by
    simpa [names,List.getElem?_eq_getElem bound] using same.symm
  have first := (ok _ i).mpr left
  rw [(ok _ j).mpr right] at first
  cases Option.some.inj first
  exact Nat.lt_irrefl _ before

/- The edges between names. -/
def nameAt (g : OrpheusGraphInner W) (i : Nat) : String :=
  ((g.graph.nodes[i]?).map NodeData.name).getD ""

def namedEdges (g : OrpheusGraphInner W) : List (String × String × EdgeData W) :=
  g.graph.edges.map (fun e => (g.nameAt e.1,g.nameAt e.2.1,e.2.2))

theorem nodeAt {i : Nat} (inside : i < g.graph.nodes.length) :
    (g.graph.nodes[i]?).map NodeData.name = some (g.nameAt i) := by
  simp [nameAt,List.getElem?_eq_getElem inside]

theorem nameAtMember {i : Nat} (inside : i < g.graph.nodes.length) : g.nameAt i ∈ g.names := by
  have found := nodeAt inside
  rw [← List.getElem?_map] at found
  exact List.mem_of_getElem? found

theorem namedEnds (g : OrpheusGraphInner W) :
    ∀ s ∈ g.namedEdges, s.1 ∈ g.names ∧ s.2.1 ∈ g.names := by
  intro s member
  obtain ⟨e,listed,rfl⟩ := List.mem_map.mp member
  obtain ⟨source,target⟩ := g.graph.inRange e listed
  exact ⟨nameAtMember source,nameAtMember target⟩

theorem Indexed.numbered (ok : g.Indexed) (n : String) :
    n ∈ g.names ↔ ∃ i, g.indexMap.get n = some i := by
  rw [names,List.mem_iff_getElem?]
  refine exists_congr (fun i => ?_)
  rw [List.getElem?_map,ok]

theorem Indexed.known (ok : g.Indexed) (n : String) : n ∈ g.names ↔ (g.getNode n).isSome = true := by
  rw [ok.numbered,getNode,getIndex]
  constructor
  · rintro ⟨i,found⟩
    obtain ⟨nd,read,_⟩ := Option.map_eq_some_iff.mp ((ok n i).mp found)
    simp [found,read]
  · intro present
    cases found : g.indexMap.get n with
    | none => simp [found] at present
    | some i => exact ⟨i,rfl⟩

theorem Indexed.nameOf (ok : g.Indexed) {n : String} {i : Nat} (found : g.indexMap.get n = some i) :
    g.nameAt i = n := by
  rw [nameAt,(ok n i).mp found]
  rfl

theorem Indexed.getNodeNamed (ok : g.Indexed) (n : String) (v : NodeView W)
    (found : g.getNode n = some v) : v.name = n := by
  rw [getNode,getIndex] at found
  cases index : g.indexMap.get n with
  | none => simp [index] at found
  | some i =>
    obtain ⟨nd,read,same⟩ := Option.map_eq_some_iff.mp ((ok n i).mp index)
    simp only [index,Option.bind_eq_bind,Option.bind_some,read,Option.pure_def,
      Option.some.injEq] at found
    rw [← found,← same]
    rfl

/- Both directions list the named edges at a name, in some order. -/
theorem neighborsListed (ok : g.Indexed) (adjacency : Order) (n : String) (direction : Direction) :
    ((g.graphNeighbors adjacency n direction).map NeighborView.pair).Perm
      ((g.graph.edges.filter (fun e => g.nameAt (direction.near e) = n)).map
        (fun e => (g.nameAt (direction.far e),e.2.2))) := by
  have inside : ∀ e ∈ g.graph.edges, direction.near e < g.graph.nodes.length ∧
      direction.far e < g.graph.nodes.length := by
    intro e member
    obtain ⟨source,target⟩ := g.graph.inRange e member
    cases direction with
    | outgoing => exact ⟨source,target⟩
    | incoming => exact ⟨target,source⟩
  have near : ∀ e ∈ g.graph.edges, ∀ i, g.indexMap.get n = some i →
      (g.nameAt (direction.near e) = n ↔ direction.near e = i) := by
    intro e member i index
    have found := nodeAt (inside e member).1
    constructor
    · intro same
      rw [same] at found
      exact Option.some.inj (((ok n _).mpr found).symm.trans index)
    · intro same
      rw [same] at found
      rw [same]
      exact Option.some.inj (found.symm.trans ((ok n i).mp index))
  unfold graphNeighbors
  cases index : g.indexMap.get n with
  | none =>
    have none : g.graph.edges.filter (fun e => g.nameAt (direction.near e) = n) = [] := by
      refine List.filter_eq_nil_iff.mpr (fun e member same => ?_)
      have found := nodeAt (inside e member).1
      rw [of_decide_eq_true same] at found
      simp [(ok n _).mpr found] at index
    simp [none]
  | some i =>
    have chosen : g.graph.edges.filter (fun e => direction.near e == i) =
        g.graph.edges.filter (fun e => g.nameAt (direction.near e) = n) := by
      refine List.filter_congr (fun e member => ?_)
      have iff := near e member i index
      simp only [Bool.beq_eq_decide_eq,iff]
    have read : ∀ es : List (Nat × Nat × EdgeData W), (∀ e ∈ es, e ∈ g.graph.edges) →
        (es.filterMap (fun e => (g.graph.nodes[direction.far e]?).map
          (fun other => NeighborView.ofEdge other.name e.2.2))).map NeighborView.pair =
        es.map (fun e => (g.nameAt (direction.far e),e.2.2)) := by
      intro es members
      induction es with
      | nil => rfl
      | cons e es ih =>
        have found := (inside e (members e List.mem_cons_self)).2
        have tail := ih (fun x later => members x (List.mem_cons_of_mem e later))
        simp [List.getElem?_eq_getElem found,nameAt,tail]
    have arranged := ((adjacency.perm (g.graph.edges.filter (fun e => direction.near e == i))).filterMap
      (fun e => (g.graph.nodes[direction.far e]?).map
        (fun other => NeighborView.ofEdge other.name e.2.2))).map NeighborView.pair
    rw [read _ (fun e member => List.mem_of_mem_filter member)] at arranged
    rw [← chosen]
    exact arranged

theorem outgoingListed (ok : g.Indexed) (adjacency : Order) (n : String) :
    ((g.accessor adjacency).outPairs n).Perm (Mirror.outOf g.namedEdges n) := by
  have listed := neighborsListed ok adjacency n .outgoing
  have shape : Mirror.outOf g.namedEdges n = (g.graph.edges.filter (fun e =>
      g.nameAt (Direction.outgoing.near e) = n)).map (fun e => (g.nameAt e.2.1,e.2.2)) := by
    rw [Mirror.outOf,namedEdges,List.filter_map,List.map_map]
    rfl
  rw [shape]
  exact listed

theorem incomingListed (ok : g.Indexed) (adjacency : Order) (n : String) :
    ((g.accessor adjacency).incPairs n).Perm (Mirror.incOf g.namedEdges n) := by
  have listed := neighborsListed ok adjacency n .incoming
  have shape : Mirror.incOf g.namedEdges n = (g.graph.edges.filter (fun e =>
      g.nameAt (Direction.incoming.near e) = n)).map (fun e => (g.nameAt e.1,e.2.2)) := by
    rw [Mirror.incOf,namedEdges,List.filter_map,List.map_map]
    rfl
  rw [shape]
  exact listed

theorem namedCount (adjacency : Order) (g : OrpheusGraphInner W) :
    g.namedEdges.length = (g.accessor adjacency).edgeCount := List.length_map _

/- An indexed graph is a named graph whatever the adjacency order. -/
def named (adjacency : Order) (g : OrpheusGraphInner W) (ok : g.Indexed) : NamedGraph W where
  toGraphAccessor := g.accessor adjacency
  names := g.names
  present n := (ok.known n).symm
  named := ok.getNodeNamed
  mirrored := (Mirror.ofList ok.distinct g.namedEdges g.namedEnds).reorder
    (outgoingListed ok adjacency) (incomingListed ok adjacency)
  countNodes := by simp [accessor,names]
  countEdges := by
    have total := Mirror.countList ok.distinct g.namedEdges (fun s member => (g.namedEnds s member).1)
    rw [← namedCount,← total]
    refine congrArg List.sum (List.map_congr_left (fun n _ => ?_))
    have listed := (outgoingListed ok adjacency n).length_eq
    rw [GraphAccessor.outPairs,List.length_map] at listed
    rw [List.countP_true,listed]

/-! Node and edge order do not show. -/
theorem Indexed.getNodeAt (ok : g.Indexed) {nd : NodeData W} (member : nd ∈ g.graph.nodes) :
    g.getNode nd.name = some (NodeView.ofData nd) := by
  obtain ⟨i,read⟩ := List.mem_iff_getElem?.mp member
  have index : g.indexMap.get nd.name = some i := (ok nd.name i).mpr (by rw [read]; rfl)
  rw [getNode,getIndex,index]
  simp only [Option.bind_eq_bind,Option.bind_some,read]
  rfl

theorem Indexed.getNodePerm {g' : OrpheusGraphInner W} (ok : g.Indexed) (ok' : g'.Indexed)
    (nodes : g.graph.nodes.Perm g'.graph.nodes) (n : String) : g.getNode n = g'.getNode n := by
  have names : g.names.Perm g'.names := nodes.map _
  cases Classical.em (n ∈ g.names) with
  | inl present =>
    obtain ⟨nd,member,rfl⟩ := List.mem_map.mp present
    rw [ok.getNodeAt member,ok'.getNodeAt (nodes.mem_iff.mp member)]
  | inr absent =>
    have left := mt (ok.known n).mpr absent
    have right := mt (ok'.known n).mpr (mt names.mem_iff.mpr absent)
    rw [Option.not_isSome_iff_eq_none] at left right
    rw [left,right]

theorem agreesOfPerm {g' : OrpheusGraphInner W} (ok : g.Indexed) (ok' : g'.Indexed)
    (adjacency adjacency' : Order) (nodes : g.graph.nodes.Perm g'.graph.nodes)
    (edges : g.namedEdges.Perm g'.namedEdges) :
    Agrees (g.accessor adjacency) (g'.accessor adjacency') where
  nodes n := ok.getNodePerm ok' nodes n
  nodeCount := nodes.length_eq
  edgeCount := by rw [← namedCount,← namedCount,edges.length_eq]
  outgoing n := by
    rw [← outgoingPairs,← outgoingPairs]
    have lists : (Mirror.outOf g.namedEdges n).Perm (Mirror.outOf g'.namedEdges n) :=
      (edges.filter _).map _
    exact (((outgoingListed ok adjacency n).trans lists).trans
      (outgoingListed ok' adjacency' n).symm).map _
  incoming n := by
    rw [← incomingPairs,← incomingPairs]
    have lists : (Mirror.incOf g.namedEdges n).Perm (Mirror.incOf g'.namedEdges n) :=
      (edges.filter _).map _
    exact (((incomingListed ok adjacency n).trans lists).trans
      (incomingListed ok' adjacency' n).symm).map _

end OrpheusGraphInner
end OrpheusGraph
