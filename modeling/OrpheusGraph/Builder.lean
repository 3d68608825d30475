import OrpheusGraph.Graph

/-! Building a graph from node and edge inputs. The arithmetic on weights is a parameter,
with no law assumed: the source computes in f32. -/
namespace OrpheusGraph
variable {W : Type}

class Arith (W : Type) where
  ofNat : Nat → W
  add : W → W → W
  sub : W → W → W
  mul : W → W → W
  div : W → W → W
  maximum : W → W → W
  lt : W → W → Bool
  isFinite : W → Bool
  epsilon : W
  damping : W

section pagerank
variable [Arith W]
open Arith

def DiGraph.outgoing (adjacency : Order) (g : DiGraph W) (i : Nat) : List (Nat × Nat × EdgeData W) :=
  adjacency.arrange (g.edges.filter (fun e => e.1 == i))

def danglingSum (outDegree : List Nat) (scores : List W) : W :=
  (outDegree.zip scores).foldl (fun sum x => if x.1 = 0 then add sum x.2 else sum) (ofNat 0)

def spreadScores (adjacency : Order) (g : DiGraph W) (damping : W) (outDegree : List Nat)
    (scores start : List W) : List W :=
  ((outDegree.zip scores).zipIdx).foldl (fun fresh x =>
    if x.1.1 = 0 then fresh
    else
      let share := div (mul damping x.1.2) (ofNat x.1.1)
      (g.outgoing adjacency x.2).foldl (fun fresh e => fresh.modify e.2.1 (fun s => add s share)) fresh)
    start

def pagerankStep (adjacency : Order) (g : DiGraph W) (damping : W) (outDegree : List Nat)
    (scores : List W) : List W :=
  let n := g.nodes.length
  let teleport := div (sub (ofNat 1) damping) (ofNat n)
  let base := add teleport (div (mul damping (danglingSum outDegree scores)) (ofNat n))
  spreadScores adjacency g damping outDegree scores (List.replicate n base)

def pagerankScores (adjacency : Order) (g : DiGraph W) (damping : W) (iterations : Nat) : List W :=
  let n := g.nodes.length
  let outDegree := (List.range n).map (fun i => (g.outgoing adjacency i).length)
  (pagerankStep adjacency g damping outDegree)^[iterations]
    (List.replicate n (div (ofNat 1) (ofNat n)))

/- Scores and nodes have one length, so pairing them loses nothing. -/
def rankedNodes (nodes : List (NodeData W)) (scores : List W) : List (NodeData W) :=
  let maxScore := scores.foldl maximum (ofNat 0)
  let norm := if lt epsilon maxScore then maxScore else ofNat 1
  nodes.mapIdx (fun i nd => match scores[i]? with
    | some s => { nd with pagerankWeight := div s norm }
    | none => nd)

def computePagerank (adjacency : Order) (g : DiGraph W) (damping : W) (iterations : Nat) : DiGraph W where
  nodes := rankedNodes g.nodes (pagerankScores adjacency g damping iterations)
  edges := g.edges
  inRange := by simpa [rankedNodes] using g.inRange

end pagerank

section build
variable [Arith W]
open Arith

/- The position map and the vector of the source are one insertion-ordered map. -/
def dedupNodes (nodes : List (NodeInput W)) : IndexMap String (NodeInput W) :=
  nodes.foldl (fun m n => m.insert n.name n) ∅

def sortedNodes (nodes : List (NodeInput W)) : List (NodeInput W) :=
  ((dedupNodes nodes).entries.map Prod.snd).insertionSort (fun a b => a.name ≤ b.name)

def sanitize (w : W) : W := if isFinite w then maximum w (ofNat 0) else ofNat 0

def clampUnit (w : W) : W :=
  let w := if lt w (ofNat 0) then ofNat 0 else w
  if lt (ofNat 1) w then ofNat 1 else w

def normDivisor (nodes : List (NodeInput W)) (normalize : Bool) : W :=
  if normalize then
    let maxWeight := (nodes.map (fun n => sanitize n.baseWeight)).foldl maximum (ofNat 0)
    if isFinite maxWeight && lt epsilon maxWeight then maxWeight else ofNat 1
  else ofNat 1

def builtNode (normalize : Bool) (divisor : W) (input : NodeInput W) : NodeData W where
  name := input.name
  kind := input.kind
  metadata := input.metadata
  baseWeight := if normalize then div (sanitize input.baseWeight) divisor else input.baseWeight
  noisePenalty := if normalize then clampUnit (sanitize input.noisePenalty) else input.noisePenalty
  pagerankWeight := ofNat 0

omit [Arith W] in
def builtEdge (input : EdgeInput W) : EdgeData W where
  kind := input.kind
  fieldName := input.fieldName
  baseWeight := input.baseWeight
  validFrom := input.validFrom
  validTo := input.validTo
  acl := normalizeAcl input.acl

/- None where the source continues with the next edge. -/
def resolveEdge (indexMap : IndexMap String Nat) (edge : EdgeInput W) :
    Option (Nat × Nat × EdgeData W) := do
  let i ← indexMap.get edge.fromName
  let j ← indexMap.get edge.toName
  if emptyWindow edge.validFrom edge.validTo then none else some (i,j,builtEdge edge)

def builtNodes (nodes : List (NodeInput W)) (normalize : Bool) : List (NodeData W) :=
  let sorted := sortedNodes nodes
  sorted.map (builtNode normalize (normDivisor sorted normalize))

omit [Arith W] in
theorem dedupNamed (nodes : List (NodeInput W)) :
    ∀ e ∈ (dedupNodes nodes).entries, e.2.name = e.1 := by
  have keeps : ∀ (nodes : List (NodeInput W)) (m : IndexMap String (NodeInput W)),
      (∀ e ∈ m.entries, e.2.name = e.1) →
      ∀ e ∈ (nodes.foldl (fun m n => m.insert n.name n) m).entries, e.2.name = e.1 := by
    intro nodes
    induction nodes with
    | nil => exact fun _ held => held
    | cons n rest ih =>
      intro m held
      refine ih (m.insert n.name n) (fun e member => ?_)
      rcases IndexMap.memInsert m n.name n e member with rfl | old
      · rfl
      · exact held e old
  exact keeps nodes ∅ (fun e member => by cases member)

omit [Arith W] in
theorem sortedNames (nodes : List (NodeInput W)) :
    ((sortedNodes nodes).map NodeInput.name).Perm (dedupNodes nodes).keys := by
  have same : ((dedupNodes nodes).entries.map Prod.snd).map NodeInput.name = (dedupNodes nodes).keys := by
    rw [List.map_map]
    exact List.map_congr_left (fun e member => dedupNamed nodes e member)
  rw [← same]
  exact (List.perm_insertionSort _ _).map _

theorem builtNames (nodes : List (NodeInput W)) (normalize : Bool) :
    (builtNodes nodes normalize).map NodeData.name = (sortedNodes nodes).map NodeInput.name := by
  simp [builtNodes,builtNode,Function.comp_def]

theorem builtDistinct (nodes : List (NodeInput W)) (normalize : Bool) :
    ((builtNodes nodes normalize).map NodeData.name).Nodup := by
  rw [builtNames,(sortedNames nodes).nodup_iff]
  exact (dedupNodes nodes).keysNodup

/- A name that resolves gives a number in range, so every kept edge is well formed. -/
omit [Arith W] in
theorem resolveInRange {nodes : List (NodeData W)} (distinct : (nodes.map NodeData.name).Nodup)
    (edges : List (EdgeInput W)) : ∀ e ∈ edges.filterMap (resolveEdge (indexNodes nodes)),
      e.1 < nodes.length ∧ e.2.1 < nodes.length := by
  have inside : ∀ n i, (indexNodes nodes).get n = some i → i < nodes.length := by
    intro n i found
    have read := (indexNodesExact distinct n i).mp found
    by_contra outside
    simp [List.getElem?_eq_none (Nat.le_of_not_lt outside)] at read
  intro e member
  obtain ⟨input,_,resolved⟩ := List.mem_filterMap.mp member
  unfold resolveEdge at resolved
  cases source : (indexNodes nodes).get input.fromName with
  | none => simp [source] at resolved
  | some i =>
    cases target : (indexNodes nodes).get input.toName with
    | none => simp [source,target] at resolved
    | some j =>
      simp only [source,target,Option.bind_eq_bind,Option.bind_some] at resolved
      split at resolved <;> try contradiction
      cases Option.some.inj resolved
      exact ⟨inside _ _ source,inside _ _ target⟩

def buildGraphInner (adjacency : Order) (nodes : List (NodeInput W)) (edges : List (EdgeInput W))
    (normalize : Bool) : OrpheusGraphInner W :=
  let inserted := builtNodes nodes normalize
  let indexMap := indexNodes inserted
  let graph : DiGraph W := ⟨inserted,edges.filterMap (resolveEdge indexMap),
    resolveInRange (builtDistinct nodes normalize) edges⟩
  ⟨computePagerank adjacency graph damping 20,indexMap⟩

def buildGraph (adjacency : Order) (nodes : List (NodeInput W)) (edges : List (EdgeInput W)) :
    OrpheusGraphInner W := buildGraphInner adjacency nodes edges true

def buildGraphPrenormalized (adjacency : Order) (nodes : List (NodeInput W))
    (edges : List (EdgeInput W)) : OrpheusGraphInner W := buildGraphInner adjacency nodes edges false

/-! What every built graph satisfies. -/
theorem rankedFields (nodes : List (NodeData W)) (scores : List W) (i : Nat) :
    ((rankedNodes nodes scores)[i]?).map (fun nd => (NodeView.ofData nd).unranked) =
      (nodes[i]?).map (fun nd => (NodeView.ofData nd).unranked) := by
  simp only [rankedNodes,List.getElem?_mapIdx,Option.map_map]
  congr 1
  funext nd
  simp only [Function.comp]
  split <;> rfl

theorem rankedNames (nodes : List (NodeData W)) (scores : List W) (i : Nat) :
    ((rankedNodes nodes scores)[i]?).map NodeData.name = (nodes[i]?).map NodeData.name := by
  have fields := congrArg (Option.map NodeInput.name) (rankedFields nodes scores i)
  rw [Option.map_map,Option.map_map] at fields
  exact fields

theorem buildIndexed (adjacency : Order) (nodes : List (NodeInput W)) (edges : List (EdgeInput W))
    (normalize : Bool) : (buildGraphInner adjacency nodes edges normalize).Indexed := by
  intro n i
  have index := indexNodesExact (builtDistinct nodes normalize) n i
  have names := rankedNames (builtNodes nodes normalize)
  simp only [buildGraphInner,computePagerank,names]
  exact index

omit [Arith W] in
theorem builtEdgeCanonical {indexMap : IndexMap String Nat} {input : EdgeInput W}
    {e : Nat × Nat × EdgeData W} (resolved : resolveEdge indexMap input = some e) :
    e.2.2.Canonical := by
  unfold resolveEdge at resolved
  cases source : indexMap.get input.fromName with
  | none => simp [source] at resolved
  | some i =>
    cases target : indexMap.get input.toName with
    | none => simp [source,target] at resolved
    | some j =>
      simp only [source,target,Option.bind_eq_bind,Option.bind_some] at resolved
      split at resolved <;> try contradiction
      rename_i window
      cases Option.some.inj resolved
      have satisfiable : emptyWindow input.validFrom input.validTo = false := by simpa using window
      exact ⟨satisfiable,normalizeAclIncreasing _⟩

theorem buildCanonical (adjacency : Order) (nodes : List (NodeInput W)) (edges : List (EdgeInput W))
    (normalize : Bool) :
    ((buildGraphInner adjacency nodes edges normalize).accessor adjacency).Canonical := by
  have ok := buildIndexed adjacency nodes edges normalize
  intro n v member
  have paired := List.mem_map_of_mem (f := NeighborView.pair) member
  have listed := (OrpheusGraphInner.outgoingListed ok adjacency n).mem_iff.mp paired
  obtain ⟨s,among,same⟩ := List.mem_map.mp listed
  obtain ⟨e,kept,rfl⟩ := List.mem_map.mp (List.mem_of_mem_filter among)
  obtain ⟨input,_,resolved⟩ := List.mem_filterMap.mp kept
  have edge : v.edge = e.2.2 := (congrArg Prod.snd same).symm
  rw [edge]
  exact builtEdgeCanonical resolved

omit [Arith W] in
theorem dedupShort (nodes : List (NodeInput W)) : (dedupNodes nodes).keys.length ≤ nodes.length := by
  have grows : ∀ (nodes : List (NodeInput W)) (m : IndexMap String (NodeInput W)),
      (nodes.foldl (fun m n => m.insert n.name n) m).keys.length ≤ m.keys.length + nodes.length := by
    intro nodes
    induction nodes with
    | nil => exact fun m => Nat.le_refl _
    | cons n nodes ih =>
      intro m
      have one := m.countKeysInsert n.name n (fun _ => true)
      simp only [List.countP_true] at one
      have rest := ih (m.insert n.name n)
      rw [List.foldl_cons,List.length_cons]
      split at one <;> omega
  simpa [dedupNodes] using grows nodes ∅

/- Building only leaves out. -/
theorem buildShort (adjacency : Order) (nodes : List (NodeInput W)) (edges : List (EdgeInput W)) (normalize : Bool) :
    (buildGraphInner adjacency nodes edges normalize).graph.nodes.length ≤ nodes.length ∧
      (buildGraphInner adjacency nodes edges normalize).graph.edges.length ≤ edges.length := by
  refine ⟨?_,List.length_filterMap_le _ _⟩
  have ranked : (buildGraphInner adjacency nodes edges normalize).graph.nodes.length =
      (builtNodes nodes normalize).length := List.length_mapIdx
  rw [ranked,builtNodes,List.length_map,sortedNodes,List.length_insertionSort,List.length_map]
  exact (List.length_map Prod.fst).symm.trans_le (dedupShort nodes)

end build
end OrpheusGraph
