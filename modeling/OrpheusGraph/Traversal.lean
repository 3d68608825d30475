import OrpheusGraph.Overlay
import OrpheusGraph.Lib.PriorityQueue

/-! The four queries. An order says how a hash map or a hash set lists what it holds, and
the priority queue is the binary heap of the standard library. -/
namespace OrpheusGraph
variable {W : Type}

structure PathStep where
  node : String
  edgeKind : String
  fieldName : String
  direction : String
  deriving DecidableEq, Repr

structure EdgeResult (W : Type) where
  source : String
  target : String
  kind : String
  fieldName : Option String
  weight : W
  validFrom : Option Nat
  validTo : Option Nat
  acl : List String

structure SubGraph (W : Type) where
  nodes : List (NodeResult W)
  edges : List (EdgeResult W)

structure DijkstraEntry (W : Type) where
  cost : W
  node : String

structure ParentInfo where
  origin : String
  edgeKind : String
  fieldName : Option String

structure Collected (W : Type) where
  nodeSet : List String
  nodes : List (NodeResult W)
  edges : List (EdgeResult W)

structure Heatmap (W : Type) where
  hitCount : IndexMap String Nat
  weightSum : IndexMap String W
  bestResult : IndexMap String (NodeResult W)

structure Filtered (W : Type) where
  bestResult : IndexMap String (NodeResult W)
  nodes : List (NodeResult W)
  set : List String

def EdgeResult.ofEntry (source : String) (n : NeighborEntry W) : EdgeResult W :=
  ⟨source,n.name,n.edgeKind,n.fieldName,n.edgeWeight,n.validFrom,n.validTo,n.acl⟩

def EdgeResult.ofBase (source : String) (v : NeighborView W) : EdgeResult W :=
  ⟨source,v.targetName,v.edgeKind,v.fieldName,v.edgeWeight,v.validFrom,v.validTo,v.acl⟩

def EdgeResult.ofOverlay (x : String × String × EdgeData W) : EdgeResult W :=
  ⟨x.1,x.2.1,x.2.2.kind,x.2.2.fieldName,x.2.2.baseWeight,x.2.2.validFrom,x.2.2.validTo,x.2.2.acl⟩

def EdgeResult.key (e : EdgeResult W) : String × String × String := (e.source,e.target,e.kind)

def EdgeResult.cmp (a b : EdgeResult W) : Ordering :=
  (compare a.source b.source).then <| (compare a.target b.target).then <| compare a.kind b.kind

def markVisited (s : List String × List String) (result : NodeResult W) : List String × List String :=
  if result.name ∈ s.1 then s else (result.name :: s.1,s.2 ++ [result.name])

def PathStep.origin (start : String) : PathStep := ⟨start,"","",""⟩

/- The path from its end back to its start. None when the fuel runs out. -/
def reconstructFrom (start : String) (parent : IndexMap String ParentInfo) :
    Nat → String → Option (List PathStep)
  | 0, _ => none
  | fuel+1, current =>
    if current = start then some [.origin start]
    else match parent.get current with
      | none => some [.origin start]
      | some info => (reconstructFrom start parent fuel info.origin).map
          (⟨current,info.edgeKind,info.fieldName.getD "","outgoing"⟩ :: ·)

def reconstructPath (fuel : Nat) (start finish : String) (parent : IndexMap String ParentInfo) :
    Option (List PathStep) := (reconstructFrom start parent fuel finish).map List.reverse

def keepHot (startNodes : List String) (threshold : Nat) (f : Filtered W) (hit : String × Nat) :
    Filtered W :=
  if threshold ≤ hit.2 ∧ hit.1 ∉ startNodes then
    match f.bestResult.get hit.1 with
    | none => f
    | some nr =>
      if hit.1 ∈ f.set then { f with bestResult := f.bestResult.shiftRemove hit.1 }
      else ⟨f.bestResult.shiftRemove hit.1,f.nodes ++ [nr],hit.1 :: f.set⟩
  else f

/- The second place where edges are read: the base directly, then the whole overlay. -/
def edgesAmong (graph : GraphAccessor W) (ctx : DynamicContext W) (set : List String)
    (nodeName : String) : List (EdgeResult W) :=
  (((graph.outgoingNeighbors nodeName).filter (fun v => ctx.isEdgeVisible v.validFrom v.validTo v.acl)).filter
      (fun v => v.targetName ∈ set)).map (.ofBase nodeName) ++
  ((ctx.overlayEdges.filter (fun x => ctx.isEdgeVisible x.2.2.validFrom x.2.2.validTo x.2.2.acl)).filter
      (fun x => x.1 == nodeName && x.2.1 ∈ set)).map .ofOverlay

def seeEdge (s : List (String × String × String) × List (EdgeResult W)) (e : EdgeResult W) :
    List (String × String × String) × List (EdgeResult W) :=
  if e.key ∈ s.1 then s else (e.key :: s.1,s.2 ++ [e])

def reconstructEdges (graph : GraphAccessor W) (ctx : DynamicContext W) (set listed : List String) :
    List (EdgeResult W) :=
  (listed.foldl (fun s nodeName => (edgesAmong graph ctx set nodeName).foldl seeEdge s) ([],[])).2

section orders
variable [TotalCmp W]

def NodeResult.cmp (a b : NodeResult W) : Ordering :=
  (TotalCmp.totalCmp b.weight a.weight).then (compare a.name b.name)

def byWeight (results : List (NodeResult W)) : List (NodeResult W) :=
  results.mergeSort (fun a b => (a.cmp b).isLE)

def byEdge (edges : List (EdgeResult W)) : List (EdgeResult W) :=
  edges.mergeSort (fun a b => (a.cmp b).isLE)

def boostCmp (a b : String × W) : Ordering := (TotalCmp.totalCmp b.2 a.2).then (compare a.1 b.1)

def seedsOf (order : Order) (ctx : DynamicContext W) (k : Nat) : List String :=
  (((order.arrange ctx.semanticBoosts.entries).mergeSort (fun a b => (boostCmp a b).isLE)).take k).map
    Prod.fst

def DijkstraEntry.cmp (a b : DijkstraEntry W) : Ordering := TotalCmp.totalCmp b.cost a.cost

instance : Std.TransCmp (DijkstraEntry.cmp (W := W)) := by
  have lawful : Std.TransCmp (TotalCmp.totalCmp (W := W)) := TotalCmp.lawful
  have flipped : Std.TransCmp (fun x y : W => TotalCmp.totalCmp y x) := inferInstance
  let order : Ord W := ⟨fun x y => TotalCmp.totalCmp y x⟩
  have ordered : Std.TransOrd W := flipped
  exact inferInstanceAs (Std.TransCmp (compareOn DijkstraEntry.cost))

abbrev BinaryHeap (W : Type) [TotalCmp W] := PriorityQueue (DijkstraEntry W) DijkstraEntry.cmp

structure Search (heap : BinaryHeap W) where
  dist : IndexMap String W
  parent : IndexMap String ParentInfo
  queue : heap.State

end orders

section scores
variable [Arith W]
open Arith

def scoreOf (graph : GraphAccessor W) (ctx : DynamicContext W) (overlay : OverlayIndex W)
    (name : String) : Option (NodeResult W) :=
  match graph.getNode name with
  | some nodeView => some (computeScore nodeView ctx)
  | none => (resolveOverlayNodeIndexed name overlay).map (computeScore · ctx)

/- `entry(..).and_modify(..).or_insert(result)`. -/
def keepBest (m : IndexMap String (NodeResult W)) (name : String) (result : NodeResult W) :
    IndexMap String (NodeResult W) :=
  m.insert name (match m.get name with
    | some existing => if lt existing.weight result.weight then result else existing
    | none => result)

def levelNeighbor (graph : GraphAccessor W) (ctx : DynamicContext W) (overlay : OverlayIndex W)
    (visited : List String) (levelMap : IndexMap String (NodeResult W)) (neighbor : NeighborEntry W) :
    IndexMap String (NodeResult W) :=
  if neighbor.name ∈ visited then levelMap
  else match scoreOf graph ctx overlay neighbor.name with
    | none => levelMap
    | some result => keepBest levelMap neighbor.name result

def levelOf (graph : GraphAccessor W) (ctx : DynamicContext W) (overlay : OverlayIndex W)
    (visited frontier : List String) : IndexMap String (NodeResult W) :=
  frontier.foldl (fun levelMap nodeName =>
    (neighborsWithOverlayIndexed graph ctx overlay nodeName).foldl
      (levelNeighbor graph ctx overlay visited) levelMap) ∅

def edgeCost (graph : GraphAccessor W) (ctx : DynamicContext W) (overlay : OverlayIndex W)
    (name : String) : W :=
  let targetScore := match scoreOf graph ctx overlay name with
    | some result => result.weight
    | none => scoreFloor
  div (ofNat 1) (maximum targetScore scoreFloor)

def collectNeighbor (graph : GraphAccessor W) (ctx : DynamicContext W) (overlay : OverlayIndex W)
    (seed : String) (c : Collected W) (neighbor : NeighborEntry W) : Collected W :=
  let edges := c.edges ++ [.ofEntry seed neighbor]
  if neighbor.name ∈ c.nodeSet then { c with edges }
  else ⟨neighbor.name :: c.nodeSet,c.nodes ++ (scoreOf graph ctx overlay neighbor.name).toList,edges⟩

def collectSeed (graph : GraphAccessor W) (ctx : DynamicContext W) (overlay : OverlayIndex W)
    (c : Collected W) (seed : String) : Collected W :=
  if seed ∈ c.nodeSet then c
  else match scoreOf graph ctx overlay seed with
    | none => c
    | some result => (neighborsWithOverlayIndexed graph ctx overlay seed).foldl
        (collectNeighbor graph ctx overlay seed) ⟨seed :: c.nodeSet,c.nodes ++ [result],c.edges⟩

def heatResult (s : List String × Heatmap W) (nr : NodeResult W) : List String × Heatmap W :=
  let hits := (s.2.hitCount.get nr.name).getD 0
  ⟨if nr.name ∈ s.1 then s.1 else nr.name :: s.1,
    if nr.name ∈ s.1 then s.2.hitCount else s.2.hitCount.insert nr.name (hits + 1),
    s.2.weightSum.insert nr.name (add ((s.2.weightSum.get nr.name).getD (ofNat 0)) nr.weight),
    keepBest s.2.bestResult nr.name nr⟩

def heatBeam (h : Heatmap W) (results : List (NodeResult W)) : Heatmap W :=
  (results.foldl heatResult ([],h)).2

def keepStart (graph : GraphAccessor W) (ctx : DynamicContext W) (overlay : OverlayIndex W)
    (f : Filtered W) (start : String) : Filtered W :=
  if start ∈ f.set then f
  else match f.bestResult.get start with
    | some nr => ⟨f.bestResult.shiftRemove start,f.nodes ++ [nr],start :: f.set⟩
    | none => ⟨f.bestResult,f.nodes ++ (scoreOf graph ctx overlay start).toList,start :: f.set⟩

end scores

section queries
variable [Arith W] [TotalCmp W]
open Arith

def beamLevels (order : Order) (graph : GraphAccessor W) (ctx : DynamicContext W)
    (overlay : OverlayIndex W) (k : Nat) : Nat → List String → List String → List (NodeResult W)
  | 0, _, _ => []
  | depth+1, visited, frontier =>
    if frontier.isEmpty then []
    else
      let levelMap := levelOf graph ctx overlay visited frontier
      let candidates := (byWeight (order.arrange (levelMap.entries.map Prod.snd))).take k
      let next := candidates.foldl markVisited (visited,[])
      candidates ++ beamLevels order graph ctx overlay k depth next.1 next.2

def beamTraverse (order : Order) (graph : GraphAccessor W) (ctx : DynamicContext W) (start : String)
    (k depth : Nat) : List (NodeResult W) :=
  byWeight (beamLevels order graph ctx (.build ctx) k depth [start] [start])

def Search.start (heap : BinaryHeap W) (start : String) : Search heap where
  dist := (∅ : IndexMap String W).insert start (ofNat 0)
  parent := ∅
  queue := heap.push heap.new ⟨ofNat 0,start⟩

def relax {heap : BinaryHeap W} (graph : GraphAccessor W) (ctx : DynamicContext W)
    (overlay : OverlayIndex W) (node : String) (cost : W) (s : Search heap) (neighbor : NeighborEntry W) :
    Search heap :=
  let newCost := add cost (edgeCost graph ctx overlay neighbor.name)
  let isBetter := (s.dist.get neighbor.name).all (fun existing => lt newCost existing)
  if isBetter then
    { dist := s.dist.insert neighbor.name newCost
      parent := s.parent.insert neighbor.name ⟨node,neighbor.edgeKind,neighbor.fieldName⟩
      queue := heap.push s.queue ⟨newCost,neighbor.name⟩ }
  else s

/- The main loop. The outer option is none when the fuel runs out, the inner one when
no path exists. -/
def searchPath {heap : BinaryHeap W} (graph : GraphAccessor W) (ctx : DynamicContext W)
    (overlay : OverlayIndex W) (start finish : String) : Nat → Search heap →
    Option (Option (List PathStep))
  | 0, _ => none
  | fuel+1, s => match heap.pop s.queue with
    | none => some none
    | some (entry,rest) =>
      let s := { s with queue := rest }
      if entry.node = finish then (reconstructPath (fuel + 1) start finish s.parent).map some
      else if (s.dist.get entry.node).any (fun best => lt best entry.cost) then
        searchPath graph ctx overlay start finish fuel s
      else searchPath graph ctx overlay start finish fuel
        ((neighborsWithOverlayIndexed graph ctx overlay entry.node).foldl
          (relax graph ctx overlay entry.node entry.cost) s)

def findPath (heap : BinaryHeap W) (graph : GraphAccessor W) (ctx : DynamicContext W)
    (start finish : String) (fuel : Nat) : Option (Option (List PathStep)) :=
  if start = finish then some (some [.origin start])
  else searchPath graph ctx (.build ctx) start finish fuel (.start heap start)

def contextualSubgraph (order : Order) (graph : GraphAccessor W) (ctx : DynamicContext W) (k : Nat) :
    SubGraph W :=
  let found := (seedsOf order ctx k).foldl (collectSeed graph ctx (.build ctx)) ⟨[],[],[]⟩
  let present := found.nodes.map NodeResult.name
  ⟨byWeight found.nodes,byEdge (found.edges.filter (fun e => e.source ∈ present && e.target ∈ present))⟩

def heatCmp (weightSum : IndexMap String W) (a b : NodeResult W) : Ordering :=
  (TotalCmp.totalCmp ((weightSum.get b.name).getD (ofNat 0)) ((weightSum.get a.name).getD (ofNat 0))).then
    (compare a.name b.name)

def multiBeamIntersection (order : Order) (graph : GraphAccessor W) (ctx : DynamicContext W)
    (startNodes : List String) (k depth threshold : Nat) : SubGraph W :=
  let beamResults := startNodes.map (fun start => beamTraverse order graph ctx start k depth)
  let heat := beamResults.foldl heatBeam ⟨∅,∅,∅⟩
  let started := startNodes.foldl (keepStart graph ctx (.build ctx)) ⟨heat.bestResult,[],[]⟩
  let kept := (order.arrange heat.hitCount.entries).foldl (keepHot startNodes threshold) started
  ⟨kept.nodes.mergeSort (fun a b => (heatCmp heat.weightSum a b).isLE),
    byEdge (reconstructEdges graph ctx kept.set (order.arrange kept.set))⟩

end queries
end OrpheusGraph
