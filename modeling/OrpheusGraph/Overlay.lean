import OrpheusGraph.Builder
import OrpheusGraph.Snapshot

/-! The query layer's view of a graph: the request context, the score of a node, and a
node's neighbours in the base and the overlay once the fan-out cutoff and the visibility
filter have been applied. -/
namespace OrpheusGraph
variable {W : Type}

structure DynamicContext (W : Type) where
  semanticBoosts : IndexMap String W
  overlayNodes : List (NodeData W)
  overlayEdges : List (String × String × EdgeData W)
  weightBonuses : IndexMap String W
  wBase : W
  wSemantic : W
  wNoise : W
  wBonus : W
  noiseTags : List String
  maxFanOut : Option Nat
  fanOutPagerankBypass : Option W
  asOf : Option Nat
  principals : List String

def DynamicContext.isEdgeVisible (ctx : DynamicContext W) (validFrom validTo : Option Nat)
    (acl : List String) : Bool :=
  let temporalOk := match ctx.asOf with
    | none => true
    | some t => validFrom.all (· ≤ t) && validTo.all (t < ·)
  if temporalOk then acl.isEmpty || acl.any (fun tag => ctx.principals.any (· == tag)) else false

structure NodeResult (W : Type) where
  name : String
  kind : String
  weight : W
  baseComponent : W
  semanticComponent : W
  noiseComponent : W
  bonusComponent : W

section score
variable [Arith W]
open Arith

/- The literals 0.9 and 0.001: a quotient is rounded as the literal is. -/
def noiseFloor : W := div (ofNat 9) (ofNat 10)
def scoreFloor : W := div (ofNat 1) (ofNat 1000)

def computeScore (node : NodeView W) (ctx : DynamicContext W) : NodeResult W :=
  let baseComponent := mul ctx.wBase node.baseWeight
  let semanticComponent := mul ctx.wSemantic ((ctx.semanticBoosts.get node.name).getD (ofNat 0))
  let bonusComponent := mul ctx.wBonus ((ctx.weightBonuses.get node.name).getD (ofNat 0))
  let noise := clampUnit (mul ctx.wNoise node.noisePenalty)
  let effectiveNoise := match node.metadata["domain"]? with
    | some domain => if domain ∈ ctx.noiseTags then maximum noise noiseFloor else noise
    | none => noise
  let raw := add (add baseComponent semanticComponent) bonusComponent
  ⟨node.name,node.kind,mul raw (sub (ofNat 1) effectiveNoise),baseComponent,semanticComponent,
    effectiveNoise,bonusComponent⟩

end score

structure NeighborEntry (W : Type) where
  name : String
  edgeKind : String
  fieldName : Option String
  edgeWeight : W
  isOverlay : Bool
  validFrom : Option Nat
  validTo : Option Nat
  acl : List String

def NeighborEntry.ofBase (v : NeighborView W) : NeighborEntry W :=
  ⟨v.targetName,v.edgeKind,v.fieldName,v.edgeWeight,false,v.validFrom,v.validTo,v.acl⟩

def NeighborEntry.ofOverlay (x : String × String × EdgeData W) : NeighborEntry W :=
  ⟨x.2.1,x.2.2.kind,x.2.2.fieldName,x.2.2.baseWeight,true,x.2.2.validFrom,x.2.2.validTo,x.2.2.acl⟩

def NeighborEntry.visible (ctx : DynamicContext W) (n : NeighborEntry W) : Bool :=
  ctx.isEdgeVisible n.validFrom n.validTo n.acl

structure OverlayIndex (W : Type) where
  edges : IndexMap String (List (String × String × EdgeData W))
  nodes : IndexMap String (NodeData W)

namespace OverlayIndex

/- The last definition of a node wins. -/
def build (ctx : DynamicContext W) : OverlayIndex W where
  edges := ctx.overlayEdges.foldl (fun m e => m.insert e.1 ((m.get e.1).getD [] ++ [e])) ∅
  nodes := ctx.overlayNodes.foldl (fun m n => m.insert n.name n) ∅

def edgesFrom (index : OverlayIndex W) (name : String) : List (String × String × EdgeData W) :=
  (index.edges.get name).getD []

end OverlayIndex

def collectOverlayEdges (index : OverlayIndex W) (name : String) (result : List (NeighborEntry W)) :
    List (NeighborEntry W) := result ++ (index.edgesFrom name).map .ofOverlay

section neighbors
variable [Arith W]

def hasSemanticBoost (ctx : DynamicContext W) (name : String) : Bool :=
  (ctx.semanticBoosts.get name).any (fun v => Arith.lt (Arith.ofNat 0) v)

def hasHighPagerank (ctx : DynamicContext W) (node : NodeView W) : Bool :=
  ctx.fanOutPagerankBypass.any (fun t => Arith.lt t node.pagerankWeight)

/- The base neighbours, or none of them for a hub that is not let through. -/
def baseEntries (graph : GraphAccessor W) (ctx : DynamicContext W) (name : String) :
    List (NeighborEntry W) :=
  match graph.getNode name with
  | none => []
  | some node =>
    let neighbors := graph.outgoingNeighbors name
    if ctx.maxFanOut.any (· < neighbors.length) && !hasSemanticBoost ctx name &&
        !hasHighPagerank ctx node then []
    else neighbors.map .ofBase

def neighborsWithOverlayUnfiltered (graph : GraphAccessor W) (ctx : DynamicContext W)
    (index : OverlayIndex W) (name : String) : List (NeighborEntry W) :=
  collectOverlayEdges index name (baseEntries graph ctx name)

def neighborsWithOverlayIndexed (graph : GraphAccessor W) (ctx : DynamicContext W)
    (index : OverlayIndex W) (name : String) : List (NeighborEntry W) :=
  (neighborsWithOverlayUnfiltered graph ctx index name).filter (·.visible ctx)

def neighborsWithOverlay (graph : GraphAccessor W) (ctx : DynamicContext W) (name : String) :
    List (NeighborEntry W) := neighborsWithOverlayIndexed graph ctx (.build ctx) name

end neighbors

def resolveOverlayNode (name : String) (ctx : DynamicContext W) : Option (NodeView W) :=
  (ctx.overlayNodes.find? (fun n => n.name == name)).map NodeView.ofData

def resolveOverlayNodeIndexed (name : String) (index : OverlayIndex W) : Option (NodeView W) :=
  (index.nodes.get name).map NodeView.ofData

/-! What the index answers. -/
theorem edgesFromBuild (ctx : DynamicContext W) (name : String) :
    (OverlayIndex.build ctx).edgesFrom name = ctx.overlayEdges.filter (fun e => e.1 == name) := by
  have collect : ∀ (edges : List (String × String × EdgeData W))
      (m : IndexMap String (List (String × String × EdgeData W))),
      ((edges.foldl (fun m e => m.insert e.1 ((m.get e.1).getD [] ++ [e])) m).get name).getD [] =
        (m.get name).getD [] ++ edges.filter (fun e => e.1 == name) := by
    intro edges
    induction edges with
    | nil => simp
    | cons e rest ih =>
      intro m
      rw [List.foldl_cons,ih,IndexMap.getInsert,List.filter_cons]
      cases decEq name e.1 with
      | isTrue same => simp [same]
      | isFalse other => simp [other,Ne.symm other]
  exact (collect ctx.overlayEdges ∅).trans (List.nil_append _)

/- Of two definitions under one name the scan takes the first, the index the last. -/
theorem nodeBuild (ctx : DynamicContext W) (name : String) : (OverlayIndex.build ctx).nodes.get name =
    (ctx.overlayNodes.filter (fun n => n.name == name)).getLast? :=
  (IndexMap.getFold NodeData.name id ctx.overlayNodes ∅ name).trans (by
    rw [IndexMap.getEmpty,Option.or_none,Option.map_id]
    rfl)

theorem resolveFirst (ctx : DynamicContext W) (name : String) : resolveOverlayNode name ctx =
    ((ctx.overlayNodes.filter (fun n => n.name == name)).head?).map NodeView.ofData := by
  rw [resolveOverlayNode,List.head?_filter]

theorem resolveLast (ctx : DynamicContext W) (name : String) :
    resolveOverlayNodeIndexed name (.build ctx) =
      ((ctx.overlayNodes.filter (fun n => n.name == name)).getLast?).map NodeView.ofData := by
  rw [resolveOverlayNodeIndexed,nodeBuild]

theorem collectVisible (ctx : DynamicContext W) (name : String) (result : List (NeighborEntry W)) :
    (collectOverlayEdges (.build ctx) name result).filter (·.visible ctx) =
      result.filter (·.visible ctx) ++ ((ctx.overlayEdges.filter (fun e =>
        ctx.isEdgeVisible e.2.2.validFrom e.2.2.validTo e.2.2.acl)).filter (fun e => e.1 == name)).map
          .ofOverlay := by
  rw [collectOverlayEdges,edgesFromBuild,List.filter_append,List.filter_map,List.filter_filter,
    List.filter_filter]
  congr 2
  refine List.filter_congr (fun e _ => ?_)
  rw [Bool.and_comm]
  rfl

end OrpheusGraph
