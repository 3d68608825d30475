import OrpheusGraph.Accessor
import OrpheusGraph.Lib.IndexMap

/-! The mutable overlay: its collections and counters, the four mutators, the two-pass
batch apply and replay, the merged accessor and the flattening into builder inputs. -/
namespace OrpheusGraph
variable {W : Type}

inductive Op (W : Type) where
  | upsertNode (nd : NodeData W)
  | removeNode (name : String)
  | addEdge (fromName toName : String) (edge : EdgeData W)
  | removeEdge (fromName toName kind : String)

inductive DeltaError where
  | missingEndpoint (opIndex : Nat) (fromName toName endpoint : String) (tombstoned : Bool)
  | invalidEdgeValidity (opIndex : Nat) (fromName toName : String) (validFrom validTo : Nat)
  deriving DecidableEq, Repr

/- A usize counter. A subtraction below zero wraps, as in a release build, and `wrapped`
remembers that it happened, where a debug build panics. -/
structure Usize where
  val : Nat
  wrapped : Bool
  deriving DecidableEq, Repr

namespace Usize
def ofNat (n : Nat) : Usize := ⟨n,false⟩
def add (c : Usize) (k : Nat) : Usize := ⟨c.val + k,c.wrapped⟩
def sub (c : Usize) (k : Nat) : Usize :=
  if k ≤ c.val then ⟨c.val - k,c.wrapped⟩ else ⟨c.val + 2^64 - k,true⟩
end Usize

structure DeltaEdge (W : Type) where
  fromName : String
  toName : String
  edge : EdgeData W
  dead : Bool
  deriving DecidableEq, Repr

structure GraphDelta (W : Type) where
  addedNodes : IndexMap String (NodeData W)
  addedEdges : List (DeltaEdge W)
  removedNodes : Finset String
  removedEdges : Finset (String × String × String)
  outIndex : String → List Nat
  inIndex : String → List Nat
  tombstoneBaseHits : Usize
  addedNonBase : Usize
  maskedBaseEdgeCount : Usize
  liveDeltaEdgeCount : Usize

namespace GraphDelta

def new : GraphDelta W :=
  ⟨∅,[],∅,∅,fun _ => [],fun _ => [],.ofNat 0,.ofNat 0,.ofNat 0,.ofNat 0⟩

def isEmpty (d : GraphDelta W) : Bool :=
  d.addedNodes.isEmpty && d.addedEdges.isEmpty && d.removedNodes = ∅ && d.removedEdges = ∅

/-! The private mutators. None of them fails. -/

/- Shared by mask and unmask: one `step` of the counter for each incident base edge of
`name` that no other tombstone covers. A self-loop is left to the outgoing pass. -/
def stepIncident (step : Usize → Usize) (d : GraphDelta W) (base : GraphAccessor W)
    (name : String) : Usize :=
  let outgoing := (base.outgoingNeighbors name).foldl (fun count nb =>
    if nb.targetName ∈ d.removedNodes then count
    else if (name,nb.targetName,nb.edgeKind) ∈ d.removedEdges then count
    else step count) d.maskedBaseEdgeCount
  (base.incomingNeighbors name).foldl (fun count nb =>
    if nb.targetName = name then count
    else if nb.targetName ∈ d.removedNodes then count
    else if (nb.targetName,name,nb.edgeKind) ∈ d.removedEdges then count
    else step count) outgoing

def maskIncidentBaseEdges (d : GraphDelta W) (base : GraphAccessor W) (name : String) : GraphDelta W :=
  { d with maskedBaseEdgeCount := stepIncident (fun count => count.add 1) d base name }

def unmaskIncidentBaseEdges (d : GraphDelta W) (base : GraphAccessor W) (name : String) : GraphDelta W :=
  { d with maskedBaseEdgeCount := stepIncident (fun count => count.sub 1) d base name }

def upsertNode (d : GraphDelta W) (base : GraphAccessor W) (nd : NodeData W) : GraphDelta W :=
  let inBase := (base.getNode nd.name).isSome
  let tombstoned := nd.name ∈ d.removedNodes
  let d := { d with removedNodes := d.removedNodes.erase nd.name }
  let d := if tombstoned ∧ inBase then
      unmaskIncidentBaseEdges { d with tombstoneBaseHits := d.tombstoneBaseHits.sub 1 } base nd.name
    else d
  let newly := !d.addedNodes.containsKey nd.name
  let d := { d with addedNodes := d.addedNodes.insert nd.name nd }
  if newly && !inBase then { d with addedNonBase := d.addedNonBase.add 1 } else d

/- Mark the edge at position `p` dead when it is live and matches. Positions come from the
side indices, which only ever hold positions below the length. -/
def killEdge (hit : DeltaEdge W → Bool) (d : GraphDelta W) (p : Nat) : GraphDelta W :=
  match d.addedEdges[p]? with
  | some e => if !e.dead && hit e then
      { d with
        addedEdges := d.addedEdges.set p { e with dead := true }
        liveDeltaEdgeCount := d.liveDeltaEdgeCount.sub 1 }
    else d
  | none => d

def removeNode (d : GraphDelta W) (base : GraphAccessor W) (name : String) : GraphDelta W :=
  let inBase := (base.getNode name).isSome
  let shadowed := d.addedNodes.containsKey name
  let d := { d with addedNodes := d.addedNodes.shiftRemove name }
  let d := if shadowed && !inBase then { d with addedNonBase := d.addedNonBase.sub 1 } else d
  let newlyTombstoned := name ∉ d.removedNodes
  let d := if newlyTombstoned ∧ inBase then
      let d := maskIncidentBaseEdges d base name
      { d with tombstoneBaseHits := d.tombstoneBaseHits.add 1 }
    else d
  let d := { d with removedNodes := insert name d.removedNodes }
  (d.outIndex name ++ d.inIndex name).foldl (killEdge (fun _ => true)) d

def addEdge (d : GraphDelta W) (fromName toName : String) (edge : EdgeData W) : GraphDelta W :=
  let p := asU32 d.addedEdges.length
  { d with
    outIndex := Function.update d.outIndex fromName (d.outIndex fromName ++ [p])
    inIndex := Function.update d.inIndex toName (d.inIndex toName ++ [p])
    addedEdges := d.addedEdges ++ [⟨fromName,toName,edge.normalized,false⟩]
    liveDeltaEdgeCount := d.liveDeltaEdgeCount.add 1 }

def countLiveBaseEdgesMatching (d : GraphDelta W) (base : GraphAccessor W)
    (fromName toName kind : String) : Nat :=
  if fromName ∈ d.removedNodes ∨ toName ∈ d.removedNodes then 0
  else ((base.outgoingNeighbors fromName).filter
    (fun nb => nb.targetName == toName && nb.edgeKind == kind)).length

def removeEdge (d : GraphDelta W) (base : GraphAccessor W) (fromName toName kind : String) :
    GraphDelta W :=
  let d := (d.outIndex fromName).foldl
    (killEdge (fun e => e.toName == toName && e.edge.kind == kind)) d
  if (fromName,toName,kind) ∈ d.removedEdges then d
  else
    let d := { d with removedEdges := insert (fromName,toName,kind) d.removedEdges }
    { d with maskedBaseEdgeCount :=
        d.maskedBaseEdgeCount.add (countLiveBaseEdgesMatching d base fromName toName kind) }

def applyOp (base : GraphAccessor W) (d : GraphDelta W) : Op W → GraphDelta W
  | .upsertNode nd => d.upsertNode base nd
  | .removeNode name => d.removeNode base name
  | .addEdge fromName toName edge => d.addEdge fromName toName edge
  | .removeEdge fromName toName kind => d.removeEdge base fromName toName kind

def replay (d : GraphDelta W) (base : GraphAccessor W) (ops : List (Op W)) : GraphDelta W :=
  ops.foldl (applyOp base) d

/-! Pass 1, over the presence of nodes as the batch would leave it. -/
abbrev Scratch := String → Option Bool

def isPresent (d : GraphDelta W) (scratch : Scratch) (base : GraphAccessor W) (x : String) : Bool :=
  match scratch x with
  | some p => p
  | none => d.addedNodes.containsKey x || (x ∉ d.removedNodes && (base.getNode x).isSome)

def isTombstoned (d : GraphDelta W) (scratch : Scratch) (x : String) : Bool :=
  match scratch x with
  | some present => !present
  | none => x ∈ d.removedNodes

def checkAddEdge (d : GraphDelta W) (base : GraphAccessor W) (scratch : Scratch) (i : Nat)
    (fromName toName : String) (edge : EdgeData W) : Except DeltaError Unit :=
  match edge.validFrom, edge.validTo with
  | some vf, some vt =>
    if vf > vt then .error (.invalidEdgeValidity i fromName toName vf vt) else endpoints
  | _, _ => endpoints
where
  endpoints : Except DeltaError Unit :=
    if !d.isPresent scratch base fromName then
      .error (.missingEndpoint i fromName toName fromName (d.isTombstoned scratch fromName))
    else if !d.isPresent scratch base toName then
      .error (.missingEndpoint i fromName toName toName (d.isTombstoned scratch toName))
    else .ok ()

def validate (d : GraphDelta W) (base : GraphAccessor W) : List (Op W) → Nat → Scratch →
    Except DeltaError Unit
  | [], _, _ => .ok ()
  | .upsertNode nd :: rest, i, scratch =>
    validate d base rest (i+1) (Function.update scratch nd.name (some true))
  | .removeNode name :: rest, i, scratch =>
    validate d base rest (i+1) (Function.update scratch name (some false))
  | .addEdge fromName toName edge :: rest, i, scratch => do
    checkAddEdge d base scratch i fromName toName edge
    validate d base rest (i+1) scratch
  | .removeEdge _ _ _ :: rest, i, scratch => validate d base rest (i+1) scratch

def apply (d : GraphDelta W) (base : GraphAccessor W) (ops : List (Op W)) :
    Except DeltaError (GraphDelta W) := do
  validate d base ops 0 (fun _ => none)
  return d.replay base ops

end GraphDelta

/-! The merged view. Its counts are read off the counters. -/
namespace DeltaAccessor
variable (base : GraphAccessor W) (delta : GraphDelta W)

def nodeCount : Usize :=
  (Usize.ofNat (base.nodeCount + delta.addedNonBase.val)).sub delta.tombstoneBaseHits.val

def edgeCount : Usize :=
  (Usize.ofNat (base.edgeCount + delta.liveDeltaEdgeCount.val)).sub delta.maskedBaseEdgeCount.val

def getNode (name : String) : Option (NodeView W) :=
  match (if !delta.addedNodes.isEmpty then delta.addedNodes.get name else none) with
  | some nd => some (NodeView.ofData nd)
  | none => if delta.removedNodes ≠ ∅ ∧ name ∈ delta.removedNodes then none else base.getNode name

def outgoingNeighbors (name : String) : List (NeighborView W) :=
  if delta.isEmpty then base.outgoingNeighbors name
  else if delta.removedNodes ≠ ∅ ∧ name ∈ delta.removedNodes then []
  else
    let out := base.outgoingNeighbors name
    let out := if delta.removedNodes ≠ ∅ ∨ delta.removedEdges ≠ ∅ then
        out.filter (fun nb => ¬ (delta.removedNodes ≠ ∅ ∧ nb.targetName ∈ delta.removedNodes) ∧
          ¬ (delta.removedEdges ≠ ∅ ∧ (name,nb.targetName,nb.edgeKind) ∈ delta.removedEdges))
      else out
    out ++ (delta.outIndex name).filterMap (fun p => do
      let e ← delta.addedEdges[p]?
      if e.dead ∨ (delta.removedNodes ≠ ∅ ∧ e.toName ∈ delta.removedNodes) then none
      else some (NeighborView.ofEdge e.toName e.edge))

def incomingNeighbors (name : String) : List (NeighborView W) :=
  if delta.isEmpty then base.incomingNeighbors name
  else if delta.removedNodes ≠ ∅ ∧ name ∈ delta.removedNodes then []
  else
    let inc := base.incomingNeighbors name
    let inc := if delta.removedNodes ≠ ∅ ∨ delta.removedEdges ≠ ∅ then
        inc.filter (fun nb => ¬ (delta.removedNodes ≠ ∅ ∧ nb.targetName ∈ delta.removedNodes) ∧
          ¬ (delta.removedEdges ≠ ∅ ∧ (nb.targetName,name,nb.edgeKind) ∈ delta.removedEdges))
      else inc
    inc ++ (delta.inIndex name).filterMap (fun p => do
      let e ← delta.addedEdges[p]?
      if e.dead ∨ (delta.removedNodes ≠ ∅ ∧ e.fromName ∈ delta.removedNodes) then none
      else some (NeighborView.ofEdge e.fromName e.edge))

end DeltaAccessor

def deltaAccessor (base : GraphAccessor W) (delta : GraphDelta W) : GraphAccessor W where
  nodeCount := (DeltaAccessor.nodeCount base delta).val
  edgeCount := (DeltaAccessor.edgeCount base delta).val
  getNode := DeltaAccessor.getNode base delta
  outgoingNeighbors := DeltaAccessor.outgoingNeighbors base delta
  incomingNeighbors := DeltaAccessor.incomingNeighbors base delta

/-! Flattening the merged view. The `seen` set of the source holds exactly the names
already pushed, so membership in `names` stands for it. -/
def pushUnseen (names : List String) (n : String) : List String :=
  if n ∈ names then names else names ++ [n]

def liveNames (baseNodeNames : List String) (delta : GraphDelta W) : List String :=
  let names := baseNodeNames.foldl (fun names n =>
    if delta.addedNodes.containsKey n ∨ n ∈ delta.removedNodes then names
    else pushUnseen names n) []
  delta.addedNodes.keys.foldl pushUnseen names

def edgeInput (fromName : String) (nb : NeighborView W) : EdgeInput W :=
  ⟨fromName,nb.targetName,nb.edgeKind,nb.fieldName,nb.edgeWeight,nb.validFrom,nb.validTo,nb.acl⟩

def materialize (base : GraphAccessor W) (baseNodeNames : List String) (delta : GraphDelta W) :
    List (NodeInput W) × List (EdgeInput W) :=
  let acc := deltaAccessor base delta
  let names := liveNames baseNodeNames delta
  (names.filterMap (fun name => (acc.getNode name).map NodeView.unranked),
    names.flatMap (fun name => (acc.outgoingNeighbors name).map (edgeInput name)))

end OrpheusGraph
