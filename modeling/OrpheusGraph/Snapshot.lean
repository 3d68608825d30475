import OrpheusGraph.Graph
import OrpheusGraph.Lib.Csr
import OrpheusGraph.Lib.Probing
import Mathlib.Data.Nat.Log

/-! The indexed snapshot: its writer, its validator, the accessor that reads it in place
and the owned rebuild. Lengths and contents are arbitrary until the validator has
accepted them, so every array is read through an option. The name hash is a parameter. -/
namespace OrpheusGraph
variable {W : Type}

/- Metadata is a key-sorted list here. -/
structure CsrNode (W : Type) where
  name : String
  kind : String
  metadata : List (String × String)
  baseWeight : W
  noisePenalty : W
  pagerankWeight : W

structure CsrEdge (W : Type) where
  fromIdx : Nat
  toIdx : Nat
  kind : String
  fieldName : Option String
  baseWeight : W
  validFrom : Option Nat
  validTo : Option Nat
  acl : List String

structure SerializableGraphV2 (W : Type) where
  nodes : List (CsrNode W)
  edges : List (CsrEdge W)
  nodeOffsets : List Nat
  inOffsets : List Nat
  inMirror : List Nat
  nameBuckets : List Nat

def CsrNode.fromNodeData (nd : NodeData W) : CsrNode W :=
  ⟨nd.name,nd.kind,nd.metadata.toList,nd.baseWeight,nd.noisePenalty,nd.pagerankWeight⟩

def CsrNode.intoNodeData (n : CsrNode W) : NodeData W :=
  ⟨n.name,n.kind,.ofList n.metadata,n.baseWeight,n.noisePenalty,n.pagerankWeight⟩

def CsrNode.view (n : CsrNode W) : NodeView W :=
  ⟨n.name,n.kind,n.baseWeight,n.noisePenalty,n.pagerankWeight,.ofList n.metadata⟩

theorem metadataReturns (m : Metadata) : Std.ExtTreeMap.ofList m.toList = m := by
  refine Std.ExtTreeMap.ext_getElem? (fun k => ?_)
  cases found : m[k]? with
  | some v =>
    exact Std.ExtTreeMap.getElem?_ofList_of_mem Std.ReflCmp.compare_self
      Std.ExtTreeMap.distinct_keys_toList (Std.ExtTreeMap.mem_toList_iff_getElem?_eq_some.mpr found)
  | none =>
    apply Std.ExtTreeMap.getElem?_ofList_of_contains_eq_false
    rw [List.contains_eq_mem,decide_eq_false_iff_not]
    intro member
    obtain ⟨x,listed,rfl⟩ := List.mem_map.mp member
    have held : (x.1,x.2) ∈ m.toList := listed
    rw [Std.ExtTreeMap.mem_toList_iff_getElem?_eq_some.mp held] at found
    contradiction

def CsrEdge.data (e : CsrEdge W) : EdgeData W :=
  ⟨e.kind,e.fieldName,e.baseWeight,e.validFrom,e.validTo,e.acl⟩

def CsrEdge.ofData (fromIdx toIdx : Nat) (ed : EdgeData W) : CsrEdge W :=
  ⟨fromIdx,toIdx,ed.kind,ed.fieldName,ed.baseWeight,ed.validFrom,ed.validTo,ed.acl⟩

def u32Max : Nat := 2 ^ 32 - 1
def usizeMax : Nat := 2 ^ 64 - 1

def emptyBucket : Nat := u32Max

def fnv1a (name : String) : Nat :=
  (name.toUTF8.data.foldl (fun h b => (h ^^^ b.toUInt64) * 0x100000001b3)
    (0xcbf29ce484222325 : UInt64)).toNat

def nextPowerOfTwo (n : Nat) : Nat := 2 ^ Nat.clog 2 n

/- Every step saturates; the fallback to `want` is the overflow of the power. -/
def bucketCapacity (n : Nat) : Nat :=
  let want := max (min (min (n * 10) usizeMax / 7 + 1) usizeMax) (min (n + 1) usizeMax)
  let power := if nextPowerOfTwo want ≤ usizeMax then nextPowerOfTwo want else want
  max power 2

/-! The writer. -/

/- The insertion loop looks for an empty slot without a bound. Once every slot has been
looked at it would go round for ever, which is the `none`. -/
def findEmpty (buckets : List Nat) (mask : Nat) : Nat → Nat → Option Nat
  | 0, _ => none
  | left+1, slot =>
    if buckets[slot]? = some emptyBucket then some slot
    else findEmpty buckets mask left ((slot + 1) &&& mask)

def insertBucket (hash : String → Nat) (m : Nat) (buckets : List Nat) (entry : String × Nat) :
    Option (List Nat) := do
  let slot ← findEmpty buckets (m - 1) m (hash entry.1 &&& (m - 1))
  return buckets.set slot (asU32 entry.2)

def buildNameBuckets (hash : String → Nat) (names : List String) : Option (List Nat) :=
  let m := bucketCapacity names.length
  names.zipIdx.foldlM (insertBucket hash m) (List.replicate m emptyBucket)

/- The comparison of weights by bit pattern is a total order. -/
class TotalCmp (W : Type) where
  totalCmp : W → W → Ordering
  lawful : Std.TransCmp totalCmp

def CsrEdge.cmp [TotalCmp W] (a b : CsrEdge W) : Ordering :=
  (compare a.fromIdx b.fromIdx).then <|
  (compare a.toIdx b.toIdx).then <|
  (compare a.kind b.kind).then <|
  (compare a.fieldName b.fieldName).then <|
  (TotalCmp.totalCmp a.baseWeight b.baseWeight).then <|
  (compare a.validFrom b.validFrom).then <|
  (compare a.validTo b.validTo).then <|
  compare a.acl b.acl

def targetOf (edges : List (CsrEdge W)) (k : Nat) : Nat := (edges[k]?).elim 0 CsrEdge.toIdx

def mirrorCmp (edges : List (CsrEdge W)) (x y : Nat) : Ordering :=
  (compare (targetOf edges x) (targetOf edges y)).then (compare x y)

def csrEdge (names : List String) (index : IndexMap String Nat) (e : Nat × Nat × EdgeData W) :
    Option (CsrEdge W) := do
  let source ← names[e.1]?
  let target ← names[e.2.1]?
  let i ← index.get source
  let j ← index.get target
  return .ofData (asU32 i) (asU32 j) e.2.2

/- `none` is a panicking index or a name table that is never finished. -/
def toRkyvV2 [TotalCmp W] (hash : String → Nat) (g : OrpheusGraphInner W) :
    Option (SerializableGraphV2 W) := do
  let nodes := g.graph.nodes.mergeSort (fun a b => decide (a.name ≤ b.name))
  let n := nodes.length
  let nameToIdx := indexNodes nodes
  let listed ← g.graph.edges.mapM (csrEdge g.names nameToIdx)
  let edges := listed.mergeSort (fun a b => (a.cmp b).isLE)
  let nodeOffsets := Csr.offsetsOf n (edges.map CsrEdge.fromIdx)
  let inMirror := (List.range (asU32 edges.length)).mergeSort (fun x y => (mirrorCmp edges x y).isLE)
  let inOffsets := Csr.offsetsOf n (edges.map CsrEdge.toIdx)
  let nameBuckets ← buildNameBuckets hash (nodes.map NodeData.name)
  return ⟨nodes.map CsrNode.fromNodeData,edges,nodeOffsets,inOffsets,inMirror,nameBuckets⟩

def fromRkyvRebuildV2 (sg : SerializableGraphV2 W) : OrpheusGraphInner W :=
  rebuildFromSerialized (sg.nodes.map CsrNode.intoNodeData)
    (sg.edges.map (fun e => (e.fromIdx,e.toIdx,e.data)))

/-! The accessor. A probe reports how it ended, a row how each of its reads did. -/
inductive ProbeEnd where
  | hit (idx : Nat)
  | empty
  | slotOutside
  | nodeOutside
  | exhausted
  deriving DecidableEq, Repr

def ProbeEnd.index : ProbeEnd → Option Nat
  | .hit idx => some idx
  | _ => none

inductive Read (α : Type) where
  | item (a : α)
  | skip
  | stop

def scanRow {α : Type} (read : Nat → Read α) : List Nat → List α
  | [] => []
  | k::rest => match read k with
    | .stop => []
    | .skip => scanRow read rest
    | .item a => a::scanRow read rest

namespace SerializableGraphV2

def nodeNames (sg : SerializableGraphV2 W) : List String := sg.nodes.map CsrNode.name

def probe (sg : SerializableGraphV2 W) (name : String) (mask : Nat) : Nat → Nat → ProbeEnd
  | 0, _ => .exhausted
  | left+1, slot => match sg.nameBuckets[slot]? with
    | none => .slotOutside
    | some bucket =>
      if bucket = emptyBucket then .empty
      else match sg.nodes[bucket]? with
        | none => .nodeOutside
        | some node =>
          if node.name = name then .hit bucket
          else sg.probe name mask left ((slot + 1) &&& mask)

def probeEnd (hash : String → Nat) (sg : SerializableGraphV2 W) (name : String) : ProbeEnd :=
  let m := sg.nameBuckets.length
  sg.probe name (m - 1) m (hash name &&& (m - 1))

def idxOf (hash : String → Nat) (sg : SerializableGraphV2 W) (name : String) : Option Nat :=
  if sg.nameBuckets.length = 0 then none else (sg.probeEnd hash name).index

def readOutgoing (sg : SerializableGraphV2 W) (k : Nat) : Read (NeighborView W) :=
  match sg.edges[k]? with
  | none => .stop
  | some edge => match sg.nodes[edge.toIdx]? with
    | none => .skip
    | some target => .item (.ofEdge target.name edge.data)

def readIncoming (sg : SerializableGraphV2 W) (k : Nat) : Read (NeighborView W) :=
  match sg.inMirror[k]? with
  | none => .stop
  | some m => match sg.edges[m]? with
    | none => .skip
    | some edge => match sg.nodes[edge.fromIdx]? with
      | none => .skip
      | some source => .item (.ofEdge source.name edge.data)

def row (offsets : List Nat) (read : Nat → Read (NeighborView W)) (idx : Nat) : List (NeighborView W) :=
  match offsets[idx]?, offsets[idx+1]? with
  | some lo, some hi => scanRow read (List.range' lo (hi - lo))
  | _, _ => []

/- The memory-mapped view. -/
def archivedCsrView (hash : String → Nat) (sg : SerializableGraphV2 W) : GraphAccessor W where
  nodeCount := sg.nodes.length
  edgeCount := sg.edges.length
  getNode name := do
    let idx ← sg.idxOf hash name
    let node ← sg.nodes[idx]?
    return node.view
  outgoingNeighbors name := match sg.idxOf hash name with
    | none => []
    | some idx => row sg.nodeOffsets sg.readOutgoing idx
  incomingNeighbors name := match sg.idxOf hash name with
    | none => []
    | some idx => row sg.inOffsets sg.readIncoming idx

end SerializableGraphV2

end OrpheusGraph
