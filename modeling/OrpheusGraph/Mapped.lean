import OrpheusGraph.Validate

/-! Reading an accepted snapshot in place: every array access lands inside its array, a
name resolves to its node and to nothing else, and both adjacency directions list the
stored edges. -/
namespace OrpheusGraph

def Read.value {α : Type} : Read α → Option α
  | .item a => some a
  | _ => none

theorem scanAll {α : Type} {read : Nat → Read α} {ks : List Nat} (items : ∀ k ∈ ks, ∃ a, read k = .item a) :
    scanRow read ks = ks.filterMap (fun k => (read k).value) := by
  induction ks with
  | nil => rfl
  | cons k ks ih =>
    obtain ⟨a,here⟩ := items k List.mem_cons_self
    rw [scanRow,here,ih (fun j later => items j (List.mem_cons_of_mem k later)),
      List.filterMap_cons_some (by rw [here]; rfl)]

namespace SerializableGraphV2
variable {W : Type} {hash : String → Nat} {sg : SerializableGraphV2 W}

def named (sg : SerializableGraphV2 W) (name : String) (i : Nat) : Bool :=
  decide ((sg.nodes[i]?).map CsrNode.name = some name)

def ended : Probing.Outcome Nat → ProbeEnd
  | .found i => .hit i
  | .empty => .empty
  | .exhausted => .exhausted

theorem WellFormed.distinct (wf : sg.WellFormed hash) : sg.nodeNames.Nodup :=
  wf.sorted.imp ne_of_lt

theorem WellFormed.nonempty (wf : sg.WellFormed hash) : 0 < sg.nameBuckets.length :=
  Nat.zero_lt_of_lt wf.room

theorem WellFormed.wraps (wf : sg.WellFormed hash) (x : Nat) :
    x &&& (sg.nameBuckets.length - 1) = x % sg.nameBuckets.length := by
  obtain ⟨k,power⟩ := wf.power
  rw [power,Nat.and_two_pow_sub_one_eq_mod]

theorem nodeNamed (name : String) (i : Nat) : sg.named name i = true ↔
    ∃ node, sg.nodes[i]? = some node ∧ node.name = name := by
  rw [named,decide_eq_true_eq,Option.map_eq_some_iff]

/- The probe of the view is the library's walk over the cells. -/
theorem WellFormed.probeWalks (wf : sg.WellFormed hash) (name : String) (fuel : Nat) {slot : Nat}
    (inside : slot < sg.nameBuckets.length) :
    sg.probe name (sg.nameBuckets.length - 1) fuel slot =
      ended (Probing.walk (cell sg.nameBuckets) (sg.named name) sg.nameBuckets.length fuel slot) := by
  induction fuel generalizing slot with
  | zero => rfl
  | succ fuel ih =>
    have read := List.getElem?_eq_getElem inside
    generalize sg.nameBuckets[slot] = bucket at read
    have next := ih (show (slot + 1) % sg.nameBuckets.length < sg.nameBuckets.length from Nat.mod_lt _ wf.nonempty)
    rw [probe,Probing.walk,read,wf.wraps]
    cases decEq bucket emptyBucket with
    | isTrue vacant =>
      rw [(cellNone read).mpr vacant]
      simp only [if_pos vacant]
      rfl
    | isFalse other =>
      have here : cell sg.nameBuckets slot = some bucket := cellSome.mpr ⟨read,other⟩
      have node := List.getElem?_eq_getElem (wf.inside slot bucket here)
      rw [here]
      simp only [if_neg other,node,named,Option.map_some,Option.some.injEq,decide_eq_true_eq]
      split
      · rfl
      · exact next

theorem WellFormed.sameIndex (wf : sg.WellFormed hash) {name : String} {i j : Nat}
    (left : sg.named name i = true) (right : sg.named name j = true) : i = j := by
  simp only [named,decide_eq_true_eq,← List.getElem?_map] at left right
  exact (List.getElem?_inj (List.getElem?_eq_some_iff.mp left).1 wf.distinct).mp (left.trans right.symm)

theorem WellFormed.probeHits (wf : sg.WellFormed hash) {name : String} {i : Nat}
    (here : sg.named name i = true) : sg.probeEnd hash name = .hit i := by
  obtain ⟨node,read,same⟩ := (nodeNamed name i).mp here
  obtain ⟨slot,placed⟩ := wf.placed i (List.getElem?_eq_some_iff.mp read).1
  have inSlot := cellInside placed
  have inHome := homeInside hash wf.nonempty name
  have clear := wf.reachable i node slot read placed
  rw [same,Probing.pathClear _ inHome inSlot] at clear
  obtain ⟨reaches,short⟩ := Probing.distanceReaches inHome inSlot
  have passed : ∀ j < Probing.distance sg.nameBuckets.length (sg.home hash name) slot,
      ∃ a, cell sg.nameBuckets ((sg.home hash name + j) % sg.nameBuckets.length) = some a ∧
        sg.named name a = false := by
    intro j before
    obtain ⟨a,held⟩ := Option.isSome_iff_exists.mp (clear j before)
    refine ⟨a,held,Bool.eq_false_iff.mpr (fun hits => ?_)⟩
    cases wf.sameIndex hits here
    -- an earlier slot with the same number would be the slot itself
    have early := wf.once _ _ _ held placed
    have nearby : j < sg.nameBuckets.length := by omega
    rw [← early,Probing.distanceOf inHome nearby] at before
    exact Nat.lt_irrefl j before
  have finds := Probing.walkFinds inHome passed (by rw [reaches]; exact placed) here short
  have walks := wf.probeWalks name sg.nameBuckets.length inHome
  rw [finds] at walks
  exact walks

theorem WellFormed.probeMisses (wf : sg.WellFormed hash) {name : String}
    (absent : ∀ i, sg.named name i = false) : sg.probeEnd hash name = .empty := by
  have inHome := homeInside hash wf.nonempty name
  have misses := Probing.walkMisses inHome (fun slot _ a _ => absent a)
    (Probing.freeCell wf.inside wf.once wf.room)
  have walks := wf.probeWalks name sg.nameBuckets.length inHome
  rw [misses] at walks
  exact walks

theorem WellFormed.probeEnds (wf : sg.WellFormed hash) (name : String) :
    sg.probeEnd hash name = .empty ∨ ∃ i, sg.probeEnd hash name = .hit i := by
  cases Classical.em (∃ i, sg.named name i = true) with
  | inl found =>
    obtain ⟨i,here⟩ := found
    exact .inr ⟨i,wf.probeHits here⟩
  | inr none => exact .inl (wf.probeMisses (fun i => Bool.eq_false_iff.mpr (fun here => none ⟨i,here⟩)))

/- A name resolves to the node that carries it. -/
theorem WellFormed.idxExact (wf : sg.WellFormed hash) (name : String) (i : Nat) :
    sg.idxOf hash name = some i ↔ (sg.nodes[i]?).map CsrNode.name = some name := by
  rw [idxOf,if_neg (Nat.ne_of_gt wf.nonempty)]
  constructor
  · intro found
    cases Classical.em (∃ j, sg.named name j = true) with
    | inl holds =>
      obtain ⟨j,here⟩ := holds
      rw [wf.probeHits here] at found
      cases Option.some.inj found
      exact of_decide_eq_true here
    | inr none =>
      rw [wf.probeMisses (fun j => Bool.eq_false_iff.mpr (fun here => none ⟨j,here⟩))] at found
      contradiction
  · intro here
    rw [wf.probeHits (decide_eq_true here)]
    rfl

/-! Rows. -/
/- The neighbour view of an edge whose other end is `far`. -/
def neighbor (sg : SerializableGraphV2 W) (far : CsrEdge W → Nat) (e : CsrEdge W) :
    Option (NeighborView W) :=
  (sg.nodes[far e]?).map (fun other => .ofEdge other.name e.data)

def storedEdge (sg : SerializableGraphV2 W) (m : Nat) : Option (NeighborView W) :=
  (sg.edges[m]?).bind (sg.neighbor CsrEdge.fromIdx)

theorem outgoingValue (sg : SerializableGraphV2 W) (k : Nat) :
    (sg.readOutgoing k).value = (sg.edges[k]?).bind (sg.neighbor CsrEdge.toIdx) := by
  unfold readOutgoing neighbor
  cases sg.edges[k]? with
  | none => rfl
  | some e => cases target : sg.nodes[e.toIdx]? <;> simp [target,Read.value]

theorem incomingValue (sg : SerializableGraphV2 W) (k : Nat) :
    (sg.readIncoming k).value = (sg.inMirror[k]?).bind sg.storedEdge := by
  unfold readIncoming storedEdge neighbor
  cases sg.inMirror[k]? with
  | none => rfl
  | some m =>
    cases found : sg.edges[m]? with
    | none => simp [found,Read.value]
    | some e => cases source : sg.nodes[e.fromIdx]? <;> simp [found,source,Read.value]

/- The reads of a row stay inside every array. -/
def RowRead (offsets : List Nat) (read : Nat → Read (NeighborView W)) (i : Nat) : Prop :=
  ∃ lo hi, offsets[i]? = some lo ∧ offsets[i+1]? = some hi ∧ lo ≤ hi ∧
    ∀ k, lo ≤ k → k < hi → ∃ v, read k = .item v

theorem WellFormed.outgoingRead (wf : sg.WellFormed hash) {i : Nat} (inside : i < sg.nodes.length) :
    RowRead sg.nodeOffsets sg.readOutgoing i := by
  obtain ⟨lo,low⟩ := wf.outgoing.entry (i := i) (by omega)
  obtain ⟨hi,high⟩ := wf.outgoing.entry (i := i + 1) (by omega)
  have bound := wf.outgoing.bounded (i := i + 1) (by omega) high
  refine ⟨lo,hi,low,high,wf.outgoing.rising i inside lo hi low high,fun k _ upper => ?_⟩
  have read := List.getElem?_eq_getElem (l := sg.edges) (i := k) (by omega)
  have target := (wf.endpoints _ (List.mem_of_getElem? read)).2
  rw [readOutgoing,read]
  simp only [List.getElem?_eq_getElem target]
  exact ⟨_,rfl⟩

theorem WellFormed.incomingRead (wf : sg.WellFormed hash) {i : Nat} (inside : i < sg.nodes.length) :
    RowRead sg.inOffsets sg.readIncoming i := by
  obtain ⟨lo,low⟩ := wf.incoming.entry (i := i) (by omega)
  obtain ⟨hi,high⟩ := wf.incoming.entry (i := i + 1) (by omega)
  have bound := wf.incoming.bounded (i := i + 1) (by omega) high
  refine ⟨lo,hi,low,high,wf.incoming.rising i inside lo hi low high,fun k _ upper => ?_⟩
  have read := List.getElem?_eq_getElem (l := sg.inMirror) (i := k) (by omega)
  have known := List.mem_range.mp (wf.mirror.mem_iff.mp (List.mem_of_getElem? read))
  have found := List.getElem?_eq_getElem known
  have source := (wf.endpoints _ (List.mem_of_getElem? found)).1
  rw [readIncoming,read]
  simp only [found,List.getElem?_eq_getElem source]
  exact ⟨_,rfl⟩

/- A row is the slice its offsets cut out of the list that is read. -/
theorem rowSlice {α : Type} {xs : List α} {h : α → Option (NeighborView W)} {offsets : List Nat}
    {read : Nat → Read (NeighborView W)} {n i : Nat} {key : α → Nat} (grouped : Csr.Grouped key n xs offsets)
    (inside : i < n) (good : RowRead offsets read i) (value : ∀ k, (read k).value = (xs[k]?).bind h) :
    row offsets read i = (xs.filter (fun x => key x == i)).filterMap h := by
  obtain ⟨lo,hi,low,high,_,items⟩ := good
  rw [row,low,high,← grouped.sliceExact inside low high]
  simp only
  rw [scanAll (fun k member => items k (List.mem_range'_1.mp member).1
    (by have := List.mem_range'_1.mp member; omega))]
  simp only [value]
  exact Csr.filterMapRange xs h lo (hi - lo)

theorem WellFormed.outgoingRow (wf : sg.WellFormed hash) {i : Nat} (inside : i < sg.nodes.length) :
    row sg.nodeOffsets sg.readOutgoing i =
      (sg.edges.filter (fun e => e.fromIdx == i)).filterMap (sg.neighbor CsrEdge.toIdx) :=
  rowSlice wf.outgoing inside (wf.outgoingRead inside) sg.outgoingValue

theorem WellFormed.incomingRow (wf : sg.WellFormed hash) {i : Nat} (inside : i < sg.nodes.length) :
    (row sg.inOffsets sg.readIncoming i).Perm
      ((sg.edges.filter (fun e => e.toIdx == i)).filterMap (sg.neighbor CsrEdge.fromIdx)) := by
  rw [rowSlice wf.incoming inside (wf.incomingRead inside) sg.incomingValue]
  have numbered : ((List.range sg.edges.length).filter (fun m => targetOf sg.edges m == i)).filterMap
      sg.storedEdge =
        (sg.edges.filter (fun e => e.toIdx == i)).filterMap (sg.neighbor CsrEdge.fromIdx) := by
    have whole := Csr.filterMapRange sg.edges (fun e =>
      if e.toIdx == i then sg.neighbor CsrEdge.fromIdx e else none) 0 sg.edges.length
    rw [List.drop_zero,List.take_length] at whole
    rw [List.filterMap_filter,List.filterMap_filter,List.range_eq_range',← whole]
    refine List.filterMap_congr (fun m member => ?_)
    have inside : m < sg.edges.length := by
      have := List.mem_range'_1.mp member
      omega
    simp only [targetOf,storedEdge,List.getElem?_eq_getElem inside,Option.elim_some,Option.bind_some]
  rw [← numbered]
  exact (wf.mirror.filter _).filterMap _

def nameAt (sg : SerializableGraphV2 W) (i : Nat) : String := ((sg.nodes[i]?).map CsrNode.name).getD ""

theorem nodeAt {i : Nat} (inside : i < sg.nodes.length) :
    (sg.nodes[i]?).map CsrNode.name = some (sg.nameAt i) := by
  simp [nameAt,List.getElem?_eq_getElem inside]

theorem neighborsNamed {far : CsrEdge W → Nat} {es : List (CsrEdge W)}
    (inside : ∀ e ∈ es, far e < sg.nodes.length) :
    es.filterMap (sg.neighbor far) = es.map (fun e => .ofEdge (sg.nameAt (far e)) e.data) := by
  rw [← List.filterMap_eq_map]
  refine List.filterMap_congr (fun e member => ?_)
  simp [neighbor,nameAt,List.getElem?_eq_getElem (inside e member)]

theorem WellFormed.idxAt (wf : sg.WellFormed hash) {i : Nat} (inside : i < sg.nodes.length) :
    sg.idxOf hash (sg.nameAt i) = some i := (wf.idxExact _ i).mpr (nodeAt inside)

theorem WellFormed.outgoingStored (wf : sg.WellFormed hash) {i : Nat} (inside : i < sg.nodes.length) :
    (sg.archivedCsrView hash).outgoingNeighbors (sg.nameAt i) =
      (sg.edges.filter (fun e => e.fromIdx == i)).map (fun e => .ofEdge (sg.nameAt e.toIdx) e.data) := by
  rw [archivedCsrView]
  simp only [wf.idxAt inside]
  rw [wf.outgoingRow inside]
  exact neighborsNamed (fun e member => (wf.endpoints e (List.mem_of_mem_filter member)).2)

theorem WellFormed.incomingStored (wf : sg.WellFormed hash) {i : Nat} (inside : i < sg.nodes.length) :
    ((sg.archivedCsrView hash).incomingNeighbors (sg.nameAt i)).Perm
      ((sg.edges.filter (fun e => e.toIdx == i)).map (fun e => .ofEdge (sg.nameAt e.fromIdx) e.data)) := by
  rw [archivedCsrView]
  simp only [wf.idxAt inside]
  rw [← neighborsNamed (fun e member => (wf.endpoints e (List.mem_of_mem_filter member)).1)]
  exact wf.incomingRow inside

/-! The owned rebuild of the same snapshot. -/
theorem rebuildNames (sg : SerializableGraphV2 W) : (fromRkyvRebuildV2 sg).names = sg.nodeNames := by
  rw [OrpheusGraphInner.names,fromRkyvRebuildV2,rebuildFromSerialized,List.map_map]
  rfl

theorem WellFormed.rebuilt (wf : sg.WellFormed hash) : (fromRkyvRebuildV2 sg).Indexed :=
  rebuildIndexed (by rw [List.map_map]; exact wf.distinct) _

theorem WellFormed.rebuildEdges (wf : sg.WellFormed hash) :
    (fromRkyvRebuildV2 sg).graph.edges = sg.edges.map (fun e => (e.fromIdx,e.toIdx,e.data)) := by
  rw [fromRkyvRebuildV2,rebuildFromSerialized]
  refine List.filter_eq_self.mpr (fun x member => ?_)
  obtain ⟨e,listed,rfl⟩ := List.mem_map.mp member
  simpa using wf.endpoints e listed

theorem rebuildNode (sg : SerializableGraphV2 W) (i : Nat) :
    (fromRkyvRebuildV2 sg).graph.nodes[i]? = (sg.nodes[i]?).map CsrNode.intoNodeData :=
  List.getElem?_map

theorem WellFormed.sameIdx (wf : sg.WellFormed hash) (name : String) :
    (fromRkyvRebuildV2 sg).indexMap.get name = sg.idxOf hash name := by
  refine Option.ext (fun i => ?_)
  rw [wf.rebuilt,wf.idxExact,rebuildNode,Option.map_map]
  rfl

theorem WellFormed.rebuildListed (wf : sg.WellFormed hash) (adjacency : Order) {name : String} {i : Nat}
    (found : sg.idxOf hash name = some i) (direction : Direction) (near far : CsrEdge W → Nat)
    (nears : ∀ e, direction.near (e.fromIdx,e.toIdx,e.data) = near e)
    (fars : ∀ e, direction.far (e.fromIdx,e.toIdx,e.data) = far e) :
    ((fromRkyvRebuildV2 sg).graphNeighbors adjacency name direction).Perm
      ((sg.edges.filter (fun e => near e == i)).filterMap (sg.neighbor far)) := by
  rw [OrpheusGraphInner.graphNeighbors,wf.sameIdx,found]
  simp only
  refine ((adjacency.perm _).filterMap _).trans (.of_eq ?_)
  rw [wf.rebuildEdges,List.filter_map,List.filterMap_map]
  have keys : (fun e : CsrEdge W => near e == i) =
      (fun e => direction.near e == i) ∘ (fun e : CsrEdge W => (e.fromIdx,e.toIdx,e.data)) := by
    funext e
    simp only [Function.comp,nears]
  rw [keys]
  refine List.filterMap_congr (fun e _ => ?_)
  simp only [Function.comp,fars,rebuildNode,neighbor,Option.map_map]
  rfl

/- The mapped view and the owned rebuild present the same graph. -/
theorem WellFormed.agreesRebuilt (wf : sg.WellFormed hash) (adjacency : Order) :
    Agrees (sg.archivedCsrView hash) ((fromRkyvRebuildV2 sg).accessor adjacency) where
  nodes n := by
    simp only [archivedCsrView,OrpheusGraphInner.accessor,OrpheusGraphInner.getNode,
      OrpheusGraphInner.getIndex,wf.sameIdx,rebuildNode]
    cases sg.idxOf hash n with
    | none => rfl
    | some i => cases read : sg.nodes[i]? <;> simp [read,CsrNode.view,CsrNode.intoNodeData,NodeView.ofData]
  nodeCount := (List.length_map CsrNode.intoNodeData).symm
  edgeCount := by
    rw [OrpheusGraphInner.accessor,wf.rebuildEdges,List.length_map,archivedCsrView]
  outgoing n := by
    cases found : sg.idxOf hash n with
    | none =>
      have none : (fromRkyvRebuildV2 sg).indexMap.get n = none := by rw [wf.sameIdx,found]
      simp [archivedCsrView,OrpheusGraphInner.accessor,OrpheusGraphInner.graphNeighbors,found,none]
    | some i =>
      have inside := (List.getElem?_eq_some_iff.mp
        (Option.map_eq_some_iff.mp ((wf.idxExact n i).mp found)).choose_spec.1).1
      have owned := wf.rebuildListed adjacency found .outgoing CsrEdge.fromIdx CsrEdge.toIdx
        (fun _ => rfl) (fun _ => rfl)
      rw [archivedCsrView]
      simp only [found]
      rw [wf.outgoingRow inside]
      exact owned.symm
  incoming n := by
    cases found : sg.idxOf hash n with
    | none =>
      have none : (fromRkyvRebuildV2 sg).indexMap.get n = none := by rw [wf.sameIdx,found]
      simp [archivedCsrView,OrpheusGraphInner.accessor,OrpheusGraphInner.graphNeighbors,found,none]
    | some i =>
      have inside := (List.getElem?_eq_some_iff.mp
        (Option.map_eq_some_iff.mp ((wf.idxExact n i).mp found)).choose_spec.1).1
      have owned := wf.rebuildListed adjacency found .incoming CsrEdge.toIdx CsrEdge.fromIdx
        (fun _ => rfl) (fun _ => rfl)
      rw [archivedCsrView]
      simp only [found]
      exact (wf.incomingRow inside).trans owned.symm

theorem WellFormed.mirrored (wf : sg.WellFormed hash) :
    Mirror.Mirrored sg.nodeNames (sg.archivedCsrView hash).outPairs (sg.archivedCsrView hash).incPairs := by
  have agrees := wf.agreesRebuilt .insertion
  have owned := ((fromRkyvRebuildV2 sg).named .insertion wf.rebuilt).mirrored
  rw [← rebuildNames]
  exact owned.reorder (fun n => (agrees.outgoing n).map _) (fun n => (agrees.incoming n).map _)

/- An accepted snapshot is read without any fallback. -/
structure ReadsInside (hash : String → Nat) (sg : SerializableGraphV2 W) : Prop where
  table : sg.nameBuckets.length ≠ 0
  probe : ∀ name, sg.probeEnd hash name = .empty ∨ ∃ i, sg.probeEnd hash name = .hit i
  node : ∀ name i, sg.idxOf hash name = some i → i < sg.nodes.length
  outgoing : ∀ i < sg.nodes.length, RowRead sg.nodeOffsets sg.readOutgoing i
  incoming : ∀ i < sg.nodes.length, RowRead sg.inOffsets sg.readIncoming i

theorem validateSound {debug : String → String} (accepted : sg.validateCsr debug hash = .ok ()) :
    ReadsInside hash sg ∧
      (∀ name i, sg.idxOf hash name = some i ↔ (sg.nodes[i]?).map CsrNode.name = some name) ∧
      sg.nodeNames.Nodup ∧
      (∀ i < sg.nodes.length, (sg.archivedCsrView hash).outgoingNeighbors (sg.nameAt i) =
        (sg.edges.filter (fun e => e.fromIdx == i)).map
          (fun e => .ofEdge (sg.nameAt e.toIdx) e.data)) ∧
      (∀ j < sg.nodes.length, ((sg.archivedCsrView hash).incomingNeighbors (sg.nameAt j)).Perm
        ((sg.edges.filter (fun e => e.toIdx == j)).map
          (fun e => .ofEdge (sg.nameAt e.fromIdx) e.data))) ∧
      Mirror.Mirrored sg.nodeNames (sg.archivedCsrView hash).outPairs
        (sg.archivedCsrView hash).incPairs := by
  have wf := (validateExact debug hash sg).mp accepted
  refine ⟨⟨wf.nonempty.ne',wf.probeEnds,?_,fun i => wf.outgoingRead,fun i => wf.incomingRead⟩,
    wf.idxExact,wf.distinct,fun i => wf.outgoingStored,fun j => wf.incomingStored,wf.mirrored⟩
  intro name i found
  obtain ⟨node,read,_⟩ := Option.map_eq_some_iff.mp ((wf.idxExact name i).mp found)
  exact (List.getElem?_eq_some_iff.mp read).1

/- Both names hash to the last cell, so the second wraps round. -/
def collided : SerializableGraphV2 Unit where
  nodes := [⟨"a","module",[],(),(),()⟩,⟨"b","module",[("lang","rust")],(),(),()⟩]
  edges := [⟨0,0,"calls",none,(),none,none,[]⟩,⟨0,1,"calls",none,(),none,none,[]⟩]
  nodeOffsets := [0,2,2]
  inOffsets := [0,1,2]
  inMirror := [0,1]
  nameBuckets := [1,emptyBucket,emptyBucket,0]

theorem collidedSound : collided.validateCsr id (fun _ => 3) = .ok () ∧
    (collided.archivedCsrView (fun _ => 3)).incomingNeighbors (collided.nameAt 1) =
      [⟨"a","calls",none,(),none,none,[]⟩] := by
  have accepted : collided.validateCsr id (fun _ => 3) = .ok () := by decide +kernel
  obtain ⟨_,_,_,_,incoming,_⟩ := validateSound accepted
  exact ⟨accepted,List.perm_singleton.mp (incoming 1 (by decide))⟩

end SerializableGraphV2
end OrpheusGraph
