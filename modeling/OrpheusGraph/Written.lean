import OrpheusGraph.Mapped
import OrpheusGraph.Lib.Sorting

/-! What the snapshot writer produces: it finishes, the validator accepts it, and both
readers return the graph it was written from. -/
namespace OrpheusGraph
variable {W : Type}

/-! The name table. -/
theorem clogBound {n k : Nat} (small : n ≤ 2 ^ k) : nextPowerOfTwo n ≤ 2 ^ k :=
  Nat.pow_le_pow_right (by omega) (Nat.clog_le_of_le_pow small)

theorem capacityExact {n : Nat} (small : n ≤ u32Max) :
    ∃ k, bucketCapacity n = 2 ^ k ∧ n < bucketCapacity n := by
  have limit : n ≤ 2 ^ 32 - 1 := small
  have want : max (min (min (n * 10) usizeMax / 7 + 1) usizeMax) (min (n + 1) usizeMax) =
      max (n * 10 / 7 + 1) (n + 1) := by
    have top : usizeMax = 2 ^ 64 - 1 := rfl
    rw [top]
    omega
  have power : nextPowerOfTwo (max (n * 10 / 7 + 1) (n + 1)) ≤ usizeMax := by
    have low : nextPowerOfTwo (max (n * 10 / 7 + 1) (n + 1)) ≤ 2 ^ 33 := clogBound (by omega)
    have top : usizeMax = 2 ^ 64 - 1 := rfl
    rw [top]
    omega
  have covers : max (n * 10 / 7 + 1) (n + 1) ≤ nextPowerOfTwo (max (n * 10 / 7 + 1) (n + 1)) :=
    Nat.le_pow_clog (by omega) _
  rw [bucketCapacity]
  simp only [want,if_pos power]
  rcases Nat.lt_or_ge (nextPowerOfTwo (max (n * 10 / 7 + 1) (n + 1))) 2 with tiny | large
  · exact ⟨1,by omega,by omega⟩
  · exact ⟨Nat.clog 2 (max (n * 10 / 7 + 1) (n + 1)),by rw [Nat.max_eq_left large]; rfl,by omega⟩

open SerializableGraphV2 in
theorem findEmptyPlaces {buckets : List Nat} {m p : Nat} (power : m = 2 ^ p) (length : buckets.length = m)
    (fuel : Nat) {slot : Nat} (inside : slot < m) :
    findEmpty buckets (m - 1) fuel slot = Probing.place (cell buckets) m fuel slot := by
  induction fuel generalizing slot with
  | zero => rfl
  | succ fuel ih =>
    have wraps : (slot + 1) &&& (m - 1) = (slot + 1) % m := by
      rw [power,Nat.and_two_pow_sub_one_eq_mod]
    have read := List.getElem?_eq_getElem (l := buckets) (i := slot) (by omega)
    rw [findEmpty,Probing.place,wraps,ih (Nat.mod_lt _ (by omega))]
    refine if_congr ?_ rfl rfl
    rw [Option.isNone_iff_eq_none,cellNone read,read,Option.some.injEq]

open SerializableGraphV2 in
theorem cellSet {buckets : List Nat} {s k : Nat} (inside : s < buckets.length) (small : k < u32Max) :
    cell (buckets.set s k) = Function.update (cell buckets) s (some k) := by
  funext x
  cases decEq x s with
  | isTrue same =>
    subst same
    rw [Function.update_self,cellSome]
    exact ⟨List.getElem?_set_self inside,Nat.ne_of_lt small⟩
  | isFalse other => rw [Function.update_of_ne other,cell,cell,List.getElem?_set_ne (Ne.symm other)]

theorem asU32Small {k : Nat} (small : k ≤ u32Max) : asU32 k = k := by
  have limit : k ≤ 2 ^ 32 - 1 := small
  exact Nat.mod_eq_of_lt (by omega)

def homeOf (hash : String → Nat) (names : List String) (m i : Nat) : Nat :=
  hash ((names[i]?).getD "") &&& (m - 1)

open SerializableGraphV2 in
theorem insertAll (hash : String → Nat) {names : List String} {m p : Nat} (power : m = 2 ^ p)
    (room : names.length < m) (small : names.length ≤ u32Max) (rest : List String) (k : Nat)
    (buckets : List Nat) (left : names.drop k = rest) (length : buckets.length = m)
    (filled : Probing.Filled (homeOf hash names m) m k (cell buckets)) :
    ∃ out, (rest.zipIdx k).foldlM (insertBucket hash m) buckets = some out ∧ out.length = m ∧
      Probing.Filled (homeOf hash names m) m (k + rest.length) (cell out) := by
  induction rest generalizing k buckets with
  | nil => exact ⟨buckets,rfl,length,filled⟩
  | cons name rest ih =>
    have bound : k < names.length := by
      by_contra beyond
      rw [List.drop_eq_nil_of_le (by omega)] at left
      contradiction
    have here : names[k]? = some name := by
      have head := congrArg List.head? left
      rwa [List.head?_drop] at head
    have tail : names.drop (k + 1) = rest := by
      rw [← List.tail_drop,left]
      rfl
    have inHome : homeOf hash names m k < m := by
      have most : homeOf hash names m k ≤ m - 1 := Nat.and_le_right
      omega
    obtain ⟨s,inside,found,next⟩ := filled.insert (by omega) inHome
    have step : insertBucket hash m buckets (name,k) = some (buckets.set s k) := by
      have start : hash name &&& (m - 1) = homeOf hash names m k := by rw [homeOf,here]; rfl
      rw [insertBucket,start,findEmptyPlaces power length m inHome,found]
      simp only [asU32Small (k := k) (by omega)]
      rfl
    rw [← cellSet (by omega) (by omega)] at next
    obtain ⟨out,run,size,done⟩ := ih (k + 1) (buckets.set s k) tail (by rw [List.length_set,length]) next
    refine ⟨out,?_,size,?_⟩
    · rw [List.zipIdx_cons,List.foldlM_cons,step]
      exact run
    · have count : k + (name :: rest).length = k + 1 + rest.length := by
        rw [List.length_cons]; omega
      rw [count]
      exact done

open SerializableGraphV2 in
theorem buildBuckets (hash : String → Nat) (names : List String) (small : names.length ≤ u32Max) :
    ∃ out, buildNameBuckets hash names = some out ∧ out.length = bucketCapacity names.length ∧
      Probing.Filled (homeOf hash names out.length) out.length names.length (cell out) := by
  obtain ⟨p,power,room⟩ := capacityExact small
  have vacant : cell (List.replicate (bucketCapacity names.length) emptyBucket) = fun _ => none := by
    funext s
    rw [cell,List.getElem?_replicate]
    split <;> simp [Option.filter]
  obtain ⟨out,run,length,filled⟩ := insertAll hash power room small names 0
    (List.replicate (bucketCapacity names.length) emptyBucket) List.drop_zero List.length_replicate
    (by rw [vacant]; exact .start _ _)
  refine ⟨out,run,length,?_⟩
  rw [length]
  rwa [Nat.zero_add] at filled

/-! Sorting. -/
theorem edgeCmpLawful [TotalCmp W] : Std.TransCmp (CsrEdge.cmp (W := W)) := by
  let weights : Ord W := ⟨TotalCmp.totalCmp⟩
  have lawful : Std.TransOrd W := TotalCmp.lawful
  exact inferInstanceAs (Std.TransCmp (compareLex (compareOn CsrEdge.fromIdx)
    (compareLex (compareOn CsrEdge.toIdx) (compareLex (compareOn CsrEdge.kind)
    (compareLex (compareOn CsrEdge.fieldName) (compareLex (compareOn CsrEdge.baseWeight)
    (compareLex (compareOn CsrEdge.validFrom) (compareLex (compareOn CsrEdge.validTo)
    (compareOn CsrEdge.acl)))))))))

theorem mirrorCmpLawful (edges : List (CsrEdge W)) : Std.TransCmp (mirrorCmp edges) :=
  inferInstanceAs (Std.TransCmp (compareLex (compareOn (targetOf edges)) (compareOn id)))

theorem leOfThen {a b : Nat} {o : Ordering} (le : ((compare a b).then o).isLE = true) : a ≤ b :=
  Nat.isLE_compare.mp (Ordering.isLE_then_iff_and.mp le).1

theorem mapMSome {α β : Type} {f : α → Option β} {h : α → β} {xs : List α} (all : ∀ x ∈ xs, f x = some (h x)) :
    xs.mapM f = some (xs.map h) := by
  induction xs with
  | nil => rfl
  | cons x xs ih =>
    rw [List.mapM_cons,all x List.mem_cons_self,ih (fun y later => all y (List.mem_cons_of_mem x later))]
    rfl

theorem nodeReturns (nd : NodeData W) : (CsrNode.fromNodeData nd).intoNodeData = nd := by
  rw [CsrNode.fromNodeData,CsrNode.intoNodeData,metadataReturns]

/-! The parts of the written snapshot, named as the writer computes them. -/
section writer
variable (g : OrpheusGraphInner W)

def namedNodes : List (NodeData W) := g.graph.nodes.mergeSort (fun a b => decide (a.name ≤ b.name))

def rank (k : Nat) : Nat := ((indexNodes (namedNodes g)).get (g.nameAt k)).getD 0

def rankedEdges : List (CsrEdge W) :=
  g.graph.edges.map (fun e => .ofData (rank g e.1) (rank g e.2.1) e.2.2)

def sortedEdges [TotalCmp W] : List (CsrEdge W) := (rankedEdges g).mergeSort (fun a b => (a.cmp b).isLE)

def sortedMirror (edges : List (CsrEdge W)) : List Nat :=
  (List.range edges.length).mergeSort (fun x y => (mirrorCmp edges x y).isLE)

def snapshot [TotalCmp W] (buckets : List Nat) : SerializableGraphV2 W where
  nodes := (namedNodes g).map CsrNode.fromNodeData
  edges := sortedEdges g
  nodeOffsets := Csr.offsetsOf (namedNodes g).length ((sortedEdges g).map CsrEdge.fromIdx)
  inOffsets := Csr.offsetsOf (namedNodes g).length ((sortedEdges g).map CsrEdge.toIdx)
  inMirror := sortedMirror (sortedEdges g)
  nameBuckets := buckets

variable {g}

theorem namedNodesPerm (g : OrpheusGraphInner W) : (namedNodes g).Perm g.graph.nodes :=
  List.mergeSort_perm _ _

theorem namedNames (distinct : g.names.Nodup) : ((namedNodes g).map NodeData.name).Pairwise (· < ·) := by
  have sorted : (namedNodes g).Pairwise (fun a b => decide (a.name ≤ b.name) = true) := by
    refine List.pairwise_mergeSort (fun a b c left right => ?_) (fun a b => ?_) g.graph.nodes
    · exact decide_eq_true ((of_decide_eq_true left).trans (of_decide_eq_true right))
    · rw [Bool.or_eq_true,decide_eq_true_eq,decide_eq_true_eq]
      exact le_total a.name b.name
  have once : ((namedNodes g).map NodeData.name).Nodup :=
    ((namedNodesPerm g).map NodeData.name).nodup_iff.mpr distinct
  have ordered : ((namedNodes g).map NodeData.name).Pairwise (· ≤ ·) :=
    List.pairwise_map.mpr (sorted.imp of_decide_eq_true)
  exact (ordered.and once).imp (fun both => lt_of_le_of_ne both.1 both.2)

theorem rankExact (distinct : g.names.Nodup) {k : Nat} (inside : k < g.graph.nodes.length) :
    (indexNodes (namedNodes g)).get (g.nameAt k) = some (rank g k) ∧ rank g k < (namedNodes g).length ∧
      ((namedNodes g)[rank g k]?).map NodeData.name = some (g.nameAt k) := by
  have once : ((namedNodes g).map NodeData.name).Nodup := (namedNames distinct).imp ne_of_lt
  have listed : g.nameAt k ∈ (namedNodes g).map NodeData.name :=
    ((namedNodesPerm g).map NodeData.name).mem_iff.mpr (OrpheusGraphInner.nameAtMember inside)
  obtain ⟨i,read⟩ := List.mem_iff_getElem?.mp listed
  rw [List.getElem?_map] at read
  have found := (indexNodesExact once (g.nameAt k) i).mpr read
  have same : rank g k = i := by rw [rank,found]; rfl
  rw [same]
  obtain ⟨nd,here,_⟩ := Option.map_eq_some_iff.mp read
  exact ⟨found,(List.getElem?_eq_some_iff.mp here).1,read⟩

theorem namedLength (g : OrpheusGraphInner W) : (namedNodes g).length = g.graph.nodes.length :=
  (namedNodesPerm g).length_eq

theorem sortedEdgesPerm [TotalCmp W] (g : OrpheusGraphInner W) : (sortedEdges g).Perm (rankedEdges g) :=
  List.mergeSort_perm _ _

theorem sortedEdgesLength [TotalCmp W] (g : OrpheusGraphInner W) :
    (sortedEdges g).length = g.graph.edges.length := by
  rw [(sortedEdgesPerm g).length_eq,rankedEdges,List.length_map]

/- The writer finishes. -/
theorem writes [TotalCmp W] (hash : String → Nat) (distinct : g.names.Nodup)
    (nodesFit : g.graph.nodes.length ≤ u32Max) (edgesFit : g.graph.edges.length ≤ u32Max) :
    ∃ buckets, buildNameBuckets hash ((namedNodes g).map NodeData.name) = some buckets ∧
      toRkyvV2 hash g = some (snapshot g buckets) := by
  obtain ⟨buckets,built,_⟩ := buildBuckets hash ((namedNodes g).map NodeData.name)
    (by rw [List.length_map,namedLength]; exact nodesFit)
  refine ⟨buckets,built,?_⟩
  have listed : g.graph.edges.mapM (csrEdge g.names (indexNodes (namedNodes g))) =
      some (rankedEdges g) := by
    refine mapMSome (fun e member => ?_)
    obtain ⟨source,target⟩ := g.graph.inRange e member
    have left := OrpheusGraphInner.nodeAt source
    have right := OrpheusGraphInner.nodeAt target
    rw [← List.getElem?_map] at left right
    obtain ⟨foundLeft,boundLeft,_⟩ := rankExact distinct source
    obtain ⟨foundRight,boundRight,_⟩ := rankExact distinct target
    rw [namedLength] at boundLeft boundRight
    rw [csrEdge,OrpheusGraphInner.names,left,right]
    simp only [Option.bind_eq_bind,Option.bind_some,foundLeft,foundRight,
      asU32Small (boundLeft.le.trans nodesFit),asU32Small (boundRight.le.trans nodesFit)]
    rfl
  have width : asU32 (sortedEdges g).length = (sortedEdges g).length :=
    asU32Small (by rw [sortedEdgesLength]; exact edgesFit)
  have nodes : g.graph.nodes.mergeSort (fun a b => decide (a.name ≤ b.name)) = namedNodes g := rfl
  have edges : (rankedEdges g).mergeSort (fun a b => (a.cmp b).isLE) = sortedEdges g := rfl
  rw [toRkyvV2]
  simp only [nodes,listed,edges,built,width,Option.bind_eq_bind,Option.bind_some]
  rfl

theorem rankedInside (distinct : g.names.Nodup) : ∀ e ∈ rankedEdges g,
    e.fromIdx < (namedNodes g).length ∧ e.toIdx < (namedNodes g).length := by
  intro e member
  obtain ⟨x,listed,rfl⟩ := List.mem_map.mp member
  obtain ⟨source,target⟩ := g.graph.inRange x listed
  exact ⟨(rankExact distinct source).2.1,(rankExact distinct target).2.1⟩

theorem targetsListed (edges : List (CsrEdge W)) :
    (List.range edges.length).map (targetOf edges) = edges.map CsrEdge.toIdx := by
  refine List.ext_getElem? (fun k => ?_)
  rw [List.getElem?_map,List.getElem?_map]
  rcases Nat.lt_or_ge k edges.length with inside | outside
  · rw [List.getElem?_range inside,List.getElem?_eq_getElem inside]
    simp [targetOf,List.getElem?_eq_getElem inside]
  · simp [outside]

open SerializableGraphV2 in
theorem snapshotWellFormed [TotalCmp W] {hash : String → Nat} (distinct : g.names.Nodup)
    (fit : g.graph.nodes.length ≤ u32Max) {buckets : List Nat}
    (built : buildNameBuckets hash ((namedNodes g).map NodeData.name) = some buckets) :
    (snapshot g buckets).WellFormed hash := by
  have fits : ((namedNodes g).map NodeData.name).length ≤ u32Max := by
    rw [List.length_map,namedLength]; exact fit
  obtain ⟨p,power,room⟩ := capacityExact fits
  obtain ⟨out,run,length,filled⟩ := buildBuckets hash _ fits
  cases Option.some.inj (built.symm.trans run)
  have count : (snapshot g buckets).nodes.length = ((namedNodes g).map NodeData.name).length := by
    rw [snapshot,List.length_map,List.length_map]
  have names : (snapshot g buckets).nodeNames = (namedNodes g).map NodeData.name := by
    rw [nodeNames,snapshot,List.map_map]
    rfl
  have ends : ∀ e ∈ sortedEdges g, e.fromIdx < (namedNodes g).length ∧ e.toIdx < (namedNodes g).length :=
    fun e member => rankedInside distinct e ((sortedEdgesPerm g).mem_iff.mp member)
  have nodes : (snapshot g buckets).nodes.length = (namedNodes g).length := List.length_map _
  refine ⟨?_,?_,?_,?_,?_,filled.once,?_,?_,?_,?_,List.mergeSort_perm _ _,?_⟩
  · rw [names]
    exact namedNames distinct
  · rw [count]
    exact length
  · exact ⟨p,length.trans power⟩
  · rw [count]
    exact room.trans_eq length.symm
  · intro slot i found
    rw [count]
    exact (filled.inside slot i found).2
  · intro i inside
    rw [count] at inside
    exact filled.placed i inside
  · intro i node slot read found
    have bound := (filled.inside slot i found).1
    have home : homeOf hash ((namedNodes g).map NodeData.name) buckets.length i =
        (snapshot g buckets).home hash node.name := by
      have named : ((namedNodes g).map NodeData.name)[i]? = some node.name := by
        rw [← names,nodeNames,List.getElem?_map,read]
        rfl
      rw [homeOf,named]
      rfl
    have path := filled.reachable slot i found
    rw [home] at path
    exact (Probing.pathClear _ (homeInside hash (Nat.zero_lt_of_lt bound) node.name) bound).mpr path
  · rw [nodes]
    exact ends
  · rw [nodes]
    refine Csr.groupedOfSorted ?_ (fun e member => (ends e member).1)
    exact (Sorting.sortedBy edgeCmpLawful (rankedEdges g)).imp leOfThen
  · have sorted := (Sorting.sortedBy (mirrorCmpLawful (sortedEdges g))
      (List.range (sortedEdges g).length)).imp leOfThen
    have bound : ∀ m ∈ sortedMirror (sortedEdges g), targetOf (sortedEdges g) m < (namedNodes g).length := by
      intro m member
      have inside := List.mem_range.mp ((List.mergeSort_perm _ _).mem_iff.mp member)
      rw [targetOf,List.getElem?_eq_getElem inside]
      exact (ends _ (List.getElem_mem inside)).2
    have keys : ((sortedEdges g).map CsrEdge.toIdx).Perm
        ((sortedMirror (sortedEdges g)).map (targetOf (sortedEdges g))) := by
      rw [← targetsListed]
      exact (List.mergeSort_perm _ _).symm.map _
    rw [nodes,snapshot]
    simp only
    rw [Csr.offsetsOfPerm keys]
    exact Csr.groupedOfSorted sorted bound

theorem rebuiltNodes [TotalCmp W] (buckets : List Nat) :
    (fromRkyvRebuildV2 (snapshot g buckets)).graph.nodes = namedNodes g := by
  rw [fromRkyvRebuildV2,rebuildFromSerialized,snapshot,List.map_map]
  exact (List.map_congr_left (fun nd _ => nodeReturns nd)).trans (List.map_id _)

/- The owned rebuild of the written snapshot is the graph itself, re-numbered. -/
theorem rebuildReturns [TotalCmp W] {hash : String → Nat} {buckets : List Nat} (ok : g.Indexed)
    (wf : (snapshot g buckets).WellFormed hash) (adjacency adjacency' : Order) :
    Agrees ((fromRkyvRebuildV2 (snapshot g buckets)).accessor adjacency) (g.accessor adjacency') := by
  refine OrpheusGraphInner.agreesOfPerm wf.rebuilt ok adjacency adjacency' ?_ ?_
  · rw [rebuiltNodes]
    exact namedNodesPerm g
  · have numbered : ∀ k < g.graph.nodes.length,
        (fromRkyvRebuildV2 (snapshot g buckets)).nameAt (rank g k) = g.nameAt k := by
      intro k inside
      rw [OrpheusGraphInner.nameAt,rebuiltNodes,(rankExact ok.distinct inside).2.2]
      rfl
    rw [OrpheusGraphInner.namedEdges,wf.rebuildEdges,List.map_map]
    refine ((sortedEdgesPerm g).map _).trans (.of_eq ?_)
    rw [rankedEdges,List.map_map]
    refine List.map_congr_left (fun e member => ?_)
    obtain ⟨source,target⟩ := g.graph.inRange e member
    have left := numbered e.1 source
    have right := numbered e.2.1 target
    simp only [Function.comp,CsrEdge.ofData,CsrEdge.data,left,right]

end writer

open SerializableGraphV2 in
theorem writtenAgrees [TotalCmp W] (hash : String → Nat) (adjacency : Order) {g : OrpheusGraphInner W}
    (ok : g.Indexed) (nodesFit : g.graph.nodes.length ≤ u32Max) (edgesFit : g.graph.edges.length ≤ u32Max) :
    ∃ sg : SerializableGraphV2 W, toRkyvV2 hash g = some sg ∧
      Agrees (sg.archivedCsrView hash) (g.accessor adjacency) := by
  obtain ⟨buckets,built,written⟩ := writes hash ok.distinct nodesFit edgesFit
  have wf := snapshotWellFormed ok.distinct nodesFit built
  exact ⟨_,written,(wf.agreesRebuilt adjacency).trans (rebuildReturns ok wf adjacency adjacency)⟩

open SerializableGraphV2 in
theorem readersAgree [TotalCmp W] (debug : String → String) (hash : String → Nat) (adjacency adjacency' : Order) :
    (∀ g : OrpheusGraphInner W, g.Indexed → g.graph.nodes.length < u32Max →
      g.graph.edges.length < u32Max →
      ∃ sg : SerializableGraphV2 W, toRkyvV2 hash g = some sg ∧ sg.validateCsr debug hash = .ok () ∧
        (∀ i < sg.nodes.length, (∃! slot : Nat, sg.nameBuckets[slot]? = some i) ∧
          sg.probeEnd hash (sg.nameAt i) = .hit i) ∧
        Agrees (sg.archivedCsrView hash) (g.accessor adjacency') ∧
        Agrees ((fromRkyvRebuildV2 sg).accessor adjacency) (g.accessor adjacency')) ∧
    ∀ sg : SerializableGraphV2 W, sg.validateCsr debug hash = .ok () →
      Agrees (sg.archivedCsrView hash) ((fromRkyvRebuildV2 sg).accessor adjacency) := by
  refine ⟨fun g ok nodesFit edgesFit => ?_,fun sg accepted => ?_⟩
  · obtain ⟨buckets,built,written⟩ := writes hash ok.distinct nodesFit.le edgesFit.le
    have wf := snapshotWellFormed ok.distinct nodesFit.le built
    have returns := rebuildReturns ok wf adjacency adjacency'
    refine ⟨_,written,(validateExact debug hash _).mpr wf,fun i inside => ⟨?_,?_⟩,
      (wf.agreesRebuilt adjacency).trans returns,returns⟩
    · obtain ⟨slot,held⟩ := wf.placed i inside
      have small : i ≠ emptyBucket := (cellSome.mp held).2
      refine ⟨slot,(cellSome.mp held).1,fun other read => ?_⟩
      exact wf.once other slot i (cellSome.mpr ⟨read,small⟩) held
    · exact wf.probeHits (decide_eq_true (nodeAt inside))
  · exact ((validateExact debug hash sg).mp accepted).agreesRebuilt adjacency

instance : TotalCmp Unit := ⟨fun _ _ => .eq,inferInstanceAs (Std.TransCmp (compareOn (fun _ : Unit => 0)))⟩

/- A self-loop and two parallel edges, inserted out of order. -/
def tangled : OrpheusGraphInner Unit :=
  rebuildFromSerialized [⟨"b","module",∅,(),(),()⟩,⟨"a","module",∅,(),(),()⟩]
    [(1,0,⟨"calls",none,(),none,none,["ops"]⟩),(0,0,⟨"calls",none,(),none,none,[]⟩),
      (1,0,⟨"calls",none,(),none,none,["dev"]⟩)]

theorem tangledReturns : ∃ sg, toRkyvV2 (fun _ => 7) tangled = some sg ∧
    sg.validateCsr id (fun _ => 7) = .ok () ∧
    Agrees (sg.archivedCsrView (fun _ => 7)) ((fromRkyvRebuildV2 sg).accessor .newestFirst) := by
  obtain ⟨write,read⟩ := readersAgree (W := Unit) id (fun _ => 7) .newestFirst .insertion
  obtain ⟨sg,written,accepted,_⟩ := write tangled (rebuildIndexed (by decide) _) (by decide) (by decide)
  exact ⟨sg,written,accepted,read sg accepted⟩

end OrpheusGraph
