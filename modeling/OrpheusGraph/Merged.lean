import OrpheusGraph.History

/-! The merged view presents the history, and is again a named graph: its two directions
mirror each other and its counters are its counts. -/
namespace OrpheusGraph
variable {W : Type}

namespace Merged
variable {base : NamedGraph W} {h : List (Op W)} {d : GraphDelta W}

theorem mentions {α : Type} (s : Finset α) (x : α) : (s ≠ ∅ ∧ x ∈ s) ↔ x ∈ s :=
  ⟨fun both => both.2,fun member => ⟨Finset.ne_empty_of_mem member,member⟩⟩

theorem getNodeShape (base : GraphAccessor W) (d : GraphDelta W) (n : String) :
    (deltaAccessor base d).getNode n = match d.addedNodes.get n with
      | some nd => some (NodeView.ofData nd)
      | none => if n ∈ d.removedNodes then none else base.getNode n := by
  have shadow : (if !d.addedNodes.isEmpty then d.addedNodes.get n else none) = d.addedNodes.get n := by
    cases none : d.addedNodes.isEmpty with
    | true => simp [IndexMap.getOfIsEmpty none]
    | false => rfl
  change DeltaAccessor.getNode base d n = _
  unfold DeltaAccessor.getNode
  rw [shadow]
  cases d.addedNodes.get n with
  | some nd => rfl
  | none => exact if_congr (mentions _ _) rfl rfl

theorem getNodeExact {base : GraphAccessor W} (r : Represents base h d) (n : String) :
    (deltaAccessor base d).getNode n = nodeAfter base h n := by
  have removed := r.removed n
  rw [getNodeShape,r.added n]
  unfold nodeAfter
  rcases last : lastOn n h with _ | _ | nd <;> simp_all [Option.join]

/- Skipping the filter when both tombstone sets are empty changes nothing. -/
theorem maskShape (d : GraphDelta W) (key : NeighborView W → String × String × String)
    (nbs : List (NeighborView W)) :
    (if d.removedNodes ≠ ∅ ∨ d.removedEdges ≠ ∅ then
        nbs.filter (fun nb => ¬ (d.removedNodes ≠ ∅ ∧ nb.targetName ∈ d.removedNodes) ∧
          ¬ (d.removedEdges ≠ ∅ ∧ key nb ∈ d.removedEdges))
      else nbs) =
      nbs.filter (fun nb => nb.targetName ∉ d.removedNodes ∧ key nb ∉ d.removedEdges) := by
  simp only [mentions]
  split
  · rfl
  · rename_i none
    obtain ⟨noNode,noEdge⟩ := not_or.mp none
    simp only [not_not] at noNode noEdge
    simp [noNode,noEdge]

/- The indexed delta edges that are not dead, as the history lists them. -/
theorem indexedSurvivors (es : List (DeltaEdge W)) (p : DeltaEdge W → Bool) (q : NamedEdge W → Bool)
    (same : ∀ e, p e = q (e.fromName,e.toName,e.edge)) (cut : NamedEdge W → Bool)
    (view : NamedEdge W → NeighborView W) :
    (Positions.positions p es).filterMap (fun i => es[i]?.bind (fun e =>
        if e.dead || cut (e.fromName,e.toName,e.edge) then none
        else some (view (e.fromName,e.toName,e.edge)))) =
      (((surviving es).filter q).filter (fun s => !cut s)).map view := by
  rw [Positions.filterMapPositions]
  induction es with
  | nil => rfl
  | cons e es ih =>
    rw [List.filter_cons,same]
    cases mine : q (e.fromName,e.toName,e.edge) <;> cases dead : e.dead <;>
      cases gone : cut (e.fromName,e.toName,e.edge) <;>
      simp only [surviving,List.filter_cons,List.filterMap_cons,List.map_cons,mine,dead,gone,
        Bool.or_self,Bool.or_true,Bool.true_or,Bool.not_true,Bool.not_false,if_true,
        Bool.false_eq_true,if_false] at ih ⊢ <;>
      simp only [ih]

theorem outgoingShape (base : GraphAccessor W) {h : List (Op W)} {d : GraphDelta W}
    (i : Indexed h d) (f : String) :
    (deltaAccessor base d).outgoingNeighbors f = if f ∈ d.removedNodes then [] else
      (base.outgoingNeighbors f).filter (fun nb => nb.targetName ∉ d.removedNodes ∧
        (f,nb.targetName,nb.edgeKind) ∉ d.removedEdges) ++
      (((survivors h).filter (fun s => s.1 == f)).filter (fun s => !decide (s.2.1 ∈ d.removedNodes))).map
        (fun s => NeighborView.ofEdge s.2.1 s.2.2) := by
  have delta := indexedSurvivors d.addedEdges (fun e => e.fromName == f) (fun s => s.1 == f)
    (fun _ => rfl) (fun s => decide (s.2.1 ∈ d.removedNodes)) (fun s => NeighborView.ofEdge s.2.1 s.2.2)
  change DeltaAccessor.outgoingNeighbors base d f = _
  simp only [DeltaAccessor.outgoingNeighbors]
  rw [maskShape d (fun nb => (f,nb.targetName,nb.edgeKind)),← i.live,← delta,i.out]
  split
  · rename_i nothing
    simp only [GraphDelta.isEmpty,Bool.and_eq_true,List.isEmpty_iff,decide_eq_true_eq] at nothing
    obtain ⟨⟨⟨_,noEdges⟩,noNodes⟩,noTriples⟩ := nothing
    simp [noEdges,noNodes,noTriples]
  · simp only [mentions,Bool.or_eq_true,decide_eq_true_eq]
    rfl

theorem incomingShape (base : GraphAccessor W) {h : List (Op W)} {d : GraphDelta W}
    (i : Indexed h d) (t : String) :
    (deltaAccessor base d).incomingNeighbors t = if t ∈ d.removedNodes then [] else
      (base.incomingNeighbors t).filter (fun nb => nb.targetName ∉ d.removedNodes ∧
        (nb.targetName,t,nb.edgeKind) ∉ d.removedEdges) ++
      (((survivors h).filter (fun s => s.2.1 == t)).filter (fun s => !decide (s.1 ∈ d.removedNodes))).map
        (fun s => NeighborView.ofEdge s.1 s.2.2) := by
  have delta := indexedSurvivors d.addedEdges (fun e => e.toName == t) (fun s => s.2.1 == t)
    (fun _ => rfl) (fun s => decide (s.1 ∈ d.removedNodes)) (fun s => NeighborView.ofEdge s.1 s.2.2)
  change DeltaAccessor.incomingNeighbors base d t = _
  simp only [DeltaAccessor.incomingNeighbors]
  rw [maskShape d (fun nb => (nb.targetName,t,nb.edgeKind)),← i.live,← delta,i.inc]
  split
  · rename_i nothing
    simp only [GraphDelta.isEmpty,Bool.and_eq_true,List.isEmpty_iff,decide_eq_true_eq] at nothing
    obtain ⟨⟨⟨_,noEdges⟩,noNodes⟩,noTriples⟩ := nothing
    simp [noEdges,noNodes,noTriples]
  · simp only [mentions,Bool.or_eq_true,decide_eq_true_eq]
    rfl

/- A base node is present after the history unless it is tombstoned. -/
theorem basePresent (r : Represents base.toGraphAccessor h d) {n : String} (member : n ∈ base.names) :
    presentAfter base.toGraphAccessor h n = decide (n ∉ d.removedNodes) := by
  have removed := r.removed n
  have present := (base.present n).mpr member
  simp only [presentAfter]
  rcases last : lastOn n h with _ | _ | nd <;> simp_all

theorem removedAbsent (r : Represents base.toGraphAccessor h d) {n : String}
    (member : n ∈ d.removedNodes) : presentAfter base.toGraphAccessor h n = false := by
  have last := (r.removed n).mp member
  simp [presentAfter,last]

theorem triplesExact (r : Represents base.toGraphAccessor h d) (f t kind : String) :
    decide ((f,t,kind) ∉ d.removedEdges) = !h.any (Op.removesTriple f t kind) := by
  have triple := r.triples f t kind
  cases found : h.any (Op.removesTriple f t kind) <;> simp_all

theorem survivorsStay (r : Represents base.toGraphAccessor h d) {s : NamedEdge W}
    (member : s ∈ survivors h) : s.1 ∉ d.removedNodes ∧ s.2.1 ∉ d.removedNodes := by
  obtain ⟨source,target⟩ := r.anchored s member
  constructor <;> intro tombstoned
  · simp [removedAbsent r tombstoned] at source
  · simp [removedAbsent r tombstoned] at target

theorem outgoingExact (r : Represents base.toGraphAccessor h d) (i : Indexed h d) (f : String) :
    (deltaAccessor base.toGraphAccessor d).outgoingNeighbors f =
      historyOutgoing base.toGraphAccessor h f := by
  rw [outgoingShape _ i,historyOutgoing]
  split
  · rename_i tombstoned
    have gone := removedAbsent r tombstoned
    have none : (survivors h).filter (fun s => s.1 == f) = [] := by
      refine List.filter_eq_nil_iff.mpr (fun s member same => ?_)
      exact (survivorsStay r member).1 (beq_iff_eq.mp same ▸ tombstoned)
    simp [baseEdgeVisible,gone,none]
  · rename_i alive
    congr 1
    · refine List.filter_congr (fun nb member => ?_)
      have source := base.sourcePresent member
      have target := base.targetPresent member
      rw [baseEdgeVisible,basePresent r source,basePresent r target,← triplesExact r]
      simp [alive,Bool.and_comm]
    · congr 1
      refine List.filter_eq_self.mpr (fun s member => ?_)
      simpa using (survivorsStay r (List.mem_of_mem_filter member)).2

theorem incomingExact (r : Represents base.toGraphAccessor h d) (i : Indexed h d) (t : String) :
    (deltaAccessor base.toGraphAccessor d).incomingNeighbors t =
      historyIncoming base.toGraphAccessor h t := by
  rw [incomingShape _ i,historyIncoming]
  split
  · rename_i tombstoned
    have gone := removedAbsent r tombstoned
    have none : (survivors h).filter (fun s => s.2.1 == t) = [] := by
      refine List.filter_eq_nil_iff.mpr (fun s member same => ?_)
      exact (survivorsStay r member).2 (beq_iff_eq.mp same ▸ tombstoned)
    simp [baseEdgeVisible,gone,none]
  · rename_i alive
    congr 1
    · refine List.filter_congr (fun nb member => ?_)
      have source := base.sourceListed member
      have target : t ∈ base.names := by
        by_contra absent
        simp [base.incomingAbsent absent] at member
      rw [baseEdgeVisible,basePresent r source,basePresent r target,← triplesExact r]
      simp [alive,Bool.and_comm]
    · congr 1
      refine List.filter_eq_self.mpr (fun s member => ?_)
      simpa using (survivorsStay r (List.mem_of_mem_filter member)).1

/-! The nodes of the merged view. -/
def names (base : NamedGraph W) (d : GraphDelta W) : List String :=
  base.names.filter (fun n => n ∉ d.removedNodes) ++
    d.addedNodes.keys.filter (fun n => n ∉ base.names)

theorem namesExact (r : Represents base.toGraphAccessor h d) (n : String) :
    n ∈ names base d ↔ presentAfter base.toGraphAccessor h n = true := by
  have present := r.presentIn n
  have shadowed := d.addedNodes.containsKeyIff n
  have disjoint := r.disjoint n
  have inBase := base.present n
  rw [← present]
  simp only [names,List.mem_append,List.mem_filter,decide_eq_true_eq,GraphDelta.presentIn,
    Bool.or_eq_true,Bool.and_eq_true,← shadowed,inBase]
  grind

theorem namesDistinct (base : NamedGraph W) (d : GraphDelta W) : (names base d).Nodup := by
  refine List.nodup_append.mpr ⟨base.namesNodup.filter _,d.addedNodes.keysNodup.filter _,?_⟩
  intro a left b right same
  simp only [List.mem_filter,decide_eq_true_eq] at left right
  exact right.2 (same ▸ left.1)

theorem namesCount (c : Counted base d) :
    (names base d).length = (deltaAccessor base.toGraphAccessor d).nodeCount ∧
      (DeltaAccessor.nodeCount base.toGraphAccessor d).wrapped = false := by
  have hits : (d.removedNodes.filter (· ∈ base.names)).card =
      (base.names.filter (fun n => n ∈ d.removedNodes)).length := by
    rw [← List.toFinset_card_of_nodup (base.namesNodup.filter _)]
    congr 1
    ext n
    simp [and_comm]
  have split : base.names.length = (base.names.filter (fun n => n ∈ d.removedNodes)).length +
      (base.names.filter (fun n => n ∉ d.removedNodes)).length := by
    simpa using List.length_eq_length_filter_add (l := base.names) (fun n => decide (n ∈ d.removedNodes))
  have added : d.addedNodes.keys.countP (fun n => !decide (n ∈ base.names)) =
      (d.addedNodes.keys.filter (fun n => n ∉ base.names)).length := by
    simp [List.countP_eq_length_filter]
  have below : (d.removedNodes.filter (· ∈ base.names)).card ≤
      base.nodeCount + d.addedNodes.keys.countP (fun n => !decide (n ∈ base.names)) := by
    rw [hits,base.countNodes]; omega
  simp only [names,List.length_append,deltaAccessor,DeltaAccessor.nodeCount,c.nonBase,c.hits,
    Usize.ofNat,Usize.sub,if_pos below,and_true]
  rw [hits,base.countNodes,added]
  omega

/-! Its edges, as a masked base next to the list of surviving additions. -/
def kept (base : GraphAccessor W) (h : List (Op W)) (f t : String) (e : EdgeData W) : Bool :=
  baseEdgeVisible base h f t e.kind

theorem historyOutPairs (base : GraphAccessor W) (h : List (Op W)) (f : String) :
    (historyOutgoing base h f).map NeighborView.pair =
      (base.outPairs f).filter (fun x => kept base h f x.1 x.2) ++ Mirror.outOf (survivors h) f := by
  simp only [historyOutgoing,GraphAccessor.outPairs,Mirror.outOf,List.map_append,List.map_map,
    List.filter_map]
  rfl

theorem historyIncPairs (base : GraphAccessor W) (h : List (Op W)) (t : String) :
    (historyIncoming base h t).map NeighborView.pair =
      (base.incPairs t).filter (fun x => kept base h x.1 t x.2) ++ Mirror.incOf (survivors h) t := by
  simp only [historyIncoming,GraphAccessor.incPairs,Mirror.incOf,List.map_append,List.map_map,
    List.filter_map]
  rfl

theorem keptEnds (r : Represents base.toGraphAccessor h d) (f t : String) (e : EdgeData W)
    (keep : kept base.toGraphAccessor h f t e = true) : f ∈ names base d ∧ t ∈ names base d := by
  simp only [kept,baseEdgeVisible,Bool.and_eq_true] at keep
  exact ⟨(namesExact r f).mpr keep.1.2,(namesExact r t).mpr keep.2⟩

theorem survivorEnds (r : Represents base.toGraphAccessor h d) (s : NamedEdge W)
    (member : s ∈ survivors h) : s.1 ∈ names base d ∧ s.2.1 ∈ names base d := by
  obtain ⟨source,target⟩ := r.anchored s member
  exact ⟨(namesExact r _).mpr source,(namesExact r _).mpr target⟩

theorem historyMirrored (r : Represents base.toGraphAccessor h d) :
    Mirror.Mirrored (names base d)
      (fun f => (historyOutgoing base.toGraphAccessor h f).map NeighborView.pair)
      (fun t => (historyIncoming base.toGraphAccessor h t).map NeighborView.pair) := by
  simp only [historyOutPairs,historyIncPairs]
  have masked := base.mirrored.mask (kept base.toGraphAccessor h) (namesDistinct base d)
    (fun f t e _ keep => keptEnds r f t e keep)
  exact masked.append (Mirror.ofList (namesDistinct base d) (survivors h) (survivorEnds r))

/- Base edges split into the covered ones and the kept ones. -/
theorem coveredOrKept (r : Represents base.toGraphAccessor h d) :
    base.edgeCount = base.coveredEdges d.removedNodes d.removedEdges +
      Mirror.countEdges base.names base.outPairs (kept base.toGraphAccessor h) := by
  rw [base.edgeCountAll,NamedGraph.coveredEdges,← Mirror.countEdgesSplit]
  · refine Mirror.countEdgesCongr (fun f present x member => ?_)
    have target := base.mirrored.targets f x member
    simp only [kept,baseEdgeVisible,basePresent r present,basePresent r target,← triplesExact r,covered]
    grind
  · intro f t e both
    obtain ⟨hidden,keep⟩ := both
    simp only [kept,baseEdgeVisible,← triplesExact r,Bool.and_eq_true] at keep
    obtain ⟨⟨triple,source⟩,target⟩ := keep
    have sourceAlive := mt (removedAbsent (n := f) r) (by simp [source])
    have targetAlive := mt (removedAbsent r (n := t)) (by simp [target])
    simp_all [covered]

/- The edges of the merged view, counted at their tails. -/
theorem historyEdges (r : Represents base.toGraphAccessor h d) :
    ((names base d).map (fun f => (historyOutgoing base.toGraphAccessor h f).length)).sum =
      Mirror.countEdges base.names base.outPairs (kept base.toGraphAccessor h) +
        (survivors h).length := by
  have pairs : ∀ f, (historyOutgoing base.toGraphAccessor h f).length =
      ((base.outPairs f).filter (fun x => kept base.toGraphAccessor h f x.1 x.2) ++
        Mirror.outOf (survivors h) f).countP (fun _ => true) := by
    intro f
    rw [← historyOutPairs,List.countP_true,List.length_map]
  have whole := Mirror.countAppend (names base d)
    (fun f => (base.outPairs f).filter (fun x => kept base.toGraphAccessor h f x.1 x.2))
    (Mirror.outOf (survivors h)) (fun _ _ _ => true)
  rw [base.mirrored.countKept _ (namesDistinct base d) (fun f t e _ keep => (keptEnds r f t e keep).1),
    Mirror.countList (namesDistinct base d) _ (fun s member => (survivorEnds r s member).1)] at whole
  rw [← whole]
  simp only [pairs,Mirror.countEdges]

theorem edgesCount (r : Represents base.toGraphAccessor h d) (c : Counted base d) :
    (deltaAccessor base.toGraphAccessor d).edgeCount =
        Mirror.countEdges base.names base.outPairs (kept base.toGraphAccessor h) +
          countLive d.addedEdges ∧
      (DeltaAccessor.edgeCount base.toGraphAccessor d).wrapped = false := by
  have parts := coveredOrKept r
  have below : base.coveredEdges d.removedNodes d.removedEdges ≤
      base.edgeCount + countLive d.addedEdges := by omega
  simp only [deltaAccessor,DeltaAccessor.edgeCount,c.live,c.masked,Usize.ofNat,Usize.sub,
    if_pos below,and_true]
  omega

theorem liveCount (i : Indexed h d) : countLive d.addedEdges = (survivors h).length := by
  rw [← i.live,surviving,List.length_map,countLive,List.countP_eq_length_filter]

theorem nodeAfterNamed (base : NamedGraph W) (h : List (Op W)) {n : String} {v : NodeView W}
    (found : nodeAfter base.toGraphAccessor h n = some v) : v.name = n := by
  unfold nodeAfter at found
  split at found <;> try contradiction
  · rename_i nd last
    cases Option.some.inj found
    obtain ⟨op,_,sets⟩ := List.exists_of_findSome?_eq_some last
    cases op with
    | upsertNode other =>
      simp only [Op.onNode,Option.ite_none_right_eq_some,Option.some.injEq] at sets
      obtain ⟨same,rfl⟩ := sets
      exact same
    | removeNode name => simp [Op.onNode] at sets
    | addEdge fromName toName edge => simp [Op.onNode] at sets
    | removeEdge fromName toName kind => simp [Op.onNode] at sets
  · exact base.named n v found

/- The merged view as a named graph, so that it can serve as a base itself. -/
def graph (r : Represents base.toGraphAccessor h d) (c : Counted base d) (i : Indexed h d) :
    NamedGraph W where
  toGraphAccessor := deltaAccessor base.toGraphAccessor d
  names := names base d
  present n := by rw [getNodeExact r,namesExact r,presentAfterNode]
  named n v found := nodeAfterNamed base h (getNodeExact r n ▸ found)
  mirrored := by
    have mirrored := historyMirrored r
    simp only [← outgoingExact r i,← incomingExact r i] at mirrored
    exact mirrored
  countNodes := (namesCount c).1.symm
  countEdges := by
    rw [(edgesCount r c).1,liveCount i,← historyEdges r]
    simp only [outgoingExact r i]

end Merged
/- The merged view equals the history semantics: nodes by the last operation on them,
base edges by their triple and endpoints, added edges by what came later. -/
theorem mergedViewIsHistory {base : NamedGraph W} {h : List (Op W)} {d : GraphDelta W}
    (reached : Reached base.toGraphAccessor h d) (room : edgeAdds h < 2^32) :
    (∀ n, (deltaAccessor base.toGraphAccessor d).getNode n = nodeAfter base.toGraphAccessor h n) ∧
    (∀ f, (deltaAccessor base.toGraphAccessor d).outgoingNeighbors f =
      historyOutgoing base.toGraphAccessor h f) ∧
    (∀ t, (deltaAccessor base.toGraphAccessor d).incomingNeighbors t =
      historyIncoming base.toGraphAccessor h t) ∧
    (∀ f t, ((((deltaAccessor base.toGraphAccessor d).outPairs f).filter
        (fun x => decide (x.1 = t))).map Prod.snd).Perm
      ((((deltaAccessor base.toGraphAccessor d).incPairs t).filter
        (fun x => decide (x.1 = f))).map Prod.snd)) := by
  have r := reached.represents
  have i := reached.indexed room.le
  refine ⟨Merged.getNodeExact r,Merged.outgoingExact r i,Merged.incomingExact r i,?_⟩
  exact (Merged.graph r reached.counted i).mirrored.agree

def sampleNode (name : String) : NodeData Unit := ⟨name,"",∅,(),(),()⟩
def sampleEdge : EdgeData Unit := ⟨"calls",none,(),none,none,["b","a"]⟩

theorem mergedViewOfLoop :
    let h : List (Op Unit) := [.upsertNode (sampleNode "a"),.addEdge "a" "a" sampleEdge]
    ∃ d, Reached NamedGraph.empty.toGraphAccessor h d ∧
      (deltaAccessor NamedGraph.empty.toGraphAccessor d).outgoingNeighbors "a" =
        [NeighborView.ofEdge "a" sampleEdge.normalized] := by
  have reached : Reached NamedGraph.empty.toGraphAccessor
      ([] ++ [.upsertNode (sampleNode "a"),.addEdge "a" "a" sampleEdge]) _ := .batch .new rfl
  refine ⟨_,reached,?_⟩
  rw [(mergedViewIsHistory reached (by decide)).2.1]
  rfl

/- Node counts, disjointness and freedom from wrapping hold on every reachable delta; the
edge count needs the positions to fit in 32 bits. -/
theorem countersExact {base : NamedGraph W} {h : List (Op W)} {d : GraphDelta W}
    (reached : Reached base.toGraphAccessor h d) :
    (∃ present : Finset String,
      (∀ n, n ∈ present ↔ ((deltaAccessor base.toGraphAccessor d).getNode n).isSome = true) ∧
      (deltaAccessor base.toGraphAccessor d).nodeCount = present.card ∧
      (edgeAdds h ≤ 2^32 → (deltaAccessor base.toGraphAccessor d).edgeCount =
        present.sum (fun n => ((deltaAccessor base.toGraphAccessor d).outgoingNeighbors n).length))) ∧
    d.tombstoneBaseHits.wrapped = false ∧ d.addedNonBase.wrapped = false ∧
    d.maskedBaseEdgeCount.wrapped = false ∧ d.liveDeltaEdgeCount.wrapped = false ∧
    (DeltaAccessor.nodeCount base.toGraphAccessor d).wrapped = false ∧
    (DeltaAccessor.edgeCount base.toGraphAccessor d).wrapped = false ∧
    (∀ n, ¬ (d.addedNodes.containsKey n = true ∧ n ∈ d.removedNodes)) := by
  have r := reached.represents
  have c := reached.counted
  have distinct := Merged.namesDistinct base d
  refine ⟨⟨(Merged.names base d).toFinset,?_,?_,?_⟩,?_⟩
  · intro n
    rw [List.mem_toFinset,Merged.namesExact r,Merged.getNodeExact r,presentAfterNode]
  · rw [List.toFinset_card_of_nodup distinct,(Merged.namesCount c).1]
  · intro room
    rw [List.sum_toFinset _ distinct]
    exact (Merged.graph r c (reached.indexed room)).countEdges
  · rw [c.hits,c.nonBase,c.masked,c.live]
    exact ⟨rfl,rfl,rfl,rfl,(Merged.namesCount c).2,(Merged.edgesCount r c).2,r.disjoint⟩

theorem countersOfRestoredLoop :
    let h : List (Op Unit) := [.upsertNode (sampleNode "a"),.addEdge "a" "a" sampleEdge,
      .removeNode "a",.upsertNode (sampleNode "a")]
    ∃ d, Reached NamedGraph.empty.toGraphAccessor h d ∧ d.liveDeltaEdgeCount.wrapped = false ∧
      ∃ present : Finset String, (deltaAccessor NamedGraph.empty.toGraphAccessor d).edgeCount =
        present.sum (fun n => ((deltaAccessor NamedGraph.empty.toGraphAccessor d).outgoingNeighbors n).length) := by
  have reached : Reached NamedGraph.empty.toGraphAccessor
      ([] ++ [.upsertNode (sampleNode "a"),.addEdge "a" "a" sampleEdge,.removeNode "a",
        .upsertNode (sampleNode "a")]) _ := .batch .new rfl
  obtain ⟨⟨present,_,_,edges⟩,_,_,_,live,_⟩ := countersExact reached
  exact ⟨_,reached,live,present,edges (by decide)⟩

/-! One addition too many. With 2^32 edges in place the next one is indexed at position 0,
so removing its endpoint kills the first edge in its stead. -/
namespace Overflow
open Positions GraphDelta
abbrev base : GraphAccessor Unit := NamedGraph.empty.toGraphAccessor

def start : List (Op Unit) :=
  [.upsertNode (sampleNode "a"),.upsertNode (sampleNode "b"),.upsertNode (sampleNode "c")]
def ab : Op Unit := .addEdge "a" "b" sampleEdge
def last : List (Op Unit) := [.addEdge "c" "c" sampleEdge,.removeNode "c"]
def history (k : Nat) : List (Op Unit) := start ++ List.replicate k ab ++ last

def filled (k : Nat) : GraphDelta Unit := replay .new base (start ++ List.replicate k ab)
def final (k : Nat) : GraphDelta Unit := replay .new base (history k)

theorem filledSucc (k : Nat) : filled (k+1) = (filled k).addEdge "a" "b" sampleEdge := by
  simp [filled,replay,List.replicate_succ',List.foldl_append,applyOp,ab]

def copy (dead : Bool) : DeltaEdge Unit := ⟨"a","b",sampleEdge.normalized,dead⟩

theorem filledShape (k : Nat) : (filled k).addedEdges = List.replicate k (copy false) ∧
    (filled k).outIndex "c" = [] ∧ (filled k).inIndex "c" = [] ∧
    (filled k).outIndex "b" = [] ∧ (filled k).removedNodes = ∅ ∧ (filled k).removedEdges = ∅ ∧
    (filled k).addedNodes.keys = ["a","b","c"] := by
  induction k with
  | zero => decide
  | succ k ih =>
    rw [filledSucc]
    obtain ⟨edges,outC,inC,outB,nodes,triples,keys⟩ := ih
    refine ⟨?_,?_,?_,?_,nodes,triples,keys⟩
    · simp [addEdge,edges,List.replicate_succ',copy]
    · simpa [addEdge] using outC
    · simpa [addEdge] using inC
    · simpa [addEdge] using outB

theorem filledPresent (k : Nat) {n : String} (named : n ∈ ["a","b","c"]) :
    (filled k).presentIn base n = true := by
  obtain ⟨_,_,_,_,_,_,keys⟩ := filledShape k
  have shadowed := ((filled k).addedNodes.containsKeyIff n).mpr (keys ▸ named)
  simp [presentIn,shadowed]

theorem filledRun (k : Nat) : LegalRun base .new (start ++ List.replicate k ab) (filled k) := by
  induction k with
  | zero => exact (applyExact _ _ _).mp rfl
  | succ k ih =>
    rw [filledSucc,List.replicate_succ',← List.append_assoc]
    exact ih.append (.step ⟨rfl,filledPresent k (by decide),filledPresent k (by decide)⟩ (.done _))

theorem finalReached (k : Nat) : Reached base (history k) (final k) := by
  have present := filledPresent k (n := "c") (by decide)
  have closing : LegalRun base (filled k) last (final k) := by
    have shape : final k = ((filled k).addEdge "c" "c" sampleEdge).removeNode base "c" := by
      simp [final,history,filled,replay,List.foldl_append,last,applyOp]
    rw [shape]
    exact .step ⟨rfl,present,present⟩ (.step trivial (.done _))
  have run := (filledRun k).append closing
  have batch : Reached base ([] ++ (start ++ List.replicate k ab ++ last)) (final k) :=
    .batch .new ((applyExact _ _ _).mpr run)
  exact batch

variable {k : Nat} (wraps : asU32 (k+1) = 0)
include wraps

theorem finalShape :
    (final (k+1)).addedEdges = copy true :: (List.replicate k (copy false) ++
        [⟨"c","c",sampleEdge.normalized,false⟩]) ∧
      (final (k+1)).outIndex "a" = (filled (k+1)).outIndex "a" ∧
      (final (k+1)).outIndex "b" = [] ∧ (final (k+1)).removedNodes = {"c"} ∧
      (∀ n, n ∈ (final (k+1)).addedNodes.keys ↔ n = "a" ∨ n = "b") := by
  obtain ⟨edges,outC,inC,outB,nodes,triples,keys⟩ := filledShape (k+1)
  have shape : final (k+1) = ((filled (k+1)).addEdge "c" "c" sampleEdge).removeNode base "c" := by
    simp [final,history,filled,replay,List.foldl_append,last,applyOp]
  have outC' : ((filled (k+1)).addEdge "c" "c" sampleEdge).outIndex "c" = [0] := by
    simp [addEdge,outC,edges,wraps]
  have inC' : ((filled (k+1)).addEdge "c" "c" sampleEdge).inIndex "c" = [0] := by
    simp [addEdge,inC,edges,wraps]
  have cut := removeNodeEdges ((filled (k+1)).addEdge "c" "c" sampleEdge) base "c"
  rw [outC',inC'] at cut
  rw [shape]
  refine ⟨?_,?_,?_,?_,?_⟩
  · rw [cut]
    simp [addEdge,edges,List.replicate_succ,markDead,copy]
  · rw [removeNodeFrame]
    simp [addEdge]
  · rw [removeNodeFrame]
    simpa [addEdge] using outB
  · rw [removeNodeFrame]
    simp [addEdge,nodes]
  · intro n
    rw [removeNodeFrame,IndexMap.memKeysShiftRemove]
    have before : ((filled (k+1)).addEdge "c" "c" sampleEdge).addedNodes.keys = ["a","b","c"] := keys
    simp only [before,List.mem_cons,List.not_mem_nil]
    grind

theorem finalCounts (room : k + 1 ≤ 2^32) :
    (deltaAccessor base (final (k+1))).edgeCount = k + 1 ∧
      ((deltaAccessor base (final (k+1))).outgoingNeighbors "a").length = k ∧
      (deltaAccessor base (final (k+1))).outgoingNeighbors "b" = [] := by
  obtain ⟨edges,outA,outB,nodes,keys⟩ := finalShape wraps
  have c : Counted NamedGraph.empty (final (k+1)) := (finalReached (k+1)).counted
  have before : Indexed (start ++ List.replicate (k+1) ab) (filled (k+1)) := by
    have reached : Reached base ([] ++ (start ++ List.replicate (k+1) ab)) (filled (k+1)) :=
      .batch .new ((applyExact _ _ _).mpr (filledRun (k+1)))
    refine reached.indexed ?_
    have adds : edgeAdds ([] ++ (start ++ List.replicate (k+1) ab)) = k + 1 := by
      simp [edgeAdds,start,ab,Op.isAddEdge,List.countP_replicate]
    rwa [adds]
  have live : countLive (final (k+1)).addedEdges = k + 1 := by
    simp [edges,countLive,copy,List.countP_replicate]
  refine ⟨?_,?_,?_⟩
  · rw [(Merged.edgesCount (finalReached (k+1)).represents c).1,live]
    exact Nat.zero_add _
  · have fast : (final (k+1)).isEmpty = false := by simp [isEmpty,edges]
    change (DeltaAccessor.outgoingNeighbors base (final (k+1)) "a").length = k
    have index : (final (k+1)).outIndex "a" =
        positions (fun e => e.fromName == "a") (final (k+1)).addedEdges := by
      rw [outA,before.out,edges,← List.cons_append,positionsConcat,(filledShape (k+1)).1,
        positionsAll _ (by simp [copy]),positionsAll _ (by simp [copy])]
      simp
    have entries := filterMapPositions (fun e : DeltaEdge Unit => e.fromName == "a") (fun e =>
      if e.dead ∨ (({"c"} : Finset String) ≠ ∅ ∧ e.toName ∈ ({"c"} : Finset String)) then none
      else some (NeighborView.ofEdge e.toName e.edge)) (final (k+1)).addedEdges
    simp only [DeltaAccessor.outgoingNeighbors,fast,nodes,index]
    have alive : ¬ (({"c"} : Finset String) ≠ ∅ ∧ "a" ∈ ({"c"} : Finset String)) := by decide
    simp only [Bool.false_eq_true,if_false,alive]
    refine (congrArg List.length (congrArg (_ ++ ·) entries)).trans ?_
    rw [edges]
    simp [copy,base,NamedGraph.empty,List.filter_append]
  · have fast : (final (k+1)).isEmpty = false := by simp [isEmpty,edges]
    change DeltaAccessor.outgoingNeighbors base (final (k+1)) "b" = []
    simp [DeltaAccessor.outgoingNeighbors,fast,nodes,outB,base,NamedGraph.empty]

omit wraps in
theorem finalPresent (n : String) : ((deltaAccessor base (final k)).getNode n).isSome = true ↔
    n ∈ (final k).addedNodes.keys := by
  rw [Merged.getNodeShape,← IndexMap.containsKeyIff,IndexMap.containsKey]
  cases (final k).addedNodes.get n with
  | some nd => simp
  | none => simp [base,NamedGraph.empty]

end Overflow

/- The claim's equation, on one delta. -/
def edgeCountIsSum {W : Type} (base : GraphAccessor W) (d : GraphDelta W) : Prop :=
  ∀ present : Finset String,
    (∀ n, n ∈ present ↔ ((deltaAccessor base d).getNode n).isSome = true) →
    (deltaAccessor base d).edgeCount =
      present.sum (fun n => ((deltaAccessor base d).outgoingNeighbors n).length)

theorem Overflow.drift {k : Nat} (wraps : asU32 (k+1) = 0) (room : k + 1 ≤ 2^32) :
    ¬ edgeCountIsSum Overflow.base (Overflow.final (k+1)) := by
  intro same
  obtain ⟨count,outA,outB⟩ := Overflow.finalCounts wraps room
  have nodes : ∀ n, n ∈ ({"a","b"} : Finset String) ↔
      ((deltaAccessor Overflow.base (Overflow.final (k+1))).getNode n).isSome = true := by
    intro n
    rw [Overflow.finalPresent,(Overflow.finalShape wraps).2.2.2.2]
    simp
  have total := same {"a","b"} nodes
  rw [Finset.sum_pair (by decide),outA,outB,count] at total
  simp at total

theorem edgeCountDrifts :
    Reached NamedGraph.empty.toGraphAccessor (Overflow.history 4294967296)
      (Overflow.final 4294967296) ∧
    ¬ edgeCountIsSum NamedGraph.empty.toGraphAccessor (Overflow.final 4294967296) :=
  ⟨Overflow.finalReached _,Overflow.drift (k := 4294967295) (by decide) (by decide)⟩

end OrpheusGraph
