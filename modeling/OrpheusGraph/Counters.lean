import OrpheusGraph.Batch

/-! The four counters equal what a full recount of the collections would give, so no
decrement ever wraps. Nothing here depends on the side indices being right. -/
namespace OrpheusGraph
variable {W : Type}

/- A base edge hidden by a tombstone of its tail, its head or its own triple. -/
def covered (removedNodes : Finset String) (removedEdges : Finset (String × String × String))
    (f t : String) (e : EdgeData W) : Bool :=
  decide ((f,t,e.kind) ∈ removedEdges) || decide (f ∈ removedNodes) || decide (t ∈ removedNodes)

def NamedGraph.coveredEdges (base : NamedGraph W) (removedNodes : Finset String)
    (removedEdges : Finset (String × String × String)) : Nat :=
  Mirror.countEdges base.names base.outPairs (covered removedNodes removedEdges)

def countLive (es : List (DeltaEdge W)) : Nat := es.countP (fun e => !e.dead)

structure Counted (base : NamedGraph W) (d : GraphDelta W) : Prop where
  hits : d.tombstoneBaseHits = .ofNat (d.removedNodes.filter (· ∈ base.names)).card
  nonBase : d.addedNonBase = .ofNat (d.addedNodes.keys.countP (fun n => !decide (n ∈ base.names)))
  masked : d.maskedBaseEdgeCount = .ofNat (base.coveredEdges d.removedNodes d.removedEdges)
  live : d.liveDeltaEdgeCount = .ofNat (countLive d.addedEdges)

namespace Usize
theorem addOfNat (n k : Nat) : (ofNat n).add k = ofNat (n + k) := rfl

theorem subOfNat (n k : Nat) : (ofNat (n + k)).sub k = ofNat n := by simp [ofNat,sub]

theorem addIterate (n m : Nat) : (fun c : Usize => c.add 1)^[m] (ofNat n) = ofNat (n + m) := by
  induction m with
  | zero => rfl
  | succ m ih => rw [Function.iterate_succ_apply',ih,addOfNat,Nat.add_assoc]

theorem subIterate (n m : Nat) : (fun c : Usize => c.sub 1)^[m] (ofNat (n + m)) = ofNat n := by
  induction m with
  | zero => rfl
  | succ m ih => rw [Function.iterate_succ_apply,← Nat.add_assoc,subOfNat,ih]
end Usize

namespace GraphDelta
variable {base : NamedGraph W} {d : GraphDelta W}

theorem foldSteps {α : Type} (step : Usize → Usize) (skip : α → Bool) (nbs : List α) (c : Usize) :
    nbs.foldl (fun count nb => if skip nb then count else step count) c =
      step^[nbs.countP (fun nb => !skip nb)] c := by
  induction nbs generalizing c with
  | nil => rfl
  | cons nb nbs ih =>
    simp only [List.foldl_cons,ih,List.countP_cons]
    cases skip nb <;> simp [Function.iterate_succ_apply]

/- The base edges at `name` that a tombstone of `name` hides and nothing else does. -/
def exposedAt (base : NamedGraph W) (removedNodes : Finset String)
    (removedEdges : Finset (String × String × String)) (name : String) : Nat :=
  (base.outPairs name).countP (fun x => !covered removedNodes removedEdges name x.1 x.2) +
    (base.incPairs name).countP (fun x =>
      !decide (x.1 = name) && !covered removedNodes removedEdges x.1 name x.2)

theorem stepIncidentSteps (step : Usize → Usize) (d : GraphDelta W) {name : String}
    (alive : name ∉ d.removedNodes) :
    stepIncident step d base.toGraphAccessor name =
      step^[exposedAt base d.removedNodes d.removedEdges name] d.maskedBaseEdgeCount := by
  have outgoing := foldSteps step (fun nb : NeighborView W =>
    covered d.removedNodes d.removedEdges name nb.targetName nb.edge) (base.outgoingNeighbors name)
    d.maskedBaseEdgeCount
  have incoming := foldSteps step (fun nb : NeighborView W => decide (nb.targetName = name) ||
    covered d.removedNodes d.removedEdges nb.targetName name nb.edge) (base.incomingNeighbors name)
  have shape : exposedAt base d.removedNodes d.removedEdges name =
      (base.incomingNeighbors name).countP (fun nb => !(decide (nb.targetName = name) ||
        covered d.removedNodes d.removedEdges nb.targetName name nb.edge)) +
      (base.outgoingNeighbors name).countP (fun nb =>
        !covered d.removedNodes d.removedEdges name nb.targetName nb.edge) := by
    rw [exposedAt,GraphAccessor.outPairs,GraphAccessor.incPairs,List.countP_map,List.countP_map,
      Nat.add_comm]
    congr 1
    refine List.countP_congr (fun nb _ => ?_)
    rw [Bool.not_or]
    rfl
  rw [shape,Function.iterate_add_apply,← outgoing,← incoming]
  simp only [stepIncident]
  congr 1
  · funext count nb
    simp only [covered,edgeKind]
    grind
  · congr 1
    funext count nb
    simp only [covered,edgeKind]
    grind

/-! How the recounts move when one tombstone is set or cleared. -/
section recount
variable (base) (removedNodes : Finset String) (removedEdges : Finset (String × String × String))

theorem coverNode (name : String) :
    base.coveredEdges (insert name removedNodes) removedEdges =
      base.coveredEdges removedNodes removedEdges + exposedAt base removedNodes removedEdges name := by
  have masked := base.mirrored.countMask name (covered removedNodes removedEdges)
  have shape : base.coveredEdges (insert name removedNodes) removedEdges =
      Mirror.countEdges base.names base.outPairs (fun f t l =>
        covered removedNodes removedEdges f t l || decide (f = name) || decide (t = name)) := by
    refine Mirror.countEdgesCongr (fun f _ x _ => ?_)
    simp only [covered,Finset.mem_insert]
    grind
  rw [shape,masked,exposedAt,Nat.add_assoc]
  rfl

theorem exposedAbsent {name : String} (absent : name ∉ base.names) :
    exposedAt base removedNodes removedEdges name = 0 := by
  simp [exposedAt,base.mirrored.absentOut name absent,base.mirrored.absentInc name absent]

theorem uncoverNode {name : String} (tombstoned : name ∈ removedNodes) :
    base.coveredEdges removedNodes removedEdges =
      base.coveredEdges (removedNodes.erase name) removedEdges +
        exposedAt base (removedNodes.erase name) removedEdges name := by
  have covering := coverNode base (removedNodes.erase name) removedEdges name
  rwa [Finset.insert_erase tombstoned] at covering

theorem coverTriple {f t kind : String} (fresh : (f,t,kind) ∉ removedEdges) :
    base.coveredEdges removedNodes (insert (f,t,kind) removedEdges) =
      base.coveredEdges removedNodes removedEdges +
        (if f ∈ removedNodes ∨ t ∈ removedNodes then 0 else
          (base.outPairs f).countP (fun x => x.1 == t && x.2.kind == kind)) := by
  let newly : String → String → EdgeData W → Bool := fun f' t' e => decide (f' = f) &&
    (decide (f ∉ removedNodes) && decide (t ∉ removedNodes) && (t' == t && e.kind == kind))
  have shape : base.coveredEdges removedNodes (insert (f,t,kind) removedEdges) =
      Mirror.countEdges base.names base.outPairs
        (fun f' t' e => covered removedNodes removedEdges f' t' e || newly f' t' e) := by
    refine Mirror.countEdgesCongr (fun f' _ x _ => ?_)
    simp only [covered,newly,Finset.mem_insert,Prod.mk.injEq]
    grind
  have apart : ∀ f' t' e, ¬ (covered removedNodes removedEdges f' t' e ∧ newly f' t' e) := by
    intro f' t' e
    simp only [covered,newly]
    grind
  rw [shape,Mirror.countEdgesSplit _ _ _ _ apart,
    Mirror.countAtTail base.namesNodup f (base.mirrored.absentOut f)]
  congr 1
  split
  · rename_i tombstoned
    rcases tombstoned with h | h <;> simp [h]
  · rename_i alive
    obtain ⟨fromAlive,toAlive⟩ := not_or.mp alive
    simp [fromAlive,toAlive]

end recount

theorem hitsInsert (names : List String) {removed : Finset String} {name : String}
    (alive : name ∉ removed) : ((insert name removed).filter (· ∈ names)).card =
      (removed.filter (· ∈ names)).card + if name ∈ names then 1 else 0 := by
  rw [Finset.filter_insert]
  split
  · rw [Finset.card_insert_of_notMem (by simp [alive])]
  · rfl

theorem hitsErase (names : List String) {removed : Finset String} {name : String}
    (tombstoned : name ∈ removed) : (removed.filter (· ∈ names)).card =
      ((removed.erase name).filter (· ∈ names)).card + if name ∈ names then 1 else 0 := by
  have insertion := hitsInsert names (Finset.notMem_erase name removed)
  rwa [Finset.insert_erase tombstoned] at insertion

/-! Each mutator is a sequence of these stages. -/
theorem clearTombstoneCounted (c : Counted base d) (name : String) :
    Counted base (
      let cleared := { d with removedNodes := d.removedNodes.erase name }
      if name ∈ d.removedNodes ∧ (base.getNode name).isSome then
        unmaskIncidentBaseEdges { cleared with tombstoneBaseHits := d.tombstoneBaseHits.sub 1 }
          base.toGraphAccessor name
      else cleared) := by
  have alive := Finset.notMem_erase name d.removedNodes
  simp only [base.present]
  split
  · rename_i found
    obtain ⟨tombstoned,inBase⟩ := found
    constructor
    · simp only [unmaskIncidentBaseEdges,c.hits]
      rw [hitsErase _ tombstoned,if_pos inBase,Usize.subOfNat]
    · exact c.nonBase
    · simp only [unmaskIncidentBaseEdges]
      rw [stepIncidentSteps _ _ alive,c.masked,uncoverNode base _ _ tombstoned,Usize.subIterate]
    · exact c.live
  · rename_i untouched
    have same : base.coveredEdges (d.removedNodes.erase name) d.removedEdges =
          base.coveredEdges d.removedNodes d.removedEdges ∧
        ((d.removedNodes.erase name).filter (· ∈ base.names)).card =
          (d.removedNodes.filter (· ∈ base.names)).card := by
      by_cases tombstoned : name ∈ d.removedNodes
      · have absent : name ∉ base.names := fun inBase => untouched ⟨tombstoned,inBase⟩
        rw [uncoverNode base _ _ tombstoned,exposedAbsent base _ _ absent,hitsErase _ tombstoned]
        simp [absent]
      · rw [Finset.erase_eq_of_notMem tombstoned]
        exact ⟨rfl,rfl⟩
    obtain ⟨masked,hits⟩ := same
    exact ⟨by rw [hits]; exact c.hits,c.nonBase,by rw [masked]; exact c.masked,c.live⟩

theorem setTombstoneCounted (c : Counted base d) (name : String) :
    Counted base (
      let masked := if name ∉ d.removedNodes ∧ (base.getNode name).isSome then
          let d := maskIncidentBaseEdges d base.toGraphAccessor name
          { d with tombstoneBaseHits := d.tombstoneBaseHits.add 1 }
        else d
      { masked with removedNodes := insert name masked.removedNodes }) := by
  simp only [base.present]
  split
  · rename_i found
    obtain ⟨alive,inBase⟩ := found
    constructor
    · simp only [maskIncidentBaseEdges,c.hits]
      rw [hitsInsert _ alive,if_pos inBase,Usize.addOfNat]
    · exact c.nonBase
    · simp only [maskIncidentBaseEdges]
      rw [stepIncidentSteps _ _ alive,c.masked,coverNode,Usize.addIterate]
    · exact c.live
  · rename_i untouched
    have same : base.coveredEdges (insert name d.removedNodes) d.removedEdges =
          base.coveredEdges d.removedNodes d.removedEdges ∧
        ((insert name d.removedNodes).filter (· ∈ base.names)).card =
          (d.removedNodes.filter (· ∈ base.names)).card := by
      by_cases tombstoned : name ∈ d.removedNodes
      · rw [Finset.insert_eq_of_mem tombstoned]
        exact ⟨rfl,rfl⟩
      · have absent : name ∉ base.names := fun inBase => untouched ⟨tombstoned,inBase⟩
        rw [coverNode,exposedAbsent base _ _ absent,hitsInsert _ tombstoned]
        simp [absent]
    obtain ⟨masked,hits⟩ := same
    exact ⟨by rw [hits]; exact c.hits,c.nonBase,by rw [masked]; exact c.masked,c.live⟩

theorem shadowCounted (c : Counted base d) (nd : NodeData W) :
    Counted base (
      let shadowed := { d with addedNodes := d.addedNodes.insert nd.name nd }
      if !d.addedNodes.containsKey nd.name && !(base.getNode nd.name).isSome then
        { shadowed with addedNonBase := d.addedNonBase.add 1 }
      else shadowed) := by
  have keys := d.addedNodes.countKeysInsert nd.name nd (fun n => !decide (n ∈ base.names))
  have found := d.addedNodes.containsKeyIff nd.name
  have inBase := base.present nd.name
  have same : ((!d.addedNodes.containsKey nd.name && !(base.getNode nd.name).isSome) = true) ↔
      nd.name ∉ d.addedNodes.keys ∧ (!decide (nd.name ∈ base.names)) = true := by
    simp [← found,← inBase]
  simp only [same]
  split
  · rename_i newly
    refine ⟨c.hits,?_,c.masked,c.live⟩
    simp only [c.nonBase,keys]
    rw [if_pos newly,Usize.addOfNat]
  · rename_i known
    refine ⟨c.hits,?_,c.masked,c.live⟩
    simp only [c.nonBase,keys]
    rw [if_neg known,Nat.add_zero]

theorem unshadowCounted (c : Counted base d) (name : String) :
    Counted base (
      let exposed := { d with addedNodes := d.addedNodes.shiftRemove name }
      if d.addedNodes.containsKey name && !(base.getNode name).isSome then
        { exposed with addedNonBase := d.addedNonBase.sub 1 }
      else exposed) := by
  have keys := d.addedNodes.countKeysShiftRemove name (fun n => !decide (n ∈ base.names))
  have found := d.addedNodes.containsKeyIff name
  have inBase := base.present name
  have same : ((d.addedNodes.containsKey name && !(base.getNode name).isSome) = true) ↔
      name ∈ d.addedNodes.keys ∧ (!decide (name ∈ base.names)) = true := by
    simp [← found,← inBase]
  simp only [same]
  split
  · rename_i shadowed
    refine ⟨c.hits,?_,c.masked,c.live⟩
    rw [if_pos shadowed] at keys
    simp only [c.nonBase,← keys,Usize.subOfNat]
  · rename_i unshadowed
    refine ⟨c.hits,?_,c.masked,c.live⟩
    rw [if_neg unshadowed,Nat.add_zero] at keys
    simp only [c.nonBase,keys]

theorem countLiveKill {es : List (DeltaEdge W)} {p : Nat} {e : DeltaEdge W} (found : es[p]? = some e)
    (live : e.dead = false) : countLive es = countLive (es.set p { e with dead := true }) + 1 := by
  induction es generalizing p with
  | nil => simp at found
  | cons x es ih =>
    cases p with
    | zero =>
      simp only [List.getElem?_cons_zero,Option.some.injEq] at found
      subst found
      simp [countLive,live]
    | succ p =>
      simp only [List.getElem?_cons_succ] at found
      have tail := ih found
      simp only [countLive] at tail
      simp only [countLive,List.set_cons_succ,List.countP_cons,tail]
      omega

theorem killEdgeCounted (c : Counted base d) (hit : DeltaEdge W → Bool) (p : Nat) :
    Counted base (killEdge hit d p) := by
  unfold killEdge
  split
  · rename_i e found
    split
    · rename_i live
      have alive : e.dead = false := by simp_all
      refine ⟨c.hits,c.nonBase,c.masked,?_⟩
      simp only [c.live,countLiveKill found alive,Usize.subOfNat]
    · exact c
  · exact c

theorem killEdgesCounted (c : Counted base d) (hit : DeltaEdge W → Bool) (ps : List Nat) :
    Counted base (ps.foldl (killEdge hit) d) := by
  induction ps generalizing d with
  | nil => exact c
  | cons p ps ih => exact ih (killEdgeCounted c hit p)

theorem upsertNodeCounted (c : Counted base d) (nd : NodeData W) :
    Counted base (d.upsertNode base.toGraphAccessor nd) :=
  shadowCounted (clearTombstoneCounted c nd.name) nd

theorem removeNodeCounted (c : Counted base d) (name : String) :
    Counted base (d.removeNode base.toGraphAccessor name) :=
  killEdgesCounted (setTombstoneCounted (unshadowCounted c name) name) _ _

theorem addEdgeCounted (c : Counted base d) (fromName toName : String) (edge : EdgeData W) :
    Counted base (d.addEdge fromName toName edge) := by
  refine ⟨c.hits,c.nonBase,c.masked,?_⟩
  simp [addEdge,c.live,countLive,Usize.addOfNat]

theorem edgeTombstoneCounted (c : Counted base d) {fromName toName kind : String}
    (fresh : (fromName,toName,kind) ∉ d.removedEdges) :
    Counted base { d with
      removedEdges := insert (fromName,toName,kind) d.removedEdges
      maskedBaseEdgeCount := d.maskedBaseEdgeCount.add (countLiveBaseEdgesMatching
        { d with removedEdges := insert (fromName,toName,kind) d.removedEdges }
        base.toGraphAccessor fromName toName kind) } := by
  refine ⟨c.hits,c.nonBase,?_,c.live⟩
  simp only [c.masked,coverTriple base d.removedNodes d.removedEdges fresh,Usize.addOfNat]
  congr 2
  simp [countLiveBaseEdgesMatching,GraphAccessor.outPairs,List.countP_map,
    ← List.countP_eq_length_filter,Function.comp_def]

theorem removeEdgeCounted (c : Counted base d) (fromName toName kind : String) :
    Counted base (d.removeEdge base.toGraphAccessor fromName toName kind) := by
  simp only [removeEdge]
  have killed := killEdgesCounted c (fun e => e.toName == toName && e.edge.kind == kind)
    (d.outIndex fromName)
  split
  · exact killed
  · rename_i fresh
    exact edgeTombstoneCounted killed fresh

theorem newCounted : Counted base .new := by
  refine ⟨rfl,rfl,?_,rfl⟩
  simp only [new,NamedGraph.coveredEdges,Mirror.countEdges,covered]
  simp

theorem applyOpCounted (c : Counted base d) (op : Op W) :
    Counted base (applyOp base.toGraphAccessor d op) := by
  cases op with
  | upsertNode nd => exact upsertNodeCounted c nd
  | removeNode name => exact removeNodeCounted c name
  | addEdge fromName toName edge => exact addEdgeCounted c fromName toName edge
  | removeEdge fromName toName kind => exact removeEdgeCounted c fromName toName kind

end GraphDelta

theorem Reached.counted {base : NamedGraph W} {h : List (Op W)} {d : GraphDelta W}
    (reached : Reached base.toGraphAccessor h d) : Counted base d :=
  reached.keeps (fun _ d => Counted base d) GraphDelta.newCounted
    (fun _ _ op c _ => GraphDelta.applyOpCounted c op)

end OrpheusGraph
