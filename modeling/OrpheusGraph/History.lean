import OrpheusGraph.Counters
import OrpheusGraph.Lib.Positions

/-! What a history of accepted operations means, and the six collections of the delta
that stand for it. -/
namespace OrpheusGraph
variable {W : Type}

/- The effect of an operation on the node `n`: it sets the node, clears it, or neither. -/
def Op.onNode (n : String) : Op W → Option (Option (NodeData W))
  | .upsertNode nd => if nd.name = n then some (some nd) else none
  | .removeNode name => if name = n then some none else none
  | _ => none

def lastOn (n : String) (h : List (Op W)) : Option (Option (NodeData W)) :=
  h.reverse.findSome? (Op.onNode n)

def nodeAfter (base : GraphAccessor W) (h : List (Op W)) (n : String) : Option (NodeView W) :=
  match lastOn n h with
  | some (some nd) => some (NodeView.ofData nd)
  | some none => none
  | none => base.getNode n

def presentAfter (base : GraphAccessor W) (h : List (Op W)) (n : String) : Bool :=
  match lastOn n h with
  | some change => change.isSome
  | none => (base.getNode n).isSome

def Op.removesTriple (f t kind : String) : Op W → Bool
  | .removeEdge fromName toName k => fromName == f && toName == t && k == kind
  | _ => false

def Op.removesEndpoint (f t : String) : Op W → Bool
  | .removeNode name => name == f || name == t
  | _ => false

def Op.isAddEdge : Op W → Bool
  | .addEdge _ _ _ => true
  | _ => false

def edgeAdds (h : List (Op W)) : Nat := h.countP Op.isAddEdge

abbrev NamedEdge (W : Type) := String × String × EdgeData W

def Op.kills (op : Op W) (s : NamedEdge W) : Bool :=
  op.removesTriple s.1 s.2.1 s.2.2.kind || op.removesEndpoint s.1 s.2.1

/- The added edges that no later operation removed, in insertion order. -/
def survivors : List (Op W) → List (NamedEdge W)
  | [] => []
  | .addEdge fromName toName edge :: later =>
    if later.any (fun op => op.kills (fromName,toName,edge)) then survivors later
    else (fromName,toName,edge.normalized) :: survivors later
  | _ :: later => survivors later

def baseEdgeVisible (base : GraphAccessor W) (h : List (Op W)) (f t kind : String) : Bool :=
  !h.any (Op.removesTriple f t kind) && presentAfter base h f && presentAfter base h t

def historyOutgoing (base : GraphAccessor W) (h : List (Op W)) (f : String) : List (NeighborView W) :=
  (base.outgoingNeighbors f).filter (fun nb => baseEdgeVisible base h f nb.targetName nb.edgeKind) ++
    ((survivors h).filter (fun s => s.1 == f)).map (fun s => NeighborView.ofEdge s.2.1 s.2.2)

def historyIncoming (base : GraphAccessor W) (h : List (Op W)) (t : String) : List (NeighborView W) :=
  (base.incomingNeighbors t).filter (fun nb => baseEdgeVisible base h nb.targetName t nb.edgeKind) ++
    ((survivors h).filter (fun s => s.2.1 == t)).map (fun s => NeighborView.ofEdge s.1 s.2.2)

/-! One more operation. -/
theorem lastOnConcat (n : String) (h : List (Op W)) (op : Op W) :
    lastOn n (h ++ [op]) = (op.onNode n).or (lastOn n h) := by
  simp only [lastOn,List.reverse_append,List.reverse_singleton,List.singleton_append,
    List.findSome?_cons]
  cases op.onNode n <;> rfl

theorem killsNormalized (op : Op W) (f t : String) (e : EdgeData W) :
    op.kills (f,t,e.normalized) = op.kills (f,t,e) := rfl

def Op.added : Op W → List (NamedEdge W)
  | .addEdge fromName toName edge => [(fromName,toName,edge.normalized)]
  | _ => []

theorem survivorsConcat (h : List (Op W)) (op : Op W) :
    survivors (h ++ [op]) = (survivors h).filter (fun s => !op.kills s) ++ op.added := by
  induction h with
  | nil =>
    cases op with
    | addEdge fromName toName edge => simp [survivors,Op.added]
    | upsertNode nd => rfl
    | removeNode name => rfl
    | removeEdge fromName toName kind => rfl
  | cons first later ih =>
    cases first with
    | addEdge fromName toName edge =>
      simp only [List.cons_append,survivors,List.any_append,List.any_cons,List.any_nil,Bool.or_false,ih]
      cases later.any (fun op => op.kills (fromName,toName,edge)) with
      | true => simp
      | false =>
        cases dead : op.kills (fromName,toName,edge) <;>
          simp [killsNormalized,dead]
    | upsertNode nd => exact ih
    | removeNode name => exact ih
    | removeEdge fromName toName kind => exact ih

theorem edgeAddsConcat (h : List (Op W)) (op : Op W) :
    edgeAdds (h ++ [op]) = edgeAdds h + if op.isAddEdge then 1 else 0 := by
  simp [edgeAdds,List.countP_append,List.countP_singleton]

theorem presentAfterConcat (base : GraphAccessor W) (h : List (Op W)) (op : Op W) (n : String) :
    presentAfter base (h ++ [op]) n =
      match op.onNode n with
      | some change => change.isSome
      | none => presentAfter base h n := by
  simp only [presentAfter,lastOnConcat]
  cases op.onNode n <;> rfl

theorem presentAfterNode (base : GraphAccessor W) (h : List (Op W)) (n : String) :
    presentAfter base h n = (nodeAfter base h n).isSome := by
  unfold presentAfter nodeAfter
  rcases lastOn n h with _ | _ | nd <;> rfl

/-! The node collections and the triples. -/
structure Represents (base : GraphAccessor W) (h : List (Op W)) (d : GraphDelta W) : Prop where
  added : ∀ n, d.addedNodes.get n = (lastOn n h).join
  removed : ∀ n, n ∈ d.removedNodes ↔ lastOn n h = some none
  triples : ∀ f t kind, (f,t,kind) ∈ d.removedEdges ↔ h.any (Op.removesTriple f t kind) = true
  anchored : ∀ s ∈ survivors h, presentAfter base h s.1 = true ∧ presentAfter base h s.2.1 = true
  count : d.addedEdges.length = edgeAdds h

namespace Represents
variable {base : GraphAccessor W} {h : List (Op W)} {d : GraphDelta W}

theorem presentIn (r : Represents base h d) (n : String) :
    d.presentIn base n = presentAfter base h n := by
  have removed := r.removed n
  simp only [GraphDelta.presentIn,IndexMap.containsKey,r.added n,presentAfter]
  rcases last : lastOn n h with _ | _ | nd <;> simp_all [Option.join]

theorem disjoint (r : Represents base h d) (n : String) :
    ¬ (d.addedNodes.containsKey n = true ∧ n ∈ d.removedNodes) := by
  rintro ⟨shadowed,tombstoned⟩
  have last := (r.removed n).mp tombstoned
  simp [IndexMap.containsKey,r.added n,last] at shadowed

theorem new (base : GraphAccessor W) : Represents base [] .new where
  added _ := rfl
  removed _ := by simp [GraphDelta.new,lastOn]
  triples _ _ _ := by simp [GraphDelta.new]
  anchored _ member := by simp [survivors] at member
  count := rfl

/- An edge that outlives an operation keeps its endpoints through it. -/
theorem keptAnchored (r : Represents base h d) (op : Op W) {s : NamedEdge W}
    (member : s ∈ survivors h) (kept : op.kills s = false) :
    presentAfter base (h ++ [op]) s.1 = true ∧ presentAfter base (h ++ [op]) s.2.1 = true := by
  obtain ⟨source,target⟩ := r.anchored s member
  have stays : ∀ n, (n = s.1 ∨ n = s.2.1) → presentAfter base h n = true →
      presentAfter base (h ++ [op]) n = true := by
    intro n endpoint present
    rw [presentAfterConcat]
    cases op with
    | upsertNode nd =>
      simp only [Op.onNode]
      cases decEq nd.name n with
      | isTrue same => simp [same]
      | isFalse other => simpa [other] using present
    | removeNode name =>
      have other : name ≠ n := by
        rcases endpoint with rfl | rfl <;> simp_all [Op.kills,Op.removesEndpoint]
      simpa [Op.onNode,other] using present
    | addEdge fromName toName edge => exact present
    | removeEdge fromName toName kind => exact present
  exact ⟨stays s.1 (.inl rfl) source,stays s.2.1 (.inr rfl) target⟩

theorem anchoredStep (r : Represents base h d) {op : Op W} (ok : d.legal base op) :
    ∀ s ∈ survivors (h ++ [op]),
      presentAfter base (h ++ [op]) s.1 = true ∧ presentAfter base (h ++ [op]) s.2.1 = true := by
  intro s member
  rw [survivorsConcat,List.mem_append,List.mem_filter] at member
  rcases member with ⟨member,kept⟩ | fresh
  · exact r.keptAnchored op member (by simpa using kept)
  · cases op with
    | addEdge fromName toName edge =>
      obtain ⟨_,source,target⟩ := ok
      rw [r.presentIn] at source target
      simp only [Op.added,List.mem_singleton] at fresh
      subst fresh
      simpa [presentAfterConcat,Op.onNode] using ⟨source,target⟩
    | upsertNode nd => simp [Op.added] at fresh
    | removeNode name => simp [Op.added] at fresh
    | removeEdge fromName toName kind => simp [Op.added] at fresh

theorem modifyCount (f : DeltaEdge W → DeltaEdge W) (ps : List Nat) (es : List (DeltaEdge W)) :
    (ps.foldl (fun es p => es.modify p f) es).length = es.length := by
  induction ps generalizing es with
  | nil => rfl
  | cons p ps ih => exact (ih _).trans (List.length_modify f es p)

theorem upsertNodeStep (r : Represents base h d) (nd : NodeData W) :
    Represents base (h ++ [.upsertNode nd]) (d.upsertNode base nd) := by
  have anchored := r.anchoredStep (show d.legal base (.upsertNode nd) from trivial)
  rw [GraphDelta.upsertNodeFrame]
  constructor
  · intro n
    simp only [IndexMap.getInsert,r.added,lastOnConcat,Op.onNode]
    cases decEq nd.name n with
    | isTrue same => simp [same]
    | isFalse other => simp [other,Ne.symm other]
  · intro n
    simp only [Finset.mem_erase,r.removed,lastOnConcat,Op.onNode]
    cases decEq nd.name n with
    | isTrue same => simp [same]
    | isFalse other => simp [other,Ne.symm other]
  · intro f t kind
    simpa [Op.removesTriple] using r.triples f t kind
  · exact anchored
  · simpa [edgeAddsConcat,Op.isAddEdge] using r.count

theorem removeNodeStep (r : Represents base h d) (name : String) :
    Represents base (h ++ [.removeNode name]) (d.removeNode base name) := by
  have anchored := r.anchoredStep (show d.legal base (.removeNode name) from trivial)
  have count : (d.removeNode base name).addedEdges.length = d.addedEdges.length := by
    rw [GraphDelta.removeNodeEdges,modifyCount]
  rw [GraphDelta.removeNodeFrame]
  constructor
  · intro n
    simp only [IndexMap.getShiftRemove,r.added,lastOnConcat,Op.onNode]
    cases decEq name n with
    | isTrue same => simp [same]
    | isFalse other => simp [other,Ne.symm other]
  · intro n
    simp only [Finset.mem_insert,r.removed,lastOnConcat,Op.onNode]
    cases decEq name n with
    | isTrue same => simp [same]
    | isFalse other => simp [other,Ne.symm other]
  · intro f t kind
    simpa [Op.removesTriple] using r.triples f t kind
  · exact anchored
  · simpa [edgeAddsConcat,Op.isAddEdge,count] using r.count

theorem addEdgeStep (r : Represents base h d) (fromName toName : String) (edge : EdgeData W)
    (ok : d.legal base (.addEdge fromName toName edge)) :
    Represents base (h ++ [.addEdge fromName toName edge]) (d.addEdge fromName toName edge) := by
  refine ⟨?_,?_,?_,r.anchoredStep ok,?_⟩
  · intro n; simpa [GraphDelta.addEdge,lastOnConcat,Op.onNode] using r.added n
  · intro n; simpa [GraphDelta.addEdge,lastOnConcat,Op.onNode] using r.removed n
  · intro f t kind; simpa [GraphDelta.addEdge,Op.removesTriple] using r.triples f t kind
  · simp [GraphDelta.addEdge,edgeAddsConcat,Op.isAddEdge,r.count]

theorem removeEdgeStep (r : Represents base h d) (fromName toName kind : String) :
    Represents base (h ++ [.removeEdge fromName toName kind])
      (d.removeEdge base fromName toName kind) := by
  have anchored := r.anchoredStep (show d.legal base (.removeEdge fromName toName kind) from trivial)
  have count : (d.removeEdge base fromName toName kind).addedEdges.length =
      d.addedEdges.length := by
    rw [GraphDelta.removeEdgeEdges,modifyCount]
  rw [GraphDelta.removeEdgeFrame]
  constructor
  · intro n; simpa [lastOnConcat,Op.onNode] using r.added n
  · intro n; simpa [lastOnConcat,Op.onNode] using r.removed n
  · intro f t k
    simp only [Finset.mem_insert,r.triples,List.any_append,List.any_cons,List.any_nil,
      Op.removesTriple,Prod.mk.injEq,Bool.or_eq_true,Bool.and_eq_true,beq_iff_eq,Bool.or_false]
    grind
  · exact anchored
  · simpa [edgeAddsConcat,Op.isAddEdge,count] using r.count

end Represents
/- Validation admits only satisfiable windows, and insertion sorts the ACL. -/
theorem survivorsCanonicalStep {base : GraphAccessor W} {h : List (Op W)} {d : GraphDelta W} {op : Op W}
    (held : ∀ s ∈ survivors h, s.2.2.Canonical) (ok : d.legal base op) :
    ∀ s ∈ survivors (h ++ [op]), s.2.2.Canonical := by
  intro s member
  rw [survivorsConcat,List.mem_append] at member
  rcases member with old | fresh
  · exact held s (List.mem_of_mem_filter old)
  · cases op with
    | addEdge fromName toName edge =>
      cases List.mem_singleton.mp fresh
      exact EdgeData.normalizedCanonical ok.1
    | upsertNode nd => cases fresh
    | removeNode name => cases fresh
    | removeEdge fromName toName kind => cases fresh

theorem Reached.survivorsCanonical {base : GraphAccessor W} {h : List (Op W)} {d : GraphDelta W}
    (reached : Reached base h d) : ∀ s ∈ survivors h, s.2.2.Canonical :=
  reached.keeps (fun h _ => ∀ s ∈ survivors h, s.2.2.Canonical) (fun _ member => by cases member)
    (fun _ _ _ held ok => survivorsCanonicalStep held ok)

/-! The side indices and the dead marks. A position is stored in 32 bits, so this half
needs the edge list to stay within 2^32 entries. -/
def surviving (es : List (DeltaEdge W)) : List (NamedEdge W) :=
  (es.filter (fun e => !e.dead)).map (fun e => (e.fromName,e.toName,e.edge))

structure Indexed (h : List (Op W)) (d : GraphDelta W) : Prop where
  out : ∀ f, d.outIndex f = Positions.positions (fun e => e.fromName == f) d.addedEdges
  inc : ∀ t, d.inIndex t = Positions.positions (fun e => e.toName == t) d.addedEdges
  live : surviving d.addedEdges = survivors h

namespace Indexed
variable {base : GraphAccessor W} {h : List (Op W)} {d : GraphDelta W}
open Positions GraphDelta

theorem new : Indexed ([] : List (Op W)) .new := ⟨fun _ => rfl,fun _ => rfl,rfl⟩

@[simp] theorem markDeadFrom (hit : DeltaEdge W → Bool) (e : DeltaEdge W) :
    (markDead hit e).fromName = e.fromName := by unfold markDead; split <;> rfl

@[simp] theorem markDeadTo (hit : DeltaEdge W → Bool) (e : DeltaEdge W) :
    (markDead hit e).toName = e.toName := by unfold markDead; split <;> rfl

@[simp] theorem markDeadEdge (hit : DeltaEdge W → Bool) (e : DeltaEdge W) :
    (markDead hit e).edge = e.edge := by unfold markDead; split <;> rfl

theorem survivingMark (hit : DeltaEdge W → Bool) (kills : NamedEdge W → Bool)
    (es : List (DeltaEdge W)) (same : ∀ e ∈ es, hit e = kills (e.fromName,e.toName,e.edge)) :
    surviving (es.map (markDead hit)) = (surviving es).filter (fun s => !kills s) := by
  induction es with
  | nil => rfl
  | cons e es ih =>
    have tail := ih (fun x member => same x (List.mem_cons_of_mem e member))
    have head := same e List.mem_cons_self
    simp only [surviving] at tail
    simp only [surviving,List.map_cons,List.filter_cons]
    cases hitting : hit e with
    | true =>
      have dead : (markDead hit e).dead = true := by simp [markDead,hitting]
      rw [hitting] at head
      cases e.dead <;> simp [dead,← head,tail]
    | false =>
      have kept : markDead hit e = e := by simp [markDead,hitting]
      rw [hitting] at head
      cases was : e.dead <;> simp [kept,was,← head,tail]

theorem markDeadTwice (p q : DeltaEdge W → Bool)
    (es : List (DeltaEdge W)) (stable : ∀ e, q (markDead p e) = q e) :
    (es.map (markDead p)).map (markDead q) = es.map (markDead (fun e => p e || q e)) := by
  rw [List.map_map]
  refine List.map_congr_left (fun e _ => ?_)
  have second := stable e
  cases first : p e with
  | false => simp [markDead,first]
  | true =>
    simp only [markDead,first,if_true] at second
    simp [markDead,first,second]

/- Dead marks move no edge, so they leave the side indices right. -/
theorem marked (i : Indexed h d) (hit : DeltaEdge W → Bool) {next : GraphDelta W} {op : Op W}
    (edges : next.addedEdges = d.addedEdges.map (markDead hit))
    (outSame : next.outIndex = d.outIndex) (inSame : next.inIndex = d.inIndex)
    (same : ∀ e ∈ d.addedEdges, hit e = op.kills (e.fromName,e.toName,e.edge))
    (noEdge : op.added = []) : Indexed (h ++ [op]) next := by
  refine ⟨?_,?_,?_⟩
  · intro f
    rw [outSame,i.out,edges,positionsMap _ _ (fun e => by simp)]
  · intro t
    rw [inSame,i.inc,edges,positionsMap _ _ (fun e => by simp)]
  · rw [edges,survivingMark hit op.kills _ same,i.live,survivorsConcat,noEdge,List.append_nil]

theorem upsertNodeStep (i : Indexed h d) (nd : NodeData W) :
    Indexed (h ++ [.upsertNode nd]) (d.upsertNode base nd) := by
  have frame := upsertNodeFrame d base nd
  refine i.marked (fun _ => false) ?_ (by rw [frame]) (by rw [frame]) ?_ rfl
  · rw [frame]
    have id : markDead (fun _ : DeltaEdge W => false) = id := rfl
    rw [id,List.map_id]
  · intro e _; rfl

theorem removeNodeStep (i : Indexed h d) (name : String) :
    Indexed (h ++ [.removeNode name]) (d.removeNode base name) := by
  have frame := removeNodeFrame d base name
  refine i.marked (fun e => e.fromName == name || e.toName == name) ?_
    (by rw [frame]) (by rw [frame]) ?_ rfl
  · have first := modifyPositions (fun e : DeltaEdge W => e.fromName == name)
      (markDead (fun _ => true)) d.addedEdges
    have second := modifyPositions (fun e : DeltaEdge W => e.toName == name)
      (markDead (fun _ => true)) (d.addedEdges.map (markDead (fun e => e.fromName == name)))
    rw [positionsMap _ _ (fun e => by simp)] at second
    rw [removeNodeEdges,i.out,i.inc,List.foldl_append,first]
    exact second.trans (markDeadTwice _ _ _ (fun e => by simp))
  · intro e _
    simp [Op.kills,Op.removesTriple,Op.removesEndpoint,Bool.beq_comm]

theorem addEdgeStep (i : Indexed h d) (fromName toName : String) (edge : EdgeData W)
    (room : d.addedEdges.length < 2^32) :
    Indexed (h ++ [.addEdge fromName toName edge]) (d.addEdge fromName toName edge) := by
  have position : asU32 d.addedEdges.length = d.addedEdges.length := Nat.mod_eq_of_lt room
  refine ⟨?_,?_,?_⟩
  · intro f
    simp only [addEdge,position,positionsConcat,Function.update_apply,beq_iff_eq,← i.out]
    split
    · rename_i same; simp [same]
    · rename_i other; simp [Ne.symm other]
  · intro t
    simp only [addEdge,position,positionsConcat,Function.update_apply,beq_iff_eq,← i.inc]
    split
    · rename_i same; simp [same]
    · rename_i other; simp [Ne.symm other]
  · have keeps : ∀ s, (Op.addEdge fromName toName edge).kills s = false := fun _ => rfl
    rw [survivorsConcat,← i.live]
    simp [surviving,addEdge,keeps,Op.added]

theorem removeEdgeStep (i : Indexed h d) (fromName toName kind : String) :
    Indexed (h ++ [.removeEdge fromName toName kind]) (d.removeEdge base fromName toName kind) := by
  have frame := removeEdgeFrame d base fromName toName kind
  refine i.marked (fun e => e.fromName == fromName && (e.toName == toName && e.edge.kind == kind)) ?_
    (by rw [frame]) (by rw [frame]) ?_ rfl
  · rw [removeEdgeEdges,i.out,modifyPositions]
    refine List.map_congr_left (fun e _ => ?_)
    cases source : e.fromName == fromName <;> simp [markDead,source]
  · intro e _
    simp [Op.kills,Op.removesTriple,Op.removesEndpoint,Bool.beq_comm,Bool.and_assoc]

theorem applyOpStep (r : Represents base h d) (i : Indexed h d) (op : Op W)
    (room : edgeAdds (h ++ [op]) ≤ 2^32) : Indexed (h ++ [op]) (applyOp base d op) := by
  cases op with
  | upsertNode nd => exact i.upsertNodeStep nd
  | removeNode name => exact i.removeNodeStep name
  | addEdge fromName toName edge =>
    rw [edgeAddsConcat,Op.isAddEdge,← r.count] at room
    exact i.addEdgeStep fromName toName edge (by simpa using room)
  | removeEdge fromName toName kind => exact i.removeEdgeStep fromName toName kind

end Indexed

theorem Represents.applyOpStep {base : GraphAccessor W} {h : List (Op W)} {d : GraphDelta W}
    (r : Represents base h d) {op : Op W} (ok : d.legal base op) :
    Represents base (h ++ [op]) (GraphDelta.applyOp base d op) := by
  cases op with
  | upsertNode nd => exact r.upsertNodeStep nd
  | removeNode name => exact r.removeNodeStep name
  | addEdge fromName toName edge => exact r.addEdgeStep fromName toName edge ok
  | removeEdge fromName toName kind => exact r.removeEdgeStep fromName toName kind

theorem Reached.represents {base : GraphAccessor W} {h : List (Op W)} {d : GraphDelta W}
    (reached : Reached base h d) : Represents base h d :=
  reached.keeps (Represents base) (.new base) (fun _ _ _ r ok => r.applyOpStep ok)

theorem Reached.indexed {base : GraphAccessor W} {h : List (Op W)} {d : GraphDelta W}
    (reached : Reached base h d) (room : edgeAdds h ≤ 2^32) : Indexed h d := by
  have both := reached.keeps (fun h d => Represents base h d ∧ (edgeAdds h ≤ 2^32 → Indexed h d))
    ⟨.new base,fun _ => .new⟩ (fun h d op held ok => by
      obtain ⟨r,i⟩ := held
      refine ⟨r.applyOpStep ok,fun room => ?_⟩
      have before : edgeAdds h ≤ 2^32 := by
        rw [edgeAddsConcat] at room; omega
      exact (i before).applyOpStep r op room)
  exact both.2 room

end OrpheusGraph
