import OrpheusGraph.Transparency
import OrpheusGraph.Lib.Traces

/-! Batches up to the order of the operations that do not depend on one another: whichever of them the writer lock
serves first, the same are accepted and the graph is the same. -/
namespace OrpheusGraph
open Traces
variable {W : Type}

/- One sets a node that the other sets or needs, or they are about the same triple. -/
def Op.blocks : Op W → Op W → Bool
  | .upsertNode nd, .upsertNode nd' => nd.name == nd'.name
  | .upsertNode nd, .removeNode name => nd.name == name
  | .upsertNode nd, .addEdge fromName toName _ => nd.name == fromName || nd.name == toName
  | .removeNode name, .addEdge fromName toName _ => name == fromName || name == toName
  | .removeEdge fromName toName kind, .addEdge f t edge => fromName == f && toName == t && kind == edge.kind
  | _, _ => false

def Op.Free (a b : Op W) : Prop := a.blocks b = false ∧ b.blocks a = false

instance (a b : Op W) : Decidable (a.Free b) := inferInstanceAs (Decidable (_ ∧ _))

theorem Op.Free.symm {a b : Op W} (free : a.Free b) : b.Free a := ⟨free.2,free.1⟩

/-! Histories. -/
structure Alike (h h' : List (Op W)) : Prop where
  last : ∀ n, lastOn n h = lastOn n h'
  triples : ∀ f t kind, h.any (Op.removesTriple f t kind) = h'.any (Op.removesTriple f t kind)
  survivors : (survivors h).Perm (survivors h')

def legalAfter (base : GraphAccessor W) (h : List (Op W)) : Op W → Prop
  | .addEdge fromName toName edge => emptyWindow edge.validFrom edge.validTo = false ∧
      presentAfter base h fromName = true ∧ presentAfter base h toName = true
  | _ => True

def Extends (base : GraphAccessor W) (h : List (Op W)) (op : Op W) (h' : List (Op W)) : Prop :=
  legalAfter base h op ∧ h' = h ++ [op]

section histories
variable {base : GraphAccessor W} {h h' : List (Op W)} {a b : Op W}

theorem Alike.refl (h : List (Op W)) : Alike h h := ⟨fun _ => rfl,fun _ _ _ => rfl,.refl _⟩

theorem Alike.trans {k : List (Op W)} (x : Alike h h') (y : Alike h' k) : Alike h k :=
  ⟨fun n => (x.last n).trans (y.last n),fun f t kind => (x.triples f t kind).trans (y.triples f t kind),x.survivors.trans y.survivors⟩

theorem Alike.present (alike : Alike h h') (n : String) : presentAfter base h n = presentAfter base h' n := by
  rw [presentAfter,presentAfter,alike.last n]

theorem Alike.legal (alike : Alike h h') (op : Op W) (ok : legalAfter base h op) : legalAfter base h' op := by
  cases op with
  | addEdge fromName toName edge =>
    rw [legalAfter,alike.present,alike.present] at ok
    exact ok
  | upsertNode nd => trivial
  | removeNode name => trivial
  | removeEdge fromName toName kind => trivial

theorem Alike.concat (alike : Alike h h') (op : Op W) : Alike (h ++ [op]) (h' ++ [op]) where
  last n := by rw [lastOnConcat,lastOnConcat,alike.last n]
  triples f t kind := by rw [List.any_append,List.any_append,alike.triples f t kind]
  survivors := by
    rw [survivorsConcat,survivorsConcat]
    exact (alike.survivors.filter _).append_right _

/- Free operations that both change a node both remove it. -/
theorem freeSets {n : String} {x y : Option (NodeData W)} (free : a.Free b) (first : a.onNode n = some x) (second : b.onNode n = some y) :
    x = y := by
  obtain ⟨ab,ba⟩ := free
  cases a with
  | upsertNode nd =>
    obtain ⟨named,_⟩ := Option.ite_none_right_eq_some.mp first
    cases b with
    | upsertNode nd' =>
      obtain ⟨named',_⟩ := Option.ite_none_right_eq_some.mp second
      exact absurd (named.trans named'.symm) (beq_eq_false_iff_ne.mp ab)
    | removeNode name =>
      obtain ⟨named',_⟩ := Option.ite_none_right_eq_some.mp second
      exact absurd (named.trans named'.symm) (beq_eq_false_iff_ne.mp ab)
    | addEdge fromName toName edge => contradiction
    | removeEdge fromName toName kind => contradiction
  | removeNode name =>
    obtain ⟨named,cleared⟩ := Option.ite_none_right_eq_some.mp first
    cases b with
    | upsertNode nd =>
      obtain ⟨named',_⟩ := Option.ite_none_right_eq_some.mp second
      exact absurd (named'.trans named.symm) (beq_eq_false_iff_ne.mp ba)
    | removeNode other =>
      obtain ⟨_,cleared'⟩ := Option.ite_none_right_eq_some.mp second
      exact Option.some.inj (cleared.symm.trans cleared')
    | addEdge fromName toName edge => contradiction
    | removeEdge fromName toName kind => contradiction
  | addEdge fromName toName edge => contradiction
  | removeEdge fromName toName kind => contradiction

/- What they do to a node does not depend on which comes first. -/
theorem freeOnNode (free : a.Free b) (n : String) : (a.onNode n).or (b.onNode n) = (b.onNode n).or (a.onNode n) := by
  cases first : a.onNode n with
  | none => rw [Option.none_or,Option.or_none]
  | some x =>
    cases second : b.onNode n with
    | none => rfl
    | some y =>
      have same : x = y := freeSets free first second
      rw [same]

theorem freeAdded (free : a.Free b) : b.added.filter (fun s => !a.kills s) = b.added := by
  obtain ⟨ab,_⟩ := free
  cases b with
  | addEdge fromName toName edge =>
    have spared : a.kills (fromName,toName,edge.normalized) = false := by
      cases a with
      | addEdge f t e => rfl
      | upsertNode nd => rfl
      | removeNode name => exact ab
      | removeEdge f t kind => exact (Bool.or_false _).trans ab
    simp [Op.added,spared]
  | upsertNode nd => rfl
  | removeNode name => rfl
  | removeEdge fromName toName kind => rfl

/- The ends of an edge are left alone by what is free of its addition. -/
theorem freeEnds {fromName toName : String} {edge : EdgeData W} (free : a.blocks (.addEdge fromName toName edge) = false)
    (n : String) (end_ : n = fromName ∨ n = toName) : a.onNode n = none := by
  cases a with
  | upsertNode nd =>
    obtain ⟨source,target⟩ := Bool.or_eq_false_iff.mp free
    refine if_neg (fun same => ?_)
    cases end_ with
    | inl atSource => exact beq_eq_false_iff_ne.mp source (same.trans atSource)
    | inr atTarget => exact beq_eq_false_iff_ne.mp target (same.trans atTarget)
  | removeNode name =>
    obtain ⟨source,target⟩ := Bool.or_eq_false_iff.mp free
    refine if_neg (fun same => ?_)
    cases end_ with
    | inl atSource => exact beq_eq_false_iff_ne.mp source (same.trans atSource)
    | inr atTarget => exact beq_eq_false_iff_ne.mp target (same.trans atTarget)
  | addEdge f t e => rfl
  | removeEdge f t kind => rfl

theorem freeLegal (free : a.blocks b = false) : legalAfter base (h ++ [a]) b ↔ legalAfter base h b := by
  cases b with
  | addEdge fromName toName edge =>
    rw [legalAfter,legalAfter,presentAfterConcat,presentAfterConcat,freeEnds free _ (.inl rfl),freeEnds free _ (.inr rfl)]
  | upsertNode nd => exact Iff.rfl
  | removeNode name => exact Iff.rfl
  | removeEdge fromName toName kind => exact Iff.rfl

theorem freeAlike (free : a.Free b) (h : List (Op W)) : Alike (h ++ [a] ++ [b]) (h ++ [b] ++ [a]) where
  last n := by
    rw [lastOnConcat,lastOnConcat,lastOnConcat,lastOnConcat,← Option.or_assoc,← Option.or_assoc,freeOnNode free n]
  triples f t kind := by
    simp only [List.any_append,List.any_cons,List.any_nil,Bool.or_false]
    exact Bool.or_right_comm _ _ _
  survivors := by
    rw [survivorsConcat,survivorsConcat,survivorsConcat,survivorsConcat,List.filter_append,List.filter_append,
      freeAdded free.symm,freeAdded free,List.filter_filter,List.filter_filter,List.append_assoc,List.append_assoc]
    simp only [Bool.and_comm]
    exact List.perm_append_comm.append_left _

theorem extendsConfluent (base : GraphAccessor W) : Confluent (Extends base) Alike Op.Free where
  refl := .refl
  trans := .trans
  follows := by
    intro h h' next op alike step
    obtain ⟨ok,rfl⟩ := step
    exact ⟨_,⟨alike.legal op ok,rfl⟩,alike.concat op⟩
  diamond := by
    intro h next last a b free first second
    obtain ⟨ok,rfl⟩ := first
    obtain ⟨ok',rfl⟩ := second
    exact ⟨_,_,⟨(freeLegal free.1).mp ok',rfl⟩,⟨(freeLegal free.2).mpr ok,rfl⟩,freeAlike free h⟩

end histories

/-! Deltas. -/
section deltas
variable {base : NamedGraph W} {h h' : List (Op W)} {d d' last : GraphDelta W} {ops : List (Op W)}

theorem Represents.legal {base : GraphAccessor W} (r : Represents base h d) (op : Op W) : d.legal base op ↔ legalAfter base h op := by
  cases op with
  | addEdge fromName toName edge => rw [GraphDelta.legal,legalAfter,r.presentIn,r.presentIn]
  | upsertNode nd => exact Iff.rfl
  | removeNode name => exact Iff.rfl
  | removeEdge fromName toName kind => exact Iff.rfl

theorem legalExtends {base : GraphAccessor W} (r : Represents base h d) (run : GraphDelta.LegalRun base d ops last) :
    Run (Extends base) h ops (h ++ ops) := by
  induction run generalizing h with
  | done d =>
    rw [List.append_nil]
    exact .done h
  | @step d last op ops ok rest ih =>
    have onward := ih (r.applyOpStep ok)
    rw [List.append_assoc] at onward
    exact .step ⟨(r.legal op).mp ok,rfl⟩ onward

theorem extendsLegal {base : GraphAccessor W} (r : Represents base h d) (run : Run (Extends base) h ops h') :
    GraphDelta.LegalRun base d ops (d.replay base ops) ∧ h' = h ++ ops := by
  induction run generalizing d with
  | done h => exact ⟨.done d,(List.append_nil h).symm⟩
  | @step h next last op ops first onward ih =>
    obtain ⟨ok,rfl⟩ := first
    have legal := (r.legal op).mpr ok
    obtain ⟨rest,ends⟩ := ih (r.applyOpStep legal)
    exact ⟨.step legal rest,by rw [ends,List.append_assoc]; rfl⟩

/- The merged views after histories that are alike. -/
theorem alikeViews (reached : Reached base.toGraphAccessor h d) (reached' : Reached base.toGraphAccessor h' d') (alike : Alike h h')
    (room : edgeAdds h ≤ 2^32) (room' : edgeAdds h' ≤ 2^32) :
    SameGraph (deltaAccessor base.toGraphAccessor d) (deltaAccessor base.toGraphAccessor d') := by
  have r := reached.represents
  have r' := reached'.represents
  have i := reached.indexed room
  have i' := reached'.indexed room'
  refine SameGraph.ofOutgoing (Merged.graph r reached.counted i) (Merged.graph r' reached'.counted i') (fun n => ?_) (fun f => ?_)
  · change ((deltaAccessor _ d).getNode n).map _ = ((deltaAccessor _ d').getNode n).map _
    rw [Merged.getNodeExact r,Merged.getNodeExact r',nodeAfter,nodeAfter,alike.last n]
  · change (((deltaAccessor _ d).outgoingNeighbors f).map _).Perm (((deltaAccessor _ d').outgoingNeighbors f).map _)
    have visible : baseEdgeVisible base.toGraphAccessor h f = baseEdgeVisible base.toGraphAccessor h' f := by
      funext t kind
      rw [baseEdgeVisible,baseEdgeVisible,alike.triples,alike.present,alike.present]
    rw [Merged.outgoingExact r i,Merged.outgoingExact r' i',historyOutgoing,historyOutgoing,visible]
    exact (((alike.survivors.filter _).map _).append_left _).map _

end deltas

/-! Batches. -/
section batches
variable {d last : GraphDelta W} {h : List (Op W)} {batches batches' : List (List (Op W))}

def AllAccepted (base : GraphAccessor W) (d : GraphDelta W) (batches : List (List (Op W))) : Prop :=
  ∀ flag ∈ (runBatches base d batches).1, flag = true

theorem acceptedLegal {base : GraphAccessor W} (accepted : AllAccepted base d batches) :
    GraphDelta.LegalRun base d batches.flatten (runBatches base d batches).2 := by
  induction batches generalizing d with
  | nil => exact .done d
  | cons ops rest ih =>
    rw [AllAccepted,runBatches] at accepted
    rw [runBatches,List.flatten_cons]
    cases outcome : d.apply base ops with
    | ok next =>
      rw [outcome] at accepted
      exact ((GraphDelta.applyExact _ _ _).mp outcome).append (ih (fun flag member => accepted flag (List.mem_cons_of_mem _ member)))
    | error e =>
      rw [outcome] at accepted
      cases accepted false List.mem_cons_self

theorem legalAccepted {base : GraphAccessor W} (run : GraphDelta.LegalRun base d batches.flatten last) :
    AllAccepted base d batches ∧ (runBatches base d batches).2 = last := by
  induction batches generalizing d with
  | nil =>
    cases run
    exact ⟨fun _ member => (nomatch member),rfl⟩
  | cons ops rest ih =>
    rw [List.flatten_cons] at run
    obtain ⟨mid,first,onward⟩ := run.split
    obtain ⟨flags,ends⟩ := ih onward
    rw [AllAccepted,runBatches,(GraphDelta.applyExact _ _ _).mpr first]
    exact ⟨List.forall_mem_cons.mpr ⟨rfl,flags⟩,ends⟩

theorem reorderedAccepted {base : NamedGraph W} (reached : Reached base.toGraphAccessor h d)
    (swaps : Swaps Op.Free batches.flatten batches'.flatten) (accepted : AllAccepted base.toGraphAccessor d batches) :
    AllAccepted base.toGraphAccessor d batches' ∧ (edgeAdds (h ++ batches.flatten) ≤ 2^32 →
      SameGraph (deltaAccessor base.toGraphAccessor (runBatches base.toGraphAccessor d batches').2)
        (deltaAccessor base.toGraphAccessor (runBatches base.toGraphAccessor d batches).2)) := by
  have r := reached.represents
  have legal := acceptedLegal accepted
  obtain ⟨h',run,alike⟩ := (legalExtends r legal).swapped (extendsConfluent base.toGraphAccessor) swaps
  obtain ⟨legal',rfl⟩ := extendsLegal r run
  obtain ⟨accepted',ends⟩ := legalAccepted legal'
  refine ⟨accepted',fun room => ?_⟩
  have adds : edgeAdds (h ++ batches'.flatten) = edgeAdds (h ++ batches.flatten) := (swaps.perm.symm.append_left h).countP_eq _
  have one := reached.batch ((GraphDelta.applyExact _ _ _).mpr legal)
  have other := reached.batch ((GraphDelta.applyExact _ _ _).mpr legal')
  rw [ends]
  exact (alikeViews one other alike room (adds.trans_le room)).symm

/- Cut into batches in one way or another, and with operations that are free of one another in either order. -/
theorem reorderedBatches {base : NamedGraph W} (reached : Reached base.toGraphAccessor h d)
    (swaps : Swaps Op.Free batches.flatten batches'.flatten) :
    (AllAccepted base.toGraphAccessor d batches ↔ AllAccepted base.toGraphAccessor d batches') ∧
    (AllAccepted base.toGraphAccessor d batches → edgeAdds (h ++ batches.flatten) ≤ 2^32 →
      SameGraph (deltaAccessor base.toGraphAccessor (runBatches base.toGraphAccessor d batches').2)
        (deltaAccessor base.toGraphAccessor (runBatches base.toGraphAccessor d batches).2)) := by
  have back := swaps.symm Op.Free.symm
  refine ⟨⟨fun accepted => ?_,fun accepted => ?_⟩,fun accepted => ?_⟩
  · exact (reorderedAccepted reached swaps accepted).1
  · exact (reorderedAccepted reached back accepted).1
  · exact (reorderedAccepted reached swaps accepted).2

end batches

theorem crossedBatches :
    let loop : List (Op Unit) := [.upsertNode (sampleNode "b"),.addEdge "b" "b" sampleEdge]
    let start : List (Op Unit) := [.upsertNode (sampleNode "a")]
    AllAccepted NamedGraph.empty.toGraphAccessor .new [loop ++ start] ∧
      SameGraph (deltaAccessor NamedGraph.empty.toGraphAccessor (runBatches NamedGraph.empty.toGraphAccessor .new [loop ++ start]).2)
        (deltaAccessor NamedGraph.empty.toGraphAccessor (runBatches NamedGraph.empty.toGraphAccessor .new [start,loop]).2) := by
  intro loop start
  have accepted : AllAccepted NamedGraph.empty.toGraphAccessor .new [start,loop] := by
    rw [AllAccepted,show (runBatches NamedGraph.empty.toGraphAccessor .new [start,loop]).1 = [true,true] from rfl]
    decide
  have swaps : Swaps Op.Free [start,loop].flatten [loop ++ start].flatten := Traces.Swaps.commute (by decide)
  obtain ⟨same,graph⟩ := reorderedBatches .new swaps
  exact ⟨same.mp accepted,graph accepted (by decide)⟩

end OrpheusGraph
