import OrpheusGraph.Delta

/-! What each mutator touches, and validation of a batch against simulated presence as
validation of each operation against the delta it will meet. -/
namespace OrpheusGraph
variable {W : Type}

namespace GraphDelta
section frames
variable (d : GraphDelta W) (base : GraphAccessor W)

theorem killEdgesFrame (hit : DeltaEdge W → Bool) (ps : List Nat) :
    let out := ps.foldl (killEdge hit) d
    out = { d with addedEdges := out.addedEdges, liveDeltaEdgeCount := out.liveDeltaEdgeCount } := by
  induction ps generalizing d with
  | nil => rfl
  | cons p ps ih =>
    have head : killEdge hit d p = { d with
        addedEdges := (killEdge hit d p).addedEdges
        liveDeltaEdgeCount := (killEdge hit d p).liveDeltaEdgeCount } := by
      unfold killEdge
      split
      · split <;> rfl
      · rfl
    have tail := ih (killEdge hit d p)
    simp only [List.foldl_cons]
    rw [head] at tail ⊢
    exact tail

def markDead (hit : DeltaEdge W → Bool) (e : DeltaEdge W) : DeltaEdge W :=
  if hit e then { e with dead := true } else e

theorem modifyFound {es : List (DeltaEdge W)} {p : Nat} {e : DeltaEdge W} (found : es[p]? = some e)
    (f : DeltaEdge W → DeltaEdge W) : es.modify p f = es.set p (f e) := by
  obtain ⟨inside,read⟩ := List.getElem?_eq_some_iff.mp found
  refine List.ext_getElem? (fun i => ?_)
  rw [List.getElem?_modify,List.getElem?_set]
  cases decEq p i with
  | isTrue same => subst same; simp [inside,read]
  | isFalse other => simp [other]

theorem killEdgeEdges (hit : DeltaEdge W → Bool) (p : Nat) :
    (killEdge hit d p).addedEdges = d.addedEdges.modify p (markDead hit) := by
  unfold killEdge
  split
  · rename_i e found
    rw [modifyFound found]
    split
    · rename_i live
      have struck : hit e = true := by simp_all
      simp [markDead,struck]
    · rename_i spared
      have same : markDead hit e = e := by
        obtain ⟨f,t,edge,dead⟩ := e
        cases dead <;> simp_all [markDead]
      obtain ⟨inside,read⟩ := List.getElem?_eq_some_iff.mp found
      rw [same,← read,List.set_getElem_self]
  · rename_i missing
    exact (List.modify_eq_self (List.getElem?_eq_none_iff.mp missing)).symm

theorem killEdgesEdges (hit : DeltaEdge W → Bool) (ps : List Nat) :
    (ps.foldl (killEdge hit) d).addedEdges =
      ps.foldl (fun es p => es.modify p (markDead hit)) d.addedEdges := by
  induction ps generalizing d with
  | nil => rfl
  | cons p ps ih => simp only [List.foldl_cons,ih,killEdgeEdges]

theorem upsertNodeFrame (nd : NodeData W) :
    let out := d.upsertNode base nd
    out = { d with
      addedNodes := d.addedNodes.insert nd.name nd
      removedNodes := d.removedNodes.erase nd.name
      tombstoneBaseHits := out.tombstoneBaseHits
      addedNonBase := out.addedNonBase
      maskedBaseEdgeCount := out.maskedBaseEdgeCount } := by
  simp only [upsertNode,unmaskIncidentBaseEdges]
  split <;> split <;> rfl

theorem removeNodeFrame (name : String) :
    let out := d.removeNode base name
    out = { d with
      addedNodes := d.addedNodes.shiftRemove name
      removedNodes := insert name d.removedNodes
      addedEdges := out.addedEdges
      tombstoneBaseHits := out.tombstoneBaseHits
      addedNonBase := out.addedNonBase
      maskedBaseEdgeCount := out.maskedBaseEdgeCount
      liveDeltaEdgeCount := out.liveDeltaEdgeCount } := by
  simp only [removeNode]
  rw [killEdgesFrame]
  simp only [maskIncidentBaseEdges]
  split <;> split <;> rfl

theorem removeNodeEdges (name : String) : (d.removeNode base name).addedEdges =
    (d.outIndex name ++ d.inIndex name).foldl (fun es p => es.modify p (markDead (fun _ => true)))
      d.addedEdges := by
  simp only [removeNode,killEdgesEdges,maskIncidentBaseEdges]
  split <;> split <;> rfl

theorem removeEdgeFrame (fromName toName kind : String) :
    let out := d.removeEdge base fromName toName kind
    out = { d with
      addedEdges := out.addedEdges
      removedEdges := insert (fromName,toName,kind) d.removedEdges
      maskedBaseEdgeCount := out.maskedBaseEdgeCount
      liveDeltaEdgeCount := out.liveDeltaEdgeCount } := by
  simp only [removeEdge]
  rw [killEdgesFrame]
  split
  · rename_i already; simp only [Finset.insert_eq_of_mem already]
  · rfl

theorem removeEdgeEdges (fromName toName kind : String) :
    (d.removeEdge base fromName toName kind).addedEdges =
      (d.outIndex fromName).foldl (fun es p =>
        es.modify p (markDead (fun e => e.toName == toName && e.edge.kind == kind))) d.addedEdges := by
  simp only [removeEdge]
  split <;> simp only [killEdgesEdges]

end frames

def presentIn (d : GraphDelta W) (base : GraphAccessor W) (x : String) : Bool :=
  d.addedNodes.containsKey x || (x ∉ d.removedNodes && (base.getNode x).isSome)

def legal (d : GraphDelta W) (base : GraphAccessor W) : Op W → Prop
  | .addEdge fromName toName edge => emptyWindow edge.validFrom edge.validTo = false ∧
      d.presentIn base fromName = true ∧ d.presentIn base toName = true
  | _ => True

inductive LegalRun (base : GraphAccessor W) : GraphDelta W → List (Op W) → GraphDelta W → Prop where
  | done (d : GraphDelta W) : LegalRun base d [] d
  | step {d last : GraphDelta W} {op : Op W} {ops : List (Op W)} (ok : d.legal base op)
      (rest : LegalRun base (applyOp base d op) ops last) : LegalRun base d (op::ops) last

theorem LegalRun.replay {base : GraphAccessor W} {d last : GraphDelta W} {ops : List (Op W)}
    (run : LegalRun base d ops last) : last = d.replay base ops := by
  induction run with
  | done d => rfl
  | step ok rest ih => exact ih

theorem LegalRun.append {base : GraphAccessor W} {d mid last : GraphDelta W} {xs ys : List (Op W)}
    (first : LegalRun base d xs mid) (second : LegalRun base mid ys last) :
    LegalRun base d (xs ++ ys) last := by
  induction first with
  | done d => exact second
  | step ok rest ih => exact .step ok (ih second)

theorem LegalRun.split {base : GraphAccessor W} {d last : GraphDelta W} {xs ys : List (Op W)}
    (run : LegalRun base d (xs ++ ys) last) :
    ∃ mid, LegalRun base d xs mid ∧ LegalRun base mid ys last := by
  induction xs generalizing d with
  | nil => exact ⟨d,.done d,run⟩
  | cons op xs ih =>
    obtain _ | ⟨ok,rest⟩ := run
    obtain ⟨mid,first,second⟩ := ih rest
    exact ⟨mid,.step ok first,second⟩

/- A property of the delta kept by every legal operation holds along a legal run. The
history grows at its end. -/
theorem LegalRun.keeps {base : GraphAccessor W} (holds : List (Op W) → GraphDelta W → Prop)
    (step : ∀ h d op, holds h d → d.legal base op → holds (h ++ [op]) (applyOp base d op))
    {h : List (Op W)} {d last : GraphDelta W} {ops : List (Op W)} (start : holds h d)
    (run : LegalRun base d ops last) : holds (h ++ ops) last := by
  induction run generalizing h with
  | done d => simpa using start
  | step ok rest ih => simpa using ih (step _ _ _ start ok)

/-! Simulated presence. -/
variable {d : GraphDelta W} {base : GraphAccessor W}

theorem presentInUpsert (nd : NodeData W) (x : String) :
    (d.upsertNode base nd).presentIn base x = if x = nd.name then true else d.presentIn base x := by
  rw [upsertNodeFrame]
  simp only [presentIn,IndexMap.containsKey,IndexMap.getInsert,Finset.mem_erase]
  split <;> simp_all

theorem presentInRemove (name x : String) :
    (d.removeNode base name).presentIn base x = if x = name then false else d.presentIn base x := by
  rw [removeNodeFrame]
  simp only [presentIn,IndexMap.containsKey,IndexMap.getShiftRemove,Finset.mem_insert]
  split <;> simp_all

theorem presentInRemoveEdge (fromName toName kind x : String) :
    (d.removeEdge base fromName toName kind).presentIn base x = d.presentIn base x := by
  rw [removeEdgeFrame]
  rfl

theorem isPresentUpdate (scratch : Scratch) (name : String) (p : Bool) (x : String) :
    d.isPresent (Function.update scratch name (some p)) base x =
      if x = name then p else d.isPresent scratch base x := by
  simp only [isPresent,Function.update_apply]
  split <;> rename_i found <;> split at found <;> simp_all

theorem checkAddEdgeExact (d0 d : GraphDelta W) (scratch : Scratch) (i : Nat)
    (fromName toName : String) (edge : EdgeData W)
    (simulated : ∀ x, d0.isPresent scratch base x = d.presentIn base x) :
    checkAddEdge d0 base scratch i fromName toName edge = .ok () ↔
      d.legal base (.addEdge fromName toName edge) := by
  have ends : checkAddEdge.endpoints d0 base scratch i fromName toName = .ok () ↔
      d.presentIn base fromName = true ∧ d.presentIn base toName = true := by
    unfold checkAddEdge.endpoints
    simp only [simulated]
    cases d.presentIn base fromName <;> cases d.presentIn base toName <;> simp
  obtain ⟨kind,fieldName,weight,validFrom,validTo,acl⟩ := edge
  cases validFrom with
  | none => simpa [checkAddEdge,legal,emptyWindow] using ends
  | some vf =>
    cases validTo with
    | none => simpa [checkAddEdge,legal,emptyWindow] using ends
    | some vt =>
      simp only [checkAddEdge,legal,emptyWindow,decide_eq_false_iff_not]
      split
      · rename_i reversed; simp [reversed]
      · rename_i ordered; simpa [ordered] using ends

theorem validateExact (d0 d : GraphDelta W) (ops : List (Op W)) (i : Nat) (scratch : Scratch)
    (simulated : ∀ x, d0.isPresent scratch base x = d.presentIn base x) :
    validate d0 base ops i scratch = .ok () ↔ LegalRun base d ops (d.replay base ops) := by
  have ahead : ∀ {op : Op W} {ops : List (Op W)} {d : GraphDelta W},
      LegalRun base d (op::ops) (d.replay base (op::ops)) ↔ d.legal base op ∧
        LegalRun base (applyOp base d op) ops ((applyOp base d op).replay base ops) :=
    ⟨fun | .step ok rest => ⟨ok,rest⟩,fun ⟨ok,rest⟩ => .step ok rest⟩
  induction ops generalizing d i scratch with
  | nil => simp only [validate,true_iff]; exact .done d
  | cons op ops ih =>
    rw [ahead]
    cases op with
    | upsertNode nd =>
      have next := ih (d.upsertNode base nd) (i+1) (Function.update scratch nd.name (some true)) (by
        intro x
        rw [presentInUpsert,isPresentUpdate,simulated])
      simpa [validate,legal,applyOp] using next
    | removeNode name =>
      have next := ih (d.removeNode base name) (i+1) (Function.update scratch name (some false)) (by
        intro x
        rw [presentInRemove,isPresentUpdate,simulated])
      simpa [validate,legal,applyOp] using next
    | addEdge fromName toName edge =>
      have head := checkAddEdgeExact d0 d scratch i fromName toName edge simulated
      have next := ih (d.addEdge fromName toName edge) (i+1) scratch simulated
      simp only [validate,applyOp,← head,← next]
      cases checkAddEdge d0 base scratch i fromName toName edge <;> simp [bind,Except.bind]
    | removeEdge fromName toName kind =>
      have next := ih (d.removeEdge base fromName toName kind) (i+1) scratch (by
        intro x; rw [presentInRemoveEdge,← simulated])
      simpa [validate,legal,applyOp] using next

theorem applyExact (d next : GraphDelta W) (ops : List (Op W)) :
    d.apply base ops = .ok next ↔ LegalRun base d ops next := by
  have valid : validate d base ops 0 (fun _ => none) = .ok () ↔
      LegalRun base d ops (d.replay base ops) := validateExact d d ops 0 _ (fun _ => rfl)
  unfold apply
  constructor
  · intro ok
    cases checked : validate d base ops 0 (fun _ => none) with
    | error e => simp [checked,bind,Except.bind] at ok
    | ok done =>
      simp only [checked,bind,Except.bind,pure,Except.pure,Except.ok.injEq] at ok
      exact ok ▸ valid.mp checked
  · intro run
    have same := run.replay
    have checked := valid.mpr (same ▸ run)
    simp [checked,bind,Except.bind,pure,Except.pure,same]

theorem replayAppend (ops more : List (Op W)) : d.replay base (ops ++ more) = (d.replay base ops).replay base more :=
  List.foldl_append

theorem applyReplay {ops : List (Op W)} {next : GraphDelta W} (ok : d.apply base ops = .ok next) :
    next = d.replay base ops := ((applyExact _ _ _).mp ok).replay

end GraphDelta

/- The deltas that accepted batches build from the empty one, with the operations so far. -/
inductive Reached (base : GraphAccessor W) : List (Op W) → GraphDelta W → Prop where
  | new : Reached base [] .new
  | batch {h ops : List (Op W)} {d next : GraphDelta W} (before : Reached base h d)
      (accepted : d.apply base ops = .ok next) : Reached base (h ++ ops) next

theorem Reached.run {base : GraphAccessor W} {h : List (Op W)} {d : GraphDelta W}
    (reached : Reached base h d) : GraphDelta.LegalRun base .new h d := by
  induction reached with
  | new => exact .done _
  | batch before accepted ih => exact ih.append ((GraphDelta.applyExact _ _ _).mp accepted)

theorem Reached.keeps {base : GraphAccessor W} (holds : List (Op W) → GraphDelta W → Prop)
    (new : holds [] .new)
    (step : ∀ h d op, holds h d → d.legal base op →
      holds (h ++ [op]) (GraphDelta.applyOp base d op))
    {h : List (Op W)} {d : GraphDelta W} (reached : Reached base h d) : holds h d :=
  reached.run.keeps holds step new

end OrpheusGraph
