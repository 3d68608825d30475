import OrpheusGraph.Batch

/-! A batch against its operations one at a time. Validation runs over simulated presence
and tombstones; both stay those of the delta the operation would meet. -/
namespace OrpheusGraph
variable {W : Type}

/- The error of an operation at its position in a batch. -/
def DeltaError.placed (i : Nat) : DeltaError → DeltaError
  | .missingEndpoint _ fromName toName endpoint tombstoned =>
    .missingEndpoint i fromName toName endpoint tombstoned
  | .invalidEdgeValidity _ fromName toName validFrom validTo =>
    .invalidEdgeValidity i fromName toName validFrom validTo

namespace GraphDelta

/- `apply` on the delta in place. -/
def applyMut (d : GraphDelta W) (base : GraphAccessor W) (ops : List (Op W)) :
    Except DeltaError Unit × GraphDelta W :=
  match validate d base ops 0 (fun _ => none) with
  | .ok () => (.ok (),d.replay base ops)
  | .error e => (.error e,d)

/- One call for each operation, up to the first that fails. -/
def applyEach (base : GraphAccessor W) : GraphDelta W → Nat → List (Op W) →
    Except DeltaError (GraphDelta W)
  | d, _, [] => .ok d
  | d, i, op :: rest => match d.applyMut base [op] with
    | (.ok (),next) => applyEach base next (i+1) rest
    | (.error e,_) => .error (e.placed i)

section simulation
variable {d0 d : GraphDelta W} {base : GraphAccessor W} {scratch : Scratch}

/- The scratch stands for the delta that the operations so far would leave. -/
structure Simulates (d0 : GraphDelta W) (base : GraphAccessor W) (scratch : Scratch) (d : GraphDelta W) :
    Prop where
  present : ∀ x, d0.isPresent scratch base x = d.presentIn base x
  tombstoned : ∀ x, d0.isTombstoned scratch x = decide (x ∈ d.removedNodes)

theorem Simulates.start (d : GraphDelta W) (base : GraphAccessor W) : Simulates d base (fun _ => none) d :=
  ⟨fun _ => rfl,fun _ => rfl⟩

theorem isTombstonedUpdate (scratch : Scratch) (name : String) (p : Bool) (x : String) :
    d.isTombstoned (Function.update scratch name (some p)) x =
      if x = name then !p else d.isTombstoned scratch x := by
  simp only [isTombstoned,Function.update_apply]
  split <;> rename_i found <;> split at found <;> simp_all

theorem Simulates.upsert (sim : Simulates d0 base scratch d) (nd : NodeData W) :
    Simulates d0 base (Function.update scratch nd.name (some true)) (d.upsertNode base nd) where
  present x := by rw [presentInUpsert,isPresentUpdate,sim.present]
  tombstoned x := by
    rw [upsertNodeFrame,isTombstonedUpdate,sim.tombstoned]
    simp only [Finset.mem_erase]
    split <;> simp_all

theorem Simulates.remove (sim : Simulates d0 base scratch d) (name : String) :
    Simulates d0 base (Function.update scratch name (some false)) (d.removeNode base name) where
  present x := by rw [presentInRemove,isPresentUpdate,sim.present]
  tombstoned x := by
    rw [removeNodeFrame,isTombstonedUpdate,sim.tombstoned]
    simp only [Finset.mem_insert]
    split <;> simp_all

theorem Simulates.removeEdge (sim : Simulates d0 base scratch d) (fromName toName kind : String) :
    Simulates d0 base scratch (d.removeEdge base fromName toName kind) where
  present x := by rw [presentInRemoveEdge,sim.present]
  tombstoned x := by
    rw [removeEdgeFrame]
    exact sim.tombstoned x

/- The check of an added edge, wherever it stands in the batch. -/
theorem Simulates.check (sim : Simulates d0 base scratch d) (i : Nat) (fromName toName : String)
    (edge : EdgeData W) : checkAddEdge d0 base scratch i fromName toName edge =
      (checkAddEdge d base (fun _ => none) 0 fromName toName edge).mapError (DeltaError.placed i) := by
  have ends : checkAddEdge.endpoints d0 base scratch i fromName toName =
      (checkAddEdge.endpoints d base (fun _ => none) 0 fromName toName).mapError (DeltaError.placed i) := by
    have alone := Simulates.start d base
    unfold checkAddEdge.endpoints
    simp only [sim.present,sim.tombstoned,alone.present,alone.tombstoned]
    cases d.presentIn base fromName with
    | false => rfl
    | true => cases d.presentIn base toName <;> rfl
  unfold checkAddEdge
  split
  · split
    · rfl
    · exact ends
  · exact ends

theorem validateEach (ops : List (Op W)) (i : Nat) (sim : Simulates d0 base scratch d) :
    (validate d0 base ops i scratch).map (fun _ => d.replay base ops) = applyEach base d i ops := by
  induction ops generalizing d i scratch with
  | nil => rfl
  | cons op rest ih =>
    cases op with
    | upsertNode nd => exact ih (i+1) (sim.upsert nd)
    | removeNode name => exact ih (i+1) (sim.remove name)
    | removeEdge fromName toName kind => exact ih (i+1) (sim.removeEdge fromName toName kind)
    | addEdge fromName toName edge =>
      have next := ih (d := d.addEdge fromName toName edge) (i+1) ⟨sim.present,sim.tombstoned⟩
      rw [applyEach,applyMut,validate,validate,sim.check]
      cases checkAddEdge d base (fun _ => none) 0 fromName toName edge with
      | error e => rfl
      | ok done => exact next

end simulation

/- The batch succeeds with the delta of the single operations, or it fails with the error of
the first of them that does and leaves the delta alone. -/
theorem batchIsEach (base : GraphAccessor W) (d : GraphDelta W) (ops : List (Op W)) :
    (d.applyMut base ops = match applyEach base d 0 ops with
      | .ok next => (.ok (),next)
      | .error e => (.error e,d)) ∧ d.apply base ops = applyEach base d 0 ops := by
  rw [← validateEach ops 0 (Simulates.start d base),applyMut,apply]
  cases validate d base ops 0 (fun _ => none) <;> exact ⟨rfl,rfl⟩

end GraphDelta
end OrpheusGraph
