import OrpheusGraph.Fold

/-! Running on after a compaction against running on without it. Both accept the same
batches; they end in the same graph exactly when no edge comes back to life. -/
namespace OrpheusGraph
variable {W : Type}

/- The outcome of each batch and the delta at the end; a rejected batch changes nothing. -/
def runBatches (base : GraphAccessor W) (d : GraphDelta W) : List (List (Op W)) → List Bool × GraphDelta W
  | [] => ([],d)
  | ops :: rest => match d.apply base ops with
    | .ok next => let out := runBatches base next rest; (true :: out.1,out.2)
    | .error _ => let out := runBatches base d rest; (false :: out.1,out.2)

def acceptedOps : List (List (Op W)) → List Bool → List (Op W)
  | ops :: rest, flag :: flags => (if flag then ops else []) ++ acceptedOps rest flags
  | _, _ => []

/- A base edge that had lost an endpoint is back, though nobody added it again. -/
def baseEdgeReturns (base : GraphAccessor W) (xs ys : List (Op W)) (f t kind : String) : Prop :=
  (presentAfter base xs f = false ∨ presentAfter base xs t = false) ∧
    baseEdgeVisible base (xs ++ ys) f t kind = true

/- An added edge that was folded into the base survives the removal of an endpoint that
would have killed it in the delta. -/
def addedEdgeReturns (base : GraphAccessor W) (xs ys : List (Op W)) (s : NamedEdge W) : Prop :=
  ys.any (Op.removesEndpoint s.1 s.2.1) = true ∧ ys.any (Op.removesTriple s.1 s.2.1 s.2.2.kind) = false ∧
    presentAfter base (xs ++ ys) s.1 = true ∧ presentAfter base (xs ++ ys) s.2.1 = true

def NoEdgeReturns (base : GraphAccessor W) (xs ys : List (Op W)) : Prop :=
  (∀ f, ∀ nb ∈ base.outgoingNeighbors f, ¬ baseEdgeReturns base xs ys f nb.targetName nb.edgeKind) ∧
  (∀ s ∈ survivors xs, ¬ addedEdgeReturns base xs ys s)

theorem lastOnAppend (n : String) (xs ys : List (Op W)) :
    lastOn n (xs ++ ys) = (lastOn n ys).or (lastOn n xs) := by
  simp only [lastOn,List.reverse_append,List.findSome?_append]

theorem survivorsAppend (xs ys : List (Op W)) :
    survivors (xs ++ ys) = (survivors xs).filter (fun s => !ys.any (fun op => op.kills s)) ++ survivors ys := by
  induction ys using List.reverseRecOn with
  | nil => simp [survivors]
  | append_singleton ys op ih =>
    rw [← List.append_assoc,survivorsConcat,ih,survivorsConcat,List.filter_append,List.filter_filter,
      List.append_assoc]
    congr 1
    refine List.filter_congr (fun s _ => ?_)
    simp only [List.any_append,List.any_cons,List.any_nil,Bool.or_false,Bool.not_or]
    exact Bool.and_comm _ _

/-! Acceptance looks at presence only. -/
namespace GraphDelta

def stepPresent (op : Op W) (present : String → Bool) : String → Bool :=
  match op with
  | .upsertNode nd => fun x => if x = nd.name then true else present x
  | .removeNode name => fun x => if x = name then false else present x
  | _ => present

theorem presentInStep (base : GraphAccessor W) (d : GraphDelta W) (op : Op W) :
    (applyOp base d op).presentIn base = stepPresent op (d.presentIn base) := by
  funext x
  cases op with
  | upsertNode nd => exact presentInUpsert nd x
  | removeNode name => exact presentInRemove name x
  | addEdge fromName toName edge => rfl
  | removeEdge fromName toName kind => exact presentInRemoveEdge fromName toName kind x

variable {base other : GraphAccessor W} {d e : GraphDelta W}

theorem LegalRun.transfer {last : GraphDelta W} {ops : List (Op W)} (run : LegalRun base d ops last)
    (same : d.presentIn base = e.presentIn other) :
    ∃ last', LegalRun other e ops last' ∧ last.presentIn base = last'.presentIn other := by
  induction run generalizing e with
  | done d => exact ⟨e,.done e,same⟩
  | @step d last op ops ok rest ih =>
    have legal : e.legal other op := by
      cases op with
      | addEdge fromName toName edge =>
        obtain ⟨window,source,target⟩ := ok
        rw [same] at source target
        exact ⟨window,source,target⟩
      | upsertNode nd => trivial
      | removeNode name => trivial
      | removeEdge fromName toName kind => trivial
    obtain ⟨last',run',same'⟩ := ih (e := applyOp other e op) (by
      rw [presentInStep,presentInStep,same])
    exact ⟨last',.step legal run',same'⟩

end GraphDelta

theorem runBatchesReached {base : GraphAccessor W} {h : List (Op W)} {d : GraphDelta W}
    (reached : Reached base h d) (batches : List (List (Op W))) :
    Reached base (h ++ acceptedOps batches (runBatches base d batches).1) (runBatches base d batches).2 := by
  induction batches generalizing h d with
  | nil => simpa [runBatches,acceptedOps] using reached
  | cons ops rest ih =>
    cases outcome : d.apply base ops with
    | ok next =>
      have later := ih (.batch reached outcome)
      simpa [runBatches,acceptedOps,outcome] using later
    | error e =>
      have later := ih reached
      simpa [runBatches,acceptedOps,outcome] using later

theorem runBatchesAgree {base other : GraphAccessor W} (batches : List (List (Op W))) {d e : GraphDelta W}
    (same : d.presentIn base = e.presentIn other) :
    (runBatches base d batches).1 = (runBatches other e batches).1 := by
  induction batches generalizing d e with
  | nil => rfl
  | cons ops rest ih =>
    cases left : d.apply base ops with
    | ok next =>
      obtain ⟨next',run,same'⟩ := ((GraphDelta.applyExact _ _ _).mp left).transfer same
      have right := (GraphDelta.applyExact _ _ _).mpr run
      simp [runBatches,left,right,ih same']
    | error reason =>
      cases right : e.apply other ops with
      | ok next =>
        obtain ⟨next',run,_⟩ := ((GraphDelta.applyExact _ _ _).mp right).transfer same.symm
        rw [(GraphDelta.applyExact _ _ _).mpr run] at left
        contradiction
      | error reason' => simp [runBatches,left,right,ih same]

/-! The two views, written over the history before the compaction. -/
namespace Transparency
variable {base fold : NamedGraph W} {xs ys : List (Op W)} {d : GraphDelta W}

def outlives (ys : List (Op W)) (s : NamedEdge W) : Bool := !ys.any (fun op => op.kills s)

/- Whether the folded base still shows one of its edges after `ys`. -/
def showsAfter (base : GraphAccessor W) (xs ys : List (Op W)) (f t kind : String) : Bool :=
  !ys.any (Op.removesTriple f t kind) && presentAfter base (xs ++ ys) f && presentAfter base (xs ++ ys) t

theorem killsSplit (ys : List (Op W)) (s : NamedEdge W) : outlives ys s =
    (!ys.any (Op.removesTriple s.1 s.2.1 s.2.2.kind) && !ys.any (Op.removesEndpoint s.1 s.2.1)) := by
  unfold outlives
  induction ys with
  | nil => rfl
  | cons op ys ih =>
    simp only [List.any_cons,Bool.not_or] at ih ⊢
    rw [ih,Op.kills,Bool.not_or]
    cases Op.removesTriple s.1 s.2.1 s.2.2.kind op <;> cases Op.removesEndpoint s.1 s.2.1 op <;> simp

theorem presentThrough (base : GraphAccessor W) (xs ys : List (Op W)) {n : String}
    (present : presentAfter base xs n = true)
    (kept : ∀ op ∈ ys, ∀ name, op = .removeNode name → name ≠ n) :
    presentAfter base (xs ++ ys) n = true := by
  induction ys using List.reverseRecOn with
  | nil => simpa using present
  | append_singleton ys op ih =>
    have before := ih (fun other member => kept other (List.mem_append_left _ member))
    rw [← List.append_assoc,presentAfterConcat]
    cases op with
    | upsertNode nd =>
      simp only [Op.onNode]
      cases decEq nd.name n with
      | isTrue same => simp [same]
      | isFalse other => simpa [other] using before
    | removeNode name =>
      have other := kept (.removeNode name) (by simp) name rfl
      simpa [Op.onNode,other] using before
    | addEdge fromName toName edge => exact before
    | removeEdge fromName toName kind => exact before

theorem endpointsThrough (base : GraphAccessor W) (xs ys : List (Op W)) {f t : String}
    (source : presentAfter base xs f = true) (target : presentAfter base xs t = true)
    (kept : ys.any (Op.removesEndpoint f t) = false) :
    presentAfter base (xs ++ ys) f = true ∧ presentAfter base (xs ++ ys) t = true := by
  have apart : ∀ op ∈ ys, ∀ name, op = .removeNode name → name ≠ f ∧ name ≠ t := by
    rintro op member name rfl
    have spared := List.any_eq_false.mp kept _ member
    simpa [Op.removesEndpoint] using spared
  exact ⟨presentThrough base xs ys source (fun op member name same => (apart op member name same).1),
    presentThrough base xs ys target (fun op member name same => (apart op member name same).2)⟩

/- A survivor that nothing in `ys` kills is shown; one that is shown but not spared had an
endpoint removed and put back. -/
theorem outlivesShown (ys : List (Op W)) (r : Represents base.toGraphAccessor xs d) {s : NamedEdge W}
    (member : s ∈ survivors xs) : outlives ys s =
      (showsAfter base.toGraphAccessor xs ys s.1 s.2.1 s.2.2.kind &&
        !ys.any (Op.removesEndpoint s.1 s.2.1)) := by
  obtain ⟨source,target⟩ := r.anchored s member
  rw [killsSplit,showsAfter]
  cases removed : ys.any (Op.removesEndpoint s.1 s.2.1) with
  | true => simp
  | false =>
    obtain ⟨sourceStays,targetStays⟩ := endpointsThrough _ xs ys source target removed
    simp [sourceStays,targetStays]

theorem visibleThrough (base : GraphAccessor W) (xs ys : List (Op W)) (f t kind : String) :
    (baseEdgeVisible base xs f t kind && showsAfter base xs ys f t kind) =
      (baseEdgeVisible base (xs ++ ys) f t kind && (presentAfter base xs f && presentAfter base xs t)) := by
  simp only [baseEdgeVisible,showsAfter,List.any_append,Bool.not_or]
  cases xs.any (Op.removesTriple f t kind) <;> cases ys.any (Op.removesTriple f t kind) <;>
    cases presentAfter base xs f <;> cases presentAfter base xs t <;> simp

theorem nodeThrough (ys : List (Op W)) (r : Represents base.toGraphAccessor xs d)
    (same : SameGraph fold.toGraphAccessor (deltaAccessor base.toGraphAccessor d)) (n : String) :
    (nodeAfter fold.toGraphAccessor ys n).map NodeView.unranked =
      (nodeAfter base.toGraphAccessor (xs ++ ys) n).map NodeView.unranked := by
  have nodes := same.nodes n
  rw [Merged.getNodeExact r] at nodes
  unfold nodeAfter at nodes ⊢
  rw [lastOnAppend]
  rcases lastOn n ys with _ | _ | nd
  · exact nodes
  · rfl
  · rfl

theorem presentThroughFold (r : Represents base.toGraphAccessor xs d)
    (same : SameGraph fold.toGraphAccessor (deltaAccessor base.toGraphAccessor d)) (n : String) :
    presentAfter fold.toGraphAccessor ys n = presentAfter base.toGraphAccessor (xs ++ ys) n := by
  have nodes := congrArg Option.isSome (nodeThrough ys r same n)
  simpa [presentAfterNode] using nodes

theorem outOfFilter (es : List (NamedEdge W)) (p : NamedEdge W → Bool) (f : String) :
    Mirror.outOf (es.filter p) f = (Mirror.outOf es f).filter (fun x => p (f,x)) := by
  rw [Mirror.outOf,Mirror.outOf,List.filter_map,List.filter_filter,List.filter_filter]
  congr 1
  refine List.filter_congr (fun e _ => ?_)
  cases decEq e.1 f with
  | isTrue same => simp [← same]
  | isFalse other => simp [other]

theorem plainPairs (base : GraphAccessor W) (xs ys : List (Op W)) (f : String) :
    (historyOutgoing base (xs ++ ys) f).map NeighborView.pair =
      (base.outPairs f).filter (fun x => baseEdgeVisible base (xs ++ ys) f x.1 x.2.kind) ++
        ((Mirror.outOf (survivors xs) f).filter (fun x => outlives ys (f,x)) ++
          Mirror.outOf (survivors ys) f) := by
  rw [Merged.historyOutPairs,survivorsAppend,← outOfFilter]
  simp only [Mirror.outOf,List.filter_append,List.map_append]
  rfl

theorem foldedPairs (ys : List (Op W)) (r : Represents base.toGraphAccessor xs d) (i : Indexed xs d)
    (same : SameGraph fold.toGraphAccessor (deltaAccessor base.toGraphAccessor d)) (f : String) :
    ((historyOutgoing fold.toGraphAccessor ys f).map NeighborView.pair).Perm
      ((base.outPairs f).filter (fun x => baseEdgeVisible base.toGraphAccessor (xs ++ ys) f x.1 x.2.kind &&
          (presentAfter base.toGraphAccessor xs f && presentAfter base.toGraphAccessor xs x.1)) ++
        ((Mirror.outOf (survivors xs) f).filter (fun x =>
            showsAfter base.toGraphAccessor xs ys f x.1 x.2.kind) ++ Mirror.outOf (survivors ys) f)) := by
  have folded := (same.outgoing f).map NeighborView.pair
  rw [Merged.outgoingExact r i,Merged.historyOutPairs] at folded
  have shows : ∀ x : String × EdgeData W, Merged.kept fold.toGraphAccessor ys f x.1 x.2 =
      showsAfter base.toGraphAccessor xs ys f x.1 x.2.kind := by
    intro x
    simp only [Merged.kept,baseEdgeVisible,showsAfter,presentThroughFold r same]
  rw [Merged.historyOutPairs,← List.append_assoc]
  refine List.Perm.append_right _ ?_
  simp only [shows]
  refine (folded.filter _).trans (List.Perm.of_eq ?_)
  rw [List.filter_append,List.filter_filter]
  congr 1
  refine List.filter_congr (fun x _ => ?_)
  rw [Bool.and_comm]
  exact visibleThrough base.toGraphAccessor xs ys f x.1 x.2.kind

/- Nothing returns: the two listings are the same edge by edge. -/
theorem pairsAgree (r : Represents base.toGraphAccessor xs d)
    (settled : NoEdgeReturns base.toGraphAccessor xs ys) (f : String) :
    (base.outPairs f).filter (fun x => baseEdgeVisible base.toGraphAccessor (xs ++ ys) f x.1 x.2.kind &&
        (presentAfter base.toGraphAccessor xs f && presentAfter base.toGraphAccessor xs x.1)) =
      (base.outPairs f).filter (fun x => baseEdgeVisible base.toGraphAccessor (xs ++ ys) f x.1 x.2.kind) ∧
    (Mirror.outOf (survivors xs) f).filter (fun x => showsAfter base.toGraphAccessor xs ys f x.1 x.2.kind) =
      (Mirror.outOf (survivors xs) f).filter (fun x => outlives ys (f,x)) := by
  obtain ⟨bases,added⟩ := settled
  constructor
  · refine List.filter_congr (fun x member => ?_)
    obtain ⟨nb,listed,rfl⟩ := List.mem_map.mp member
    have stays := bases f nb listed
    simp only [baseEdgeReturns,not_and,Bool.not_eq_true] at stays
    change (baseEdgeVisible _ _ f nb.targetName nb.edgeKind && _) = baseEdgeVisible _ _ f nb.targetName nb.edgeKind
    cases visible : baseEdgeVisible base.toGraphAccessor (xs ++ ys) f nb.targetName nb.edgeKind with
    | false => rfl
    | true =>
      have present : ¬ (presentAfter base.toGraphAccessor xs f = false ∨
          presentAfter base.toGraphAccessor xs nb.targetName = false) := by
        intro lost
        rw [stays lost] at visible
        contradiction
      simpa using present
  · refine List.filter_congr (fun x member => ?_)
    obtain ⟨s,among,rfl⟩ := List.mem_map.mp member
    obtain ⟨survives,same⟩ := List.mem_filter.mp among
    cases of_decide_eq_true same
    rw [outlivesShown ys r survives]
    have stays := added s survives
    cases removed : ys.any (Op.removesEndpoint s.1 s.2.1) with
    | false => simp
    | true =>
      have hidden : showsAfter base.toGraphAccessor xs ys s.1 s.2.1 s.2.2.kind = false := by
        by_contra shown
        simp only [showsAfter,Bool.not_eq_false,Bool.and_eq_true,Bool.not_eq_true'] at shown
        exact stays ⟨removed,shown.1.1,shown.1.2,shown.2⟩
      simp [hidden]

/- How many edges lead from `f` to `t`, part by part. -/
theorem partsAgree (r : Represents base.toGraphAccessor xs d) (i : Indexed xs d)
    (same : SameGraph fold.toGraphAccessor (deltaAccessor base.toGraphAccessor d)) {f : String}
    (listing : ((historyOutgoing fold.toGraphAccessor ys f).map NeighborView.pair).Perm
      ((historyOutgoing base.toGraphAccessor (xs ++ ys) f).map NeighborView.pair)) (t : String) :
    (base.outPairs f).countP (fun x => decide (x.1 = t) &&
        (baseEdgeVisible base.toGraphAccessor (xs ++ ys) f x.1 x.2.kind &&
          (presentAfter base.toGraphAccessor xs f && presentAfter base.toGraphAccessor xs x.1))) +
      (Mirror.outOf (survivors xs) f).countP (fun x => decide (x.1 = t) &&
        showsAfter base.toGraphAccessor xs ys f x.1 x.2.kind) =
    (base.outPairs f).countP (fun x => decide (x.1 = t) &&
        baseEdgeVisible base.toGraphAccessor (xs ++ ys) f x.1 x.2.kind) +
      (Mirror.outOf (survivors xs) f).countP (fun x => decide (x.1 = t) && outlives ys (f,x)) := by
  have count := ((foldedPairs ys r i same f).symm.trans listing).countP_eq (fun x => decide (x.1 = t))
  rw [plainPairs] at count
  simp only [List.countP_append,List.countP_filter] at count
  omega

theorem settledOfListing (r : Represents base.toGraphAccessor xs d) (i : Indexed xs d)
    (same : SameGraph fold.toGraphAccessor (deltaAccessor base.toGraphAccessor d))
    (listing : ∀ f, ((historyOutgoing fold.toGraphAccessor ys f).map NeighborView.pair).Perm
      ((historyOutgoing base.toGraphAccessor (xs ++ ys) f).map NeighborView.pair)) :
    NoEdgeReturns base.toGraphAccessor xs ys := by
  constructor
  · rintro f nb member ⟨lost,visible⟩
    have parts := partsAgree r i same (listing f) nb.targetName
    -- with an endpoint gone after `xs`, no surviving addition joins the two names
    have noAdded : ∀ (p : String × EdgeData W → Bool), (Mirror.outOf (survivors xs) f).countP
        (fun x => decide (x.1 = nb.targetName) && p x) = 0 := by
      intro p
      refine List.countP_eq_zero.mpr (fun x among => ?_)
      obtain ⟨s,found,rfl⟩ := List.mem_map.mp among
      obtain ⟨survives,from_f⟩ := List.mem_filter.mp found
      obtain ⟨source,target⟩ := r.anchored s survives
      cases of_decide_eq_true from_f
      intro joined
      simp only [Bool.and_eq_true,decide_eq_true_eq] at joined
      rw [← joined.1,source,target] at lost
      simp at lost
    have noFolded : (base.outPairs f).countP (fun x => decide (x.1 = nb.targetName) &&
        (baseEdgeVisible base.toGraphAccessor (xs ++ ys) f x.1 x.2.kind &&
          (presentAfter base.toGraphAccessor xs f && presentAfter base.toGraphAccessor xs x.1))) = 0 := by
      refine List.countP_eq_zero.mpr (fun x _ joined => ?_)
      simp only [Bool.and_eq_true,decide_eq_true_eq] at joined
      rw [← joined.1,joined.2.2.1,joined.2.2.2] at lost
      simp at lost
    have here : 0 < (base.outPairs f).countP (fun x => decide (x.1 = nb.targetName) &&
        baseEdgeVisible base.toGraphAccessor (xs ++ ys) f x.1 x.2.kind) := by
      refine List.countP_pos_iff.mpr ⟨nb.pair,List.mem_map_of_mem member,?_⟩
      rw [pairTarget,pairEdge,edgeKind,visible]
      simp
    rw [noAdded,noAdded,noFolded] at parts
    omega
  · rintro s survives ⟨removed,triple,source,target⟩
    have parts := partsAgree r i same (listing s.1) s.2.1
    obtain ⟨sourceBefore,targetBefore⟩ := r.anchored s survives
    have bases : (base.outPairs s.1).countP (fun x => decide (x.1 = s.2.1) &&
        (baseEdgeVisible base.toGraphAccessor (xs ++ ys) s.1 x.1 x.2.kind &&
          (presentAfter base.toGraphAccessor xs s.1 && presentAfter base.toGraphAccessor xs x.1))) =
        (base.outPairs s.1).countP (fun x => decide (x.1 = s.2.1) &&
          baseEdgeVisible base.toGraphAccessor (xs ++ ys) s.1 x.1 x.2.kind) := by
      refine List.countP_congr (fun x _ => ?_)
      cases decEq x.1 s.2.1 with
      | isTrue joined => rw [joined,sourceBefore,targetBefore,Bool.and_self,Bool.and_true]
      | isFalse apart => simp [apart]
    -- the folded listing has every surviving addition the plain one has, and `s` besides
    have split : (Mirror.outOf (survivors xs) s.1).countP (fun x => decide (x.1 = s.2.1) &&
          showsAfter base.toGraphAccessor xs ys s.1 x.1 x.2.kind) =
        (Mirror.outOf (survivors xs) s.1).countP (fun x => decide (x.1 = s.2.1) && outlives ys (s.1,x)) +
        (Mirror.outOf (survivors xs) s.1).countP (fun x => decide (x.1 = s.2.1) &&
          showsAfter base.toGraphAccessor xs ys s.1 x.1 x.2.kind && !outlives ys (s.1,x)) := by
      rw [← Mirror.countSplit]
      · refine List.countP_congr (fun x among => ?_)
        obtain ⟨z,found,rfl⟩ := List.mem_map.mp among
        obtain ⟨lives,from_s⟩ := List.mem_filter.mp found
        have shown := outlivesShown ys r lives
        rw [of_decide_eq_true from_s] at shown
        have same_z : (s.1,z.2) = z := by rw [← of_decide_eq_true from_s]
        rw [same_z,shown]
        cases showsAfter base.toGraphAccessor xs ys s.1 z.2.1 z.2.2.kind <;>
          cases ys.any (Op.removesEndpoint s.1 z.2.1) <;> simp
      · rintro x _ ⟨left,right⟩
        simp_all
    have gained : 0 < (Mirror.outOf (survivors xs) s.1).countP (fun x => decide (x.1 = s.2.1) &&
        showsAfter base.toGraphAccessor xs ys s.1 x.1 x.2.kind && !outlives ys (s.1,x)) := by
      refine List.countP_pos_iff.mpr ⟨s.2,List.mem_map_of_mem (List.mem_filter.mpr ⟨survives,by simp⟩),?_⟩
      rw [killsSplit]
      simp [showsAfter,triple,source,target,removed]
    rw [bases,split] at parts
    omega

/- One graph over the folded base, one over the old base, after the same operations. -/
theorem viewsAgreeIff (base fold : NamedGraph W) (reached : Reached base.toGraphAccessor xs d)
    (same : SameGraph fold.toGraphAccessor (deltaAccessor base.toGraphAccessor d))
    {plain folded : GraphDelta W} (onward : Reached base.toGraphAccessor (xs ++ ys) plain)
    (restarted : Reached fold.toGraphAccessor ys folded) (room : edgeAdds (xs ++ ys) ≤ 2^32) :
    SameGraph (deltaAccessor fold.toGraphAccessor folded) (deltaAccessor base.toGraphAccessor plain) ↔
      NoEdgeReturns base.toGraphAccessor xs ys := by
  have adds : edgeAdds (xs ++ ys) = edgeAdds xs + edgeAdds ys := List.countP_append
  have r := reached.represents
  have i := reached.indexed (by omega)
  have rPlain := onward.represents
  have iPlain := onward.indexed room
  have rFolded := restarted.represents
  have iFolded := restarted.indexed (by omega)
  constructor
  · intro views
    refine settledOfListing r i same (fun f => ?_)
    have listing := (views.outgoing f).map NeighborView.pair
    rwa [Merged.outgoingExact rFolded iFolded,Merged.outgoingExact rPlain iPlain] at listing
  · intro settled
    refine SameGraph.ofOutgoing (Merged.graph rFolded restarted.counted iFolded)
      (Merged.graph rPlain onward.counted iPlain) (fun n => ?_) (fun f => ?_)
    · change ((deltaAccessor _ folded).getNode n).map _ = ((deltaAccessor _ plain).getNode n).map _
      rw [Merged.getNodeExact rFolded,Merged.getNodeExact rPlain]
      exact nodeThrough ys r same n
    · change (((deltaAccessor _ folded).outgoingNeighbors f).map _).Perm
        (((deltaAccessor _ plain).outgoingNeighbors f).map _)
      rw [Merged.outgoingExact rFolded iFolded,Merged.outgoingExact rPlain iPlain,plainPairs]
      obtain ⟨bases,added⟩ := pairsAgree r settled f
      have folded := foldedPairs ys r i same f
      rwa [bases,added] at folded

end Transparency

/- The same for a built base and its fold, whatever batches follow. -/
theorem foldedRunsAgree [Arith W] {adjacency : Order} {base : OrpheusGraphInner W}
    (produced : Produced adjacency base) {xs : List (Op W)} {d : GraphDelta W}
    (reached : Reached (base.accessor adjacency) xs d) {names : List String}
    (listed : names.Perm base.indexMap.keys) (batches : List (List (Op W)))
    (room : edgeAdds (xs ++ acceptedOps batches (runBatches (base.accessor adjacency) d batches).1) ≤ 2^32) :
    let fold := (foldBase adjacency (base.accessor adjacency) names d).accessor adjacency
    let plain := runBatches (base.accessor adjacency) d batches
    let folded := runBatches fold .new batches
    folded.1 = plain.1 ∧
      (SameGraph (deltaAccessor fold folded.2) (deltaAccessor (base.accessor adjacency) plain.2) ↔
        NoEdgeReturns (base.accessor adjacency) xs (acceptedOps batches plain.1)) := by
  have early : edgeAdds xs ≤ 2^32 := by
    unfold edgeAdds at room ⊢
    rw [List.countP_append] at room
    omega
  have same := foldAgrees produced reached early listed
  have r := reached.represents
  have fresh : (GraphDelta.new : GraphDelta W).presentIn
      ((foldBase adjacency (base.accessor adjacency) names d).accessor adjacency) =
      d.presentIn (base.accessor adjacency) := by
    funext n
    rw [r.presentIn,presentAfterNode,← Merged.getNodeExact r,← same.isSome]
    simp [GraphDelta.presentIn,GraphDelta.new,IndexMap.containsKey]
  have flags := runBatchesAgree batches fresh
  have empty : Reached ((foldBase adjacency (base.accessor adjacency) names d).accessor adjacency)
      [] .new := .new
  have restarted := runBatchesReached empty batches
  rw [flags,List.nil_append] at restarted
  exact ⟨flags,Transparency.viewsAgreeIff (base.named adjacency produced.indexed)
    (OrpheusGraphInner.named adjacency _ (foldIndexed adjacency _ names d)) reached same
    (runBatchesReached reached batches) restarted room⟩

def sampleInput (name : String) : NodeInput Unit := ⟨name,"",∅,(),()⟩
def sampleLink : EdgeInput Unit := ⟨"a","b","calls",none,(),none,none,[]⟩

def linkedBase : OrpheusGraphInner Unit :=
  buildGraph .newestFirst [sampleInput "a",sampleInput "b"] [sampleLink]

abbrev linked : GraphAccessor Unit := linkedBase.accessor .newestFirst

theorem linkedProduced : Produced .newestFirst linkedBase :=
  .built [sampleInput "a",sampleInput "b"] [sampleLink]

theorem linkedKeys : ["a","b"].Perm linkedBase.indexMap.keys := by decide +kernel

theorem linkedOutgoing :
    linked.outgoingNeighbors "a" = [NeighborView.ofEdge "b" (builtEdge sampleLink)] := by decide +kernel

def unlink : List (Op Unit) := [.removeNode "b"]
def unlinked : GraphDelta Unit := GraphDelta.new.replay linked unlink

theorem unlinkReached : Reached linked unlink unlinked := by
  have batch : Reached linked ([] ++ unlink) unlinked :=
    .batch .new ((GraphDelta.applyExact _ _ _).mpr (.step trivial (.done _)))
  exact batch

theorem upsertAccepted (name : String) :
    (runBatches linked unlinked [[.upsertNode (sampleNode name)]]).1 = [true] := by
  have ok : unlinked.apply linked [.upsertNode (sampleNode name)] = .ok _ :=
    (GraphDelta.applyExact _ _ _).mpr (.step trivial (.done _))
  simp [runBatches,ok]

end OrpheusGraph
