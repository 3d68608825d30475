import OrpheusGraph.Published
import OrpheusGraph.Recovery
import OrpheusGraph.Transparency

/-! A base and the numbered batches on top of it: the graph at each number, the records a log
should hold of them, and what a recovery makes of a log that does. -/
namespace OrpheusGraph
variable {W : Type}

/-! The records of batches that follow the number `n`. -/
def following (n : Nat) : List (List (Op W)) → List (WalRecord W)
  | [] => []
  | ops :: rest => ⟨n + 1,ops⟩ :: following (n + 1) rest

section following
variable {n : Nat} {xs ys : List (List (Op W))}

theorem followingAppend : following n (xs ++ ys) = following n xs ++ following (n + xs.length) ys := by
  induction xs generalizing n with
  | nil => rfl
  | cons ops xs ih =>
    rw [List.cons_append,following,following,ih,List.cons_append,List.length_cons,Nat.add_right_comm,Nat.add_assoc]

theorem followingRange {rec : WalRecord W} (member : rec ∈ following n xs) : n < rec.seq ∧ rec.seq ≤ n + xs.length := by
  induction xs generalizing n with
  | nil => contradiction
  | cons ops xs ih =>
    rw [List.length_cons]
    rcases List.mem_cons.mp member with rfl | later
    · exact ⟨Nat.lt_succ_self n,by change n + 1 ≤ _; omega⟩
    · have inside := ih later
      omega

theorem followingOps : (following n xs).flatMap WalRecord.ops = xs.flatten := by
  induction xs generalizing n with
  | nil => rfl
  | cons ops xs ih => rw [following,List.flatMap_cons,ih,List.flatten_cons]

end following

/-! The records with a number above `lo` and up to `hi`. -/
def window (lo hi : Nat) (recs : List (WalRecord W)) : List (WalRecord W) :=
  recs.filter (fun rec => lo < rec.seq ∧ rec.seq ≤ hi)

section windows
variable {lo hi : Nat} {recs more : List (WalRecord W)}

theorem windowAppend : window lo hi (recs ++ more) = window lo hi recs ++ window lo hi more := List.filter_append ..

theorem windowAll (inside : ∀ rec ∈ recs, lo < rec.seq ∧ rec.seq ≤ hi) : window lo hi recs = recs :=
  List.filter_eq_self.mpr (fun rec member => decide_eq_true (inside rec member))

theorem windowNone (outside : ∀ rec ∈ recs, rec.seq ≤ lo ∨ hi < rec.seq) : window lo hi recs = [] := by
  refine List.filter_eq_nil_iff.mpr (fun rec member => ?_)
  have apart := outside rec member
  simp only [decide_eq_true_eq]
  omega

theorem windowLate {seq : Nat} (late : hi < seq) (ops : List (Op W)) : window lo hi [⟨seq,ops⟩] = [] := by
  refine windowNone (fun rec member => ?_)
  cases List.mem_singleton.mp member
  exact .inr late

theorem windowNarrow {lo' hi' : Nat} (low : lo ≤ lo') (high : hi' ≤ hi) :
    window lo' hi' (window lo hi recs) = window lo' hi' recs := by
  rw [window,window,List.filter_filter]
  refine List.filter_congr (fun rec _ => ?_)
  rw [← Bool.decide_and,decide_eq_decide]
  omega

theorem windowFollowing {n j k : Nat} {xs : List (List (Op W))} (ordered : j ≤ k) (inside : k ≤ xs.length) :
    window (n + j) (n + k) (following n xs) = following (n + j) ((xs.take k).drop j) := by
  have split : xs = (xs.take k).take j ++ ((xs.take k).drop j ++ xs.drop k) := by
    rw [← List.append_assoc,List.take_append_drop,List.take_append_drop]
  have first : ((xs.take k).take j).length = j := by rw [List.length_take,List.length_take]; omega
  have mid : ((xs.take k).drop j).length = k - j := by rw [List.length_drop,List.length_take]; omega
  conv_lhs => rw [split]
  rw [followingAppend,followingAppend,windowAppend,windowAppend,first,mid,
    windowNone (fun rec member => .inl ?_),windowAll (fun rec member => ?_),windowNone (fun rec member => .inr ?_),
    List.nil_append,List.append_nil]
  · have range := followingRange member
    omega
  · have range := followingRange member
    omega
  · have range := followingRange member
    omega

end windows

/-! A recovery, stretch by stretch: what the snapshot has, what follows it without a gap, and what
is not committed. -/
section replays
variable {codec : Codec W} {base : GraphAccessor W} {snapshotSeq commitHw : Nat}

theorem replaysAppend {r r' : Replay W} {recs more : List (WalRecord W)}
    (first : replayRecords codec base snapshotSeq commitHw r recs = .ok r') :
    replayRecords codec base snapshotSeq commitHw r (recs ++ more) = replayRecords codec base snapshotSeq commitHw r' more := by
  induction recs generalizing r with
  | nil =>
    cases Except.ok.inj first
    rfl
  | cons rec recs ih =>
    cases step : replayRecord codec base snapshotSeq commitHw r rec with
    | error e => simp [replayRecords,step] at first
    | ok next =>
      simp only [replayRecords,step,List.cons_append] at first ⊢
      exact ih first

theorem reencodes (lawful : codec.Lawful) {rec : WalRecord W} (fits : Encodable codec rec) :
    encodeFrameWith codec codec.reencodeRecord rec = .ok (frameOf codec (codec.reencodeRecord rec)) := by
  have short : ¬(codec.reencodeRecord rec).length > u32Max := by
    rw [lawful.sameLength]
    exact Nat.not_lt.mpr fits
  exact if_neg short

theorem replaysFolded (base : GraphAccessor W) (lawful : codec.Lawful) {recs : List (WalRecord W)} (fits : ∀ rec ∈ recs, Encodable codec rec)
    (old : ∀ rec ∈ recs, rec.seq ≤ snapshotSeq) (below : snapshotSeq ≤ commitHw) (r : Replay W) :
    ∃ r', replayRecords codec base snapshotSeq commitHw r recs = .ok r' ∧ r'.expectedNext = r.expectedNext ∧
      r'.lastApplied = r.lastApplied := by
  induction recs generalizing r with
  | nil => exact ⟨r,rfl,rfl,rfl⟩
  | cons rec recs ih =>
    have seq := old rec List.mem_cons_self
    obtain ⟨r',rest,next,last⟩ := ih (fun x later => fits x (List.mem_cons_of_mem _ later))
      (fun x later => old x (List.mem_cons_of_mem _ later))
      { r with committedEnd := r.committedEnd + (frameOf codec (codec.reencodeRecord rec)).length }
    refine ⟨r',?_,next,last⟩
    rw [replayRecords,replayRecord,if_neg (by omega),reencodes lawful (fits rec List.mem_cons_self)]
    simp only [if_pos seq]
    exact rest

theorem replaysFollowing (base : GraphAccessor W) (lawful : codec.Lawful) {n : Nat} {xs : List (List (Op W))}
    (fits : ∀ rec ∈ following n xs, Encodable codec rec) (above : snapshotSeq ≤ n) (below : n + xs.length ≤ commitHw)
    {r : Replay W} (next : r.expectedNext = n + 1) (last : r.lastApplied = n) :
    ∃ r', replayRecords codec base snapshotSeq commitHw r (following n xs) = .ok r' ∧
      r'.lastApplied = n + xs.length := by
  induction xs generalizing n r with
  | nil => exact ⟨r,rfl,last⟩
  | cons ops xs ih =>
    rw [List.length_cons] at below
    obtain ⟨r',rest,applied⟩ := ih (n := n + 1) (fun x later => fits x (List.mem_cons_of_mem _ later)) (by omega) (by omega)
      (r := { r with
        committedEnd := r.committedEnd + (frameOf codec (codec.reencodeRecord ⟨n + 1,ops⟩)).length
        delta := r.delta.replay base ops
        lastApplied := n + 1
        expectedNext := r.expectedNext + 1 }) (by rw [next]) rfl
    refine ⟨r',?_,by rw [applied,List.length_cons]; omega⟩
    have first : ¬n + 1 > commitHw := by omega
    have fresh : ¬n + 1 ≤ snapshotSeq := by omega
    simp only [following,replayRecords,replayRecord,reencodes lawful (fits _ List.mem_cons_self),if_neg first,if_neg fresh,next,
      ne_eq,not_true_eq_false,if_false]
    rw [next] at rest
    exact rest

theorem replaysBeyond (codec : Codec W) (base : GraphAccessor W) (snapshotSeq : Nat) {recs : List (WalRecord W)} (above : ∀ rec ∈ recs, commitHw < rec.seq) (r : Replay W) :
    ∃ r', replayRecords codec base snapshotSeq commitHw r recs = .ok r' ∧ r'.lastApplied = r.lastApplied := by
  induction recs generalizing r with
  | nil => exact ⟨r,rfl,rfl⟩
  | cons rec recs ih =>
    obtain ⟨r',rest,last⟩ := ih (fun x later => above x (List.mem_cons_of_mem _ later))
      { r with uncommittedTailFrames := r.uncommittedTailFrames + 1 }
    refine ⟨r',?_,last⟩
    rw [replayRecords,replayRecord,if_pos (above rec List.mem_cons_self)]
    exact rest

/- A log with the right records between the snapshot and the mark is recovered up to the mark. -/
theorem recoverReturns (lawful : codec.Lawful) {recs : List (WalRecord W)} (fits : ∀ rec ∈ recs, Encodable codec rec)
    (increasing : recs.Pairwise (fun a b => a.seq < b.seq)) {committedSeq highSeq : Nat} {xs : List (List (Op W))}
    (exact_ : window snapshotSeq (max committedSeq snapshotSeq) recs = following snapshotSeq xs)
    (reaches : snapshotSeq + xs.length = max committedSeq snapshotSeq) (covered : highSeq ≤ max committedSeq snapshotSeq)
    {scanned : ScanResult W} (found : scanned.records = recs) (end_ : scanned.validEnd = (frames codec recs).length) :
    ∃ r, recover codec base snapshotSeq committedSeq highSeq scanned = .ok r ∧
      r.delta = GraphDelta.replay .new base xs.flatten ∧ r.lastApplied = max committedSeq snapshotSeq ∧
      r.committedEnd = (frames codec (committed (max committedSeq snapshotSeq) recs)).length := by
  have above : snapshotSeq ≤ max committedSeq snapshotSeq := Nat.le_max_right _ _
  obtain ⟨later,split,beyond⟩ := committedPrefix (max committedSeq snapshotSeq) increasing
  have sorted : (committed (max committedSeq snapshotSeq) recs).Pairwise (fun a b => a.seq < b.seq) := increasing.filter _
  obtain ⟨mid,parts,fresh⟩ := committedPrefix snapshotSeq sorted
  have folded : ∀ rec ∈ committed snapshotSeq (committed (max committedSeq snapshotSeq) recs), rec.seq ≤ snapshotSeq :=
    fun rec member => of_decide_eq_true (List.mem_filter.mp member).2
  have kept : ∀ rec ∈ mid, rec.seq ≤ max committedSeq snapshotSeq := by
    intro rec member
    have inside : rec ∈ committed (max committedSeq snapshotSeq) recs := parts ▸ List.mem_append_right _ member
    exact of_decide_eq_true (List.mem_filter.mp inside).2
  have middle : mid = following snapshotSeq xs := by
    rw [← exact_,split,parts,windowAppend,windowAppend,windowNone (fun rec member => .inl (folded rec member)),
      windowAll (fun rec member => ⟨fresh rec member,kept rec member⟩),
      windowNone (fun rec member => .inr (beyond rec member)),List.nil_append,List.append_nil]
  have whole : recs = committed snapshotSeq (committed (max committedSeq snapshotSeq) recs) ++ (following snapshotSeq xs ++ later) := by
    rw [← middle,← List.append_assoc,← parts]
    exact split
  have inside : ∀ {rec}, rec ∈ committed snapshotSeq (committed (max committedSeq snapshotSeq) recs) ∨
      rec ∈ following snapshotSeq xs → Encodable codec rec := by
    rintro rec (first | second)
    · exact fits rec (whole ▸ List.mem_append_left _ first)
    · exact fits rec (whole ▸ List.mem_append_right _ (List.mem_append_left _ second))
  obtain ⟨r₁,old,next,last⟩ := replaysFolded base lawful (fun rec member => inside (.inl member)) folded above
    ⟨.new,snapshotSeq + 1,snapshotSeq,0,0⟩
  obtain ⟨r₂,run,applied⟩ := replaysFollowing base lawful (fun rec member => inside (.inr member)) (Nat.le_refl _)
    reaches.le next last
  obtain ⟨r,rest,same⟩ := replaysBeyond codec base snapshotSeq beyond r₂
  have all : replayRecords codec base snapshotSeq (max committedSeq snapshotSeq) ⟨.new,snapshotSeq + 1,snapshotSeq,0,0⟩ recs =
      .ok r := by
    rw [whole,replaysAppend old,replaysAppend run]
    exact rest
  have size := replayRecordsEnd lawful all
  rw [Nat.zero_add] at size
  have delta := recordsDelta all
  have ops : replayedOps snapshotSeq (max committedSeq snapshotSeq) recs = xs.flatten := by
    rw [← followingOps (n := snapshotSeq),← exact_]
    rfl
  refine ⟨r,?_,by rw [delta,ops],by rw [same,applied,reaches],size⟩
  have short : r.committedEnd ≤ scanned.validEnd := by
    rw [size,end_]
    conv_rhs => rw [split,framesJoin,List.length_append]
    exact Nat.le_add_right _ _
  rw [recover,if_neg (Nat.not_lt.mpr covered),found,all]
  simp only
  rw [if_neg (by rw [same,applied,reaches]; exact Nat.lt_irrefl _),if_neg (Nat.not_lt.mpr short)]

end replays

/- Nothing can return that was never away. -/
theorem nothingReturns (g : NamedGraph W) (ys : List (Op W)) : NoEdgeReturns g.toGraphAccessor [] ys := by
  refine ⟨fun f nb member => ?_,fun s among => nomatch among⟩
  rintro ⟨lost,_⟩
  have source := (g.present f).mpr (g.sourcePresent member)
  have target := (g.present nb.targetName).mpr (g.targetPresent member)
  simp only [presentAfterNode,nodeAfter,lastOn,List.reverse_nil,List.findSome?_nil] at lost
  rcases lost with lost | lost
  · rw [source] at lost
    contradiction
  · rw [target] at lost
    contradiction

theorem reachedRun {base : GraphAccessor W} {ops : List (Op W)} {last : GraphDelta W}
    (run : GraphDelta.LegalRun base .new ops last) : Reached base ops last :=
  .batch .new ((GraphDelta.applyExact _ _ _).mpr run)

/-! A base at the number `start`, and what was accepted after it. -/
structure Timeline (W : Type) where
  base : BaseGraph W
  start : Nat
  batches : List (List (Op W))

namespace Timeline
variable {pk : Packages W} {t : Timeline W}

def top (t : Timeline W) : Nat := t.start + t.batches.length

def records (t : Timeline W) : List (WalRecord W) := following t.start t.batches

/- After the first `k` batches. -/
def ops (t : Timeline W) (k : Nat) : List (Op W) := (t.batches.take k).flatten

def delta (pk : Packages W) (t : Timeline W) (k : Nat) : GraphDelta W :=
  GraphDelta.replay .new (t.base.asAccessor pk) (t.ops k)

def view (pk : Packages W) (t : Timeline W) (k : Nat) : GraphAccessor W :=
  deltaAccessor (t.base.asAccessor pk) (t.delta pk k)

def grown (t : Timeline W) (ops : List (Op W)) : Timeline W := { t with batches := t.batches ++ [ops] }

/- The batches from `j` on, before `k`, on another base. -/
def resumed (t : Timeline W) (base : BaseGraph W) (j k : Nat) : Timeline W :=
  ⟨base,t.start + j,(t.batches.take k).drop j⟩

/- Every batch was one to accept. -/
structure Sound (pk : Packages W) (t : Timeline W) : Prop where
  base : Presents pk t.base
  run : GraphDelta.LegalRun (t.base.asAccessor pk) .new t.batches.flatten (t.delta pk t.batches.length)

theorem opsWhole (t : Timeline W) : t.ops t.batches.length = t.batches.flatten := by
  rw [ops,List.take_length]

theorem opsSplit (t : Timeline W) {j k : Nat} (ordered : j ≤ k) :
    t.ops k = t.ops j ++ ((t.batches.take k).drop j).flatten := by
  rw [ops,ops,← List.flatten_append]
  congr 1
  conv_lhs => rw [← List.take_append_drop j (t.batches.take k),List.take_take,Nat.min_eq_left ordered]

theorem Sound.split (sound : t.Sound pk) {j k : Nat} (ordered : j ≤ k) :
    GraphDelta.LegalRun (t.base.asAccessor pk) .new (t.ops j) (t.delta pk j) ∧
      GraphDelta.LegalRun (t.base.asAccessor pk) (t.delta pk j) ((t.batches.take k).drop j).flatten (t.delta pk k) := by
  have whole : t.batches.flatten = t.ops k ++ (t.batches.drop k).flatten := by
    rw [ops,← List.flatten_append,List.take_append_drop]
  have run := sound.run
  rw [whole] at run
  obtain ⟨mid,first,_⟩ := run.split
  cases first.replay
  rw [opsSplit t ordered] at first
  obtain ⟨early,before,after⟩ := first.split
  cases before.replay
  have same : t.delta pk k = (GraphDelta.replay .new (t.base.asAccessor pk) (t.ops j ++ ((t.batches.take k).drop j).flatten)) := by
    rw [delta,opsSplit t ordered]
  rw [same]
  exact ⟨before,after⟩

theorem Sound.reached (sound : t.Sound pk) (k : Nat) : Reached (t.base.asAccessor pk) (t.ops k) (t.delta pk k) :=
  reachedRun (sound.split (Nat.le_refl k)).1

theorem viewStart (pk : Packages W) (t : Timeline W) : t.view pk 0 = t.base.asAccessor pk := emptyOverlay _

/-! One more batch. -/
theorem grownOps (t : Timeline W) (more : List (Op W)) {k : Nat} (inside : k ≤ t.batches.length) :
    (t.grown more).ops k = t.ops k := by
  rw [ops,ops,grown,List.take_append_of_le_length inside]

theorem grownView (t : Timeline W) (more : List (Op W)) {k : Nat} (inside : k ≤ t.batches.length) :
    (t.grown more).view pk k = t.view pk k := by
  rw [view,view,delta,delta,grownOps t more inside]
  rfl

theorem grownLength (t : Timeline W) (more : List (Op W)) : (t.grown more).batches.length = t.batches.length + 1 := by
  rw [grown,List.length_append,List.length_singleton]

theorem grownTop (t : Timeline W) (more : List (Op W)) : (t.grown more).top = t.top + 1 := by
  rw [top,grownLength]
  rfl

theorem grownRecords (t : Timeline W) (more : List (Op W)) :
    (t.grown more).records = t.records ++ [⟨t.top + 1,more⟩] := followingAppend

theorem grownFlat (t : Timeline W) (more : List (Op W)) : (t.grown more).batches.flatten = t.batches.flatten ++ more := by
  rw [grown,List.flatten_append,List.flatten_singleton]

theorem grownDelta (t : Timeline W) {more : List (Op W)} {next : GraphDelta W}
    (accepted : (t.delta pk t.batches.length).apply (t.base.asAccessor pk) more = .ok next) :
    (t.grown more).delta pk (t.grown more).batches.length = next := by
  rw [GraphDelta.applyReplay accepted,delta,delta,opsWhole,opsWhole,grownFlat]
  exact GraphDelta.replayAppend _ _

theorem Sound.grown (sound : t.Sound pk) {more : List (Op W)} {next : GraphDelta W}
    (accepted : (t.delta pk t.batches.length).apply (t.base.asAccessor pk) more = .ok next) : (t.grown more).Sound pk := by
  refine ⟨sound.base,?_⟩
  rw [grownDelta t accepted,grownFlat]
  exact sound.run.append ((GraphDelta.applyExact _ _ _).mp accepted)

/-! Onward from the graph at one of the numbers, on a base that presents it. -/
section resumed
variable {base : BaseGraph W} {j k : Nat}

theorem samePresence (sound : t.Sound pk) (same : SameGraph (base.asAccessor pk) (t.view pk j)) :
    (t.delta pk j).presentIn (t.base.asAccessor pk) = GraphDelta.new.presentIn (base.asAccessor pk) := by
  funext n
  have r := (sound.reached j).represents
  rw [r.presentIn,presentAfterNode,← Merged.getNodeExact r]
  have nodes : ((base.asAccessor pk).getNode n).isSome =
      ((deltaAccessor (t.base.asAccessor pk) (t.delta pk j)).getNode n).isSome := same.isSome n
  simpa [GraphDelta.presentIn,GraphDelta.new,IndexMap.containsKey] using nodes.symm

theorem resumedSound (sound : t.Sound pk) (presents : Presents pk base) (same : SameGraph (base.asAccessor pk) (t.view pk j))
    (ordered : j ≤ k) : (t.resumed base j k).Sound pk := by
  obtain ⟨_,run,_⟩ := (sound.split ordered).2.transfer (samePresence sound same)
  cases run.replay
  refine ⟨presents,?_⟩
  rw [delta,opsWhole]
  exact run

/- The graph is the same as before exactly when no edge returns. -/
theorem resumedView (sound : t.Sound pk) (presents : Presents pk base) (same : SameGraph (base.asAccessor pk) (t.view pk j))
    (ordered : j ≤ k) (room : (t.delta pk k).addedEdges.length ≤ 2^32) : SameGraph ((t.resumed base j k).view pk (t.resumed base j k).batches.length) (t.view pk k) ↔
      NoEdgeReturns (t.base.asAccessor pk) (t.ops j) ((t.batches.take k).drop j).flatten := by
  have onward := (sound.reached k)
  have restarted := (resumedSound sound presents same ordered).reached (t.resumed base j k).batches.length
  rw [onward.represents.count] at room
  rw [opsWhole] at restarted
  rw [opsSplit t ordered] at onward room
  obtain ⟨g,graph,_,_⟩ := sound.base
  obtain ⟨fold,folded,_,_⟩ := presents
  have before := sound.reached j
  unfold view at same
  unfold view
  rw [← graph] at onward before same ⊢
  rw [← folded] at same
  change Reached (base.asAccessor pk) _ _ at restarted
  change SameGraph (deltaAccessor (base.asAccessor pk) _) _ ↔ _
  rw [← folded] at restarted ⊢
  exact Transparency.viewsAgreeIff g fold before same onward restarted room

/- It is so when the base is still the first one, or when there is no batch to go through. -/
theorem resumedAgain (sound : t.Sound pk) (presents : Presents pk base) (same : SameGraph (base.asAccessor pk) (t.view pk j))
    (ordered : j ≤ k) (ends : j = 0 ∧ (t.delta pk k).addedEdges.length ≤ 2^32 ∨ j = k) :
    SameGraph ((t.resumed base j k).view pk (t.resumed base j k).batches.length) (t.view pk k) := by
  rcases ends with ⟨rfl,room⟩ | rfl
  · refine (resumedView sound presents same ordered room).mpr ?_
    obtain ⟨g,graph,_,_⟩ := sound.base
    rw [← graph]
    exact nothingReturns g _
  · have none_left : (t.resumed base j j).batches = [] := by
      rw [Timeline.resumed,List.drop_eq_nil_iff]
      exact List.length_take_le _ _
    rw [none_left,List.length_nil,viewStart]
    exact same

/- And at a number on the way. -/
theorem resumedPart (pk : Packages W) (t : Timeline W) (base : BaseGraph W) {n : Nat} (low : j ≤ n) (high : n ≤ k) :
    (t.resumed base j k).view pk (n - j) = (t.resumed base j n).view pk (t.resumed base j n).batches.length := by
  have same : (t.resumed base j k).ops (n - j) = (t.resumed base j n).ops (t.resumed base j n).batches.length := by
    rw [opsWhole,ops,resumed,resumed,List.take_drop,List.take_take,Nat.add_sub_cancel' low,Nat.min_eq_left high]
  rw [view,view,delta,delta,same]
  rfl

end resumed
end Timeline

/-! What an archive shows when it is opened. -/
def Portrays [TotalCmp W] (pk : Packages W) (sg : SerializableGraphV2 W) (a : GraphAccessor W) : Prop :=
  ∃ g : OrpheusGraphInner W, g.Indexed ∧ (g.accessor pk.adjacency).Canonical ∧ archive g = some sg ∧
    SameGraph (g.accessor pk.adjacency) a

def BaseMode.open_ (mode : BaseMode) (sg : SerializableGraphV2 W) : BaseGraph W :=
  match mode with
  | .owned => .owned (fromRkyvRebuildV2 sg)
  | .mmap => .archived sg

section portrays
variable [TotalCmp W] {pk : Packages W} {sg : SerializableGraphV2 W} {a b : GraphAccessor W}

theorem Portrays.same (p : Portrays pk sg a) (same : SameGraph a b) : Portrays pk sg b := by
  obtain ⟨g,ok,canonical,archived,shown⟩ := p
  exact ⟨g,ok,canonical,archived,shown.trans same⟩

theorem Portrays.passes (p : Portrays pk sg a) (validate : Validation) {expected : UInt32}
    (crc : pk.codec.graphCrc32 sg = expected) : validateV2 pk validate sg expected = .ok () := by
  obtain ⟨g,ok,_,archived,_⟩ := p
  have checked : checkCrc pk sg expected = .ok () := if_neg (not_not_intro crc)
  have csr : sg.validateCsr pk.debug fnv1a = .ok () := (sg.validateExact pk.debug fnv1a).mpr (archivedWellFormed ok archived)
  cases validate with
  | none => rfl
  | crc => exact checked
  | full => simp only [validateV2,checked,csr,bind,Except.bind]

theorem Portrays.opened (p : Portrays pk sg a) (mode : BaseMode) :
    Presents pk (mode.open_ sg) ∧ SameGraph ((mode.open_ sg).asAccessor pk) a := by
  obtain ⟨g,ok,canonical,archived,same⟩ := p
  have agrees := (archivedAgrees ok archived pk.adjacency).1
  cases mode with
  | mmap => exact ⟨archivedPresents ok canonical archived,agrees.same.trans same⟩
  | owned =>
    have wf := archivedWellFormed ok archived
    have rebuilt : Agrees ((fromRkyvRebuildV2 sg).accessor pk.adjacency) (g.accessor pk.adjacency) :=
      (wf.agreesRebuilt pk.adjacency).symm.trans agrees
    exact ⟨ownedPresents wf.rebuilt (rebuilt.same.symm.canonical canonical),rebuilt.same.trans same⟩

theorem foldPortrays [Arith W] {state : GraphState W} (proper : Proper pk state)
    (room : state.delta.addedEdges.length ≤ 2^32) (archived : archive (state.fold pk) = some sg) :
    Portrays pk sg (state.view pk) :=
  ⟨state.fold pk,(foldSound pk state).1,(foldSound pk state).2,archived,proper.foldSame room⟩

end portrays
end OrpheusGraph
