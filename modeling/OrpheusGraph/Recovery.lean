import OrpheusGraph.Batch
import OrpheusGraph.Wal

/-! Recovery of the log: which frames are replayed, which are skipped as folded, and the
offset at which the file is cut. -/
namespace OrpheusGraph
variable {W : Type}

structure Replay (W : Type) where
  delta : GraphDelta W
  expectedNext : Nat
  lastApplied : Nat
  committedEnd : Nat
  uncommittedTailFrames : Nat

/- The offset is advanced by the length of the record encoded again. -/
def replayRecord (codec : Codec W) (base : GraphAccessor W) (snapshotSeq commitHw : Nat) (r : Replay W)
    (rec : WalRecord W) : Except PersistError (Replay W) :=
  if rec.seq > commitHw then .ok { r with uncommittedTailFrames := r.uncommittedTailFrames + 1 }
  else match encodeFrameWith codec codec.reencodeRecord rec with
    | .error e => .error e
    | .ok out =>
      let r := { r with committedEnd := r.committedEnd + out.length }
      if rec.seq ≤ snapshotSeq then .ok r
      else if rec.seq ≠ r.expectedNext then
        .error (.corrupt s!"WAL seq gap: expected {r.expectedNext}, found {rec.seq}")
      else .ok { r with
        delta := r.delta.replay base rec.ops
        lastApplied := rec.seq
        expectedNext := r.expectedNext + 1 }

def replayRecords (codec : Codec W) (base : GraphAccessor W) (snapshotSeq commitHw : Nat) (r : Replay W) :
    List (WalRecord W) → Except PersistError (Replay W)
  | [] => .ok r
  | rec::recs => match replayRecord codec base snapshotSeq commitHw r rec with
    | .error e => .error e
    | .ok r => replayRecords codec base snapshotSeq commitHw r recs

/- `committedSeq` is what the COMMIT sidecar holds, `highSeq` what the MANIFEST does. -/
def recover (codec : Codec W) (base : GraphAccessor W) (snapshotSeq committedSeq highSeq : Nat)
    (scanned : ScanResult W) : Except PersistError (Replay W) :=
  let commitHw := max committedSeq snapshotSeq
  if commitHw < highSeq then .error (.corrupt
    s!"COMMIT marker committed_seq {commitHw} is behind MANIFEST high_seq {highSeq} (inconsistent durable pointers)")
  else match replayRecords codec base snapshotSeq commitHw ⟨.new,snapshotSeq + 1,snapshotSeq,0,0⟩
      scanned.records with
    | .error e => .error e
    | .ok r =>
      if r.lastApplied < commitHw then .error (.corrupt
        s!"WAL lost committed data: recovered seq {r.lastApplied} < durable commit marker {commitHw} (torn/truncated committed frame)")
      else if r.committedEnd > scanned.validEnd then .error (.corrupt
        s!"internal: committed boundary {r.committedEnd} exceeds WAL valid end {scanned.validEnd}")
      else .ok r

/- The file after recovery. -/
def truncateLog (file : Bytes) (committedEnd : Nat) : Bytes :=
  if file.length > committedEnd then file.take committedEnd else file

/-! The frames at or below the mark. -/
def committed (commitHw : Nat) (recs : List (WalRecord W)) : List (WalRecord W) :=
  recs.filter (fun rec => rec.seq ≤ commitHw)

theorem committedPrefix (commitHw : Nat) {recs : List (WalRecord W)}
    (increasing : recs.Pairwise (fun a b => a.seq < b.seq)) :
    ∃ later, recs = committed commitHw recs ++ later ∧ ∀ rec ∈ later, commitHw < rec.seq := by
  induction recs with
  | nil => exact ⟨[],rfl,fun _ member => nomatch member⟩
  | cons rec recs ih =>
    obtain ⟨after,rest⟩ := List.pairwise_cons.mp increasing
    rcases Nat.lt_or_ge commitHw rec.seq with beyond | within
    · refine ⟨rec::recs,?_,fun r member => ?_⟩
      · have none_kept : committed commitHw (rec::recs) = [] := by
          refine List.filter_eq_nil_iff.mpr (fun r member => ?_)
          rcases List.mem_cons.mp member with rfl | member
          · simpa using beyond
          · simpa using beyond.trans (after r member)
        rw [none_kept,List.nil_append]
      · rcases List.mem_cons.mp member with rfl | member
        · exact beyond
        · exact beyond.trans (after r member)
    · obtain ⟨later,split,above⟩ := ih rest
      refine ⟨later,?_,above⟩
      rw [committed,List.filter_cons_of_pos (by simpa using within),List.cons_append]
      exact congrArg (List.cons rec) split

theorem replayRecordEnd {codec : Codec W} (lawful : codec.Lawful) {base : GraphAccessor W}
    {snapshotSeq commitHw : Nat} {r r' : Replay W} {rec : WalRecord W}
    (ok : replayRecord codec base snapshotSeq commitHw r rec = .ok r') :
    r'.committedEnd = r.committedEnd + (frames codec (committed commitHw [rec])).length := by
  unfold replayRecord at ok
  split at ok
  · rename_i beyond
    cases Except.ok.inj ok
    simp [committed,frames,beyond]
  rename_i within
  have size : (frames codec (committed commitHw [rec])).length =
      8 + (codec.reencodeRecord rec).length := by
    rw [lawful.sameLength]
    simp [committed,frames,frame,Nat.not_lt.mp within]
  unfold encodeFrameWith at ok
  simp only at ok
  split at ok
  · contradiction
  rename_i short
  split at short
  · contradiction
  cases Except.ok.inj short
  split at ok
  · cases Except.ok.inj ok
    rw [size,frameOfLength]
  split at ok
  · contradiction
  · cases Except.ok.inj ok
    rw [size,frameOfLength]

theorem replayRecordsEnd {codec : Codec W} (lawful : codec.Lawful) {base : GraphAccessor W}
    {snapshotSeq commitHw : Nat} {recs : List (WalRecord W)} {r r' : Replay W}
    (ok : replayRecords codec base snapshotSeq commitHw r recs = .ok r') :
    r'.committedEnd = r.committedEnd + (frames codec (committed commitHw recs)).length := by
  induction recs generalizing r with
  | nil =>
    cases Except.ok.inj ok
    rfl
  | cons rec recs ih =>
    cases step : replayRecord codec base snapshotSeq commitHw r rec with
    | error e => simp [replayRecords,step] at ok
    | ok next =>
      simp only [replayRecords,step] at ok
      have parts : committed commitHw (rec::recs) = committed commitHw [rec] ++ committed commitHw recs := by
        rw [committed,← List.singleton_append,List.filter_append]
        rfl
      rw [ih ok,replayRecordEnd lawful step,parts,framesJoin,List.length_append,Nat.add_assoc]

/- The operations it goes through. -/
def replayedOps (snapshotSeq commitHw : Nat) (recs : List (WalRecord W)) : List (Op W) :=
  (recs.filter (fun rec => snapshotSeq < rec.seq ∧ rec.seq ≤ commitHw)).flatMap WalRecord.ops

theorem recordsDelta {codec : Codec W} {base : GraphAccessor W} {snapshotSeq commitHw : Nat} {recs : List (WalRecord W)}
    {r r' : Replay W} (ok : replayRecords codec base snapshotSeq commitHw r recs = .ok r') :
    r'.delta = r.delta.replay base (replayedOps snapshotSeq commitHw recs) := by
  induction recs generalizing r with
  | nil =>
    cases Except.ok.inj ok
    rfl
  | cons rec recs ih =>
    cases step : replayRecord codec base snapshotSeq commitHw r rec with
    | error e => simp [replayRecords,step] at ok
    | ok next =>
      simp only [replayRecords,step] at ok
      rw [ih ok]
      unfold replayRecord at step
      split at step
      · rename_i beyond
        cases Except.ok.inj step
        rw [replayedOps,replayedOps,List.filter_cons_of_neg (by simp; omega)]
      rename_i within
      split at step
      · contradiction
      simp only at step
      split at step
      · rename_i folded
        cases Except.ok.inj step
        rw [replayedOps,replayedOps,List.filter_cons_of_neg (by simp; omega)]
      rename_i unfolded
      split at step
      · contradiction
      · cases Except.ok.inj step
        rw [replayedOps,replayedOps,List.filter_cons_of_pos (by simp; omega),List.flatMap_cons,GraphDelta.replayAppend]

theorem recoverRecords {codec : Codec W} {base : GraphAccessor W} {snapshotSeq committedSeq highSeq : Nat}
    {scanned : ScanResult W} {r : Replay W}
    (ok : recover codec base snapshotSeq committedSeq highSeq scanned = .ok r) :
    replayRecords codec base snapshotSeq (max committedSeq snapshotSeq)
      ⟨.new,snapshotSeq + 1,snapshotSeq,0,0⟩ scanned.records = .ok r ∧
    highSeq ≤ max committedSeq snapshotSeq ∧ max committedSeq snapshotSeq ≤ r.lastApplied ∧
    r.committedEnd ≤ scanned.validEnd := by
  unfold recover at ok
  simp only at ok
  split at ok
  · contradiction
  split at ok
  · contradiction
  split at ok
  · contradiction
  split at ok
  · contradiction
  cases Except.ok.inj ok
  refine ⟨by assumption,?_,?_,?_⟩ <;> omega

theorem replayRecordsApplied {codec : Codec W} {base : GraphAccessor W} {snapshotSeq commitHw : Nat}
    {recs : List (WalRecord W)} {r r' : Replay W} (within : r.lastApplied ≤ commitHw)
    (ok : replayRecords codec base snapshotSeq commitHw r recs = .ok r') : r'.lastApplied ≤ commitHw := by
  induction recs generalizing r with
  | nil =>
    cases Except.ok.inj ok
    exact within
  | cons rec recs ih =>
    cases step : replayRecord codec base snapshotSeq commitHw r rec with
    | error e => simp [replayRecords,step] at ok
    | ok next =>
      simp only [replayRecords,step] at ok
      refine ih ?_ ok
      unfold replayRecord at step
      split at step
      · cases Except.ok.inj step
        exact within
      rename_i below
      split at step
      · contradiction
      simp only at step
      split at step
      · cases Except.ok.inj step
        exact within
      split at step
      · contradiction
      · cases Except.ok.inj step
        exact Nat.not_lt.mp below

/- A recovery ends at the mark, neither before it nor behind. -/
theorem recoveredSeq {codec : Codec W} {base : GraphAccessor W} {snapshotSeq committedSeq highSeq : Nat}
    {scanned : ScanResult W} {r : Replay W}
    (ok : recover codec base snapshotSeq committedSeq highSeq scanned = .ok r) :
    r.lastApplied = max committedSeq snapshotSeq := by
  obtain ⟨replayed,_,reached,_⟩ := recoverRecords ok
  exact Nat.le_antisymm (replayRecordsApplied (Nat.le_max_right _ _) replayed) reached

/- Three frames, the middle one the last committed, and three stray bytes. -/
def markedLog : List (WalRecord Unit) := [⟨1,[]⟩,⟨2,[.removeNode "a"]⟩,⟨3,[]⟩]

def markedScan : ScanResult Unit := ⟨markedLog,(frames plainCodec markedLog).length,true,1⟩

end OrpheusGraph
