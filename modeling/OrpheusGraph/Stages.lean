import OrpheusGraph.Outcomes

/-! The same for the operations of the store: each stage of a compaction and of a recovery
as one rule. -/
namespace OrpheusGraph
open Storage Effects
variable {W σ α : Type} {faults : Faults W} {C : World W → Prop} {st : σ} {s : World W} {pk : Packages W}

/- A call that only reads leaves everything as it was, also when it fails. -/
theorem endsReading {c : IoCall W} {Q : Except Stop c.Value → σ → World W → Prop} (now : C s)
    (reads : ∀ r s', c.works faults s r s' → s' = s)
    (plain : ∀ f cells off, c ≠ .append f cells ∧ c ≠ .writeAt f off cells)
    (done : ∀ r, c.works faults s r s → Q (settled r) st s)
    (fails : faults.fails c → ∀ k, Q (.error (.err (.io k))) st s) :
    Act.ends (Step faults) C (io c) Q st s := by
  refine endsIo now (fun r s' worked => ?_) (fun may k s' broke => ?_)
  · obtain rfl := reads r s' worked
    exact ⟨now,done r worked⟩
  · have same : s' = s := by
      rcases broke with rfl | ⟨v,late⟩ | part
      · rfl
      · exact reads _ _ late
      · cases c with
        | append f cells => exact absurd rfl (plain f cells 0).1
        | writeAt f off cells => exact absurd rfl (plain f cells off).2
        | _ => exact part.elim
    subst same
    exact ⟨now,fails may k⟩

theorem endsRead {name : String} {Q : Except Stop (List (Stored W)) → σ → World W → Prop} (now : C s)
    (refused : faults.fails (.read name) ∨ s.disk.read name = none → ∀ e, Q (.error (.err e)) st s)
    (done : ∀ cells, s.disk.read name = some cells → Q (.ok cells) st s) :
    Act.ends (Step faults) C (io (.read name)) Q st s := by
  refine endsReading now (fun _ _ h => h.2) (by simp) (fun r worked => ?_) (fun may k => refused (.inl may) _)
  obtain ⟨rfl,_⟩ := worked
  cases found : s.disk.read name with
  | none => exact refused (.inr found) _
  | some cells => exact done cells found

theorem endsReadManifest {Q : Except Stop Manifest → σ → World W → Prop} (now : C s)
    (refused : ((∃ c, faults.fails c) ∨ ∀ cells m, s.disk.read manifestName = some cells →
      checkManifest pk.codec.crc32 (pk.parse (asBytes cells)) ≠ .ok m) → ∀ e, Q (.error (.err e)) st s)
    (done : ∀ cells m, s.disk.read manifestName = some cells →
      checkManifest pk.codec.crc32 (pk.parse (asBytes cells)) = .ok m → Q (.ok m) st s) :
    Act.ends (Step faults) C (readManifest pk) Q st s := by
  refine Act.endsBind (endsRead now (fun bad e => refused (bad.imp (fun may => ⟨_,may⟩) (fun missing cells m there => ?_)) e)
    (fun cells found => ?_))
  · rw [missing] at there
    contradiction
  change Act.ends (Step faults) C _ Q st s
  cases passed : checkManifest pk.codec.crc32 (pk.parse (asBytes cells)) with
  | ok m => exact ⟨now,done cells m found passed⟩
  | error e =>
    refine ⟨now,refused (.inr (fun cells' m there ok => ?_)) e⟩
    cases Option.some.inj (found.symm.trans there)
    cases passed.symm.trans ok

/- What opening the file of an archived graph checked. -/
structure Opens (pk : Packages W) (s : World W) (name : String) (mode : BaseMode) (validate : Validation)
    (expected : UInt32) (base : BaseGraph W) : Prop where
  found : ∃ sg, s.disk.read name = some [.graph sg] ∧ validateV2 pk validate sg expected = .ok () ∧
    base = match mode with
      | .owned => .owned (fromRkyvRebuildV2 sg)
      | .mmap => .archived sg

theorem endsOpenSnapshot {name : String} {mode : BaseMode} {validate : Validation} {expected : UInt32}
    {Q : Except Stop (BaseGraph W) → σ → World W → Prop} (now : C s)
    (refused : (faults.fails (.read name) ∨ ∀ base, ¬Opens pk s name mode validate expected base) →
      ∀ e, Q (.error (.err e)) st s)
    (done : ∀ base, Opens pk s name mode validate expected base → Q (.ok base) st s) :
    Act.ends (Step faults) C (openSnapshot pk name mode validate expected) Q st s := by
  refine Act.endsBind (endsRead now (fun bad e => refused (bad.imp_right (fun missing base opened => ?_)) e)
    (fun cells found => ?_))
  · obtain ⟨sg,there,_⟩ := opened.found
    rw [missing] at there
    contradiction
  have reject : (∀ sg, cells ≠ [.graph sg]) →
      Act.ends (Step faults) C (refuse (.corrupt "V2 rkyv structural validation failed")) Q st s := by
    refine fun other => ⟨now,refused (.inr (fun base opened => ?_)) _⟩
    obtain ⟨sg,there,_⟩ := opened.found
    exact other sg (Option.some.inj (found.symm.trans there))
  rcases cells with _ | ⟨first,_ | _⟩
  · exact reject (by simp)
  · cases first with
    | graph sg =>
      change Act.ends (Step faults) C _ Q st s
      dsimp only
      cases passed : validateV2 pk validate sg expected with
      | error e =>
        refine ⟨now,refused (.inr (fun base opened => ?_)) e⟩
        obtain ⟨sg',there,valid,_⟩ := opened.found
        cases Stored.graph.inj (List.cons.inj (Option.some.inj (found.symm.trans there))).1
        rw [passed] at valid
        contradiction
      | ok u =>
        cases mode with
        | owned => exact ⟨now,done _ ⟨sg,found,passed,rfl⟩⟩
        | mmap => exact ⟨now,done _ ⟨sg,found,passed,rfl⟩⟩
    | byte _ => exact reject (by simp)
    | slot _ => exact reject (by simp)
    | torn => exact reject (by simp)
  · cases first <;> exact reject (by simp)

theorem endsOpenBase {m : Manifest} {mode : BaseMode} {validate : Validation}
    {Q : Except Stop (BaseGraph W) → σ → World W → Prop} (now : C s)
    (refused : ((∃ c, faults.fails c) ∨ ∀ base, m.formatVersion = 3 →
      ¬Opens pk s m.snapshotFile mode validate m.snapshotCrc32 base) → ∀ e, Q (.error (.err e)) st s)
    (done : ∀ base, m.formatVersion = 3 → Opens pk s m.snapshotFile mode validate m.snapshotCrc32 base →
      Q (.ok base) st s) :
    Act.ends (Step faults) C (openBase pk m mode validate) Q st s := by
  have other : m.formatVersion ≠ 3 → ∀ e, Q (.error (.err e)) st s := fun old => refused (.inr (fun _ same => absurd same old))
  unfold openBase
  split
  · rename_i newer
    exact ⟨now,other (fun same => by rw [same] at newer; exact absurd newer (by decide)) _⟩
  split
  · exact ⟨now,other (by omega) _⟩
  split
  · refine endsOpenSnapshot now (fun bad e => refused ?_ e) (fun base opened => done base (by assumption) opened)
    exact bad.imp (fun may => ⟨_,may⟩) (fun none_opens base _ => none_opens base)
  · exact ⟨now,other (by assumption) _⟩

theorem endsOpenLog {Q : Except Stop FileId → σ → World W → Prop} (now : C s)
    (refused : ((∃ c, faults.fails c) ∨ s.disk.dir walName = none) → ∀ e, Q (.error (.err e)) st s)
    (done : ∀ file, s.disk.dir walName = some file → Q (.ok file) st s) :
    Act.ends (Step faults) C (openLog pk) Q st s := by
  refine Act.endsBind (endsTryIo now (fun r s' worked => ?_) (fun may k s' broke => ?_))
  · obtain ⟨rfl,rfl⟩ := worked
    refine ⟨now,?_⟩
    cases found : s'.disk.dir walName with
    | none => exact ⟨now,refused (.inr found) _⟩
    | some file => exact ⟨now,done file found⟩
  · have same : s' = s := by
      rcases broke with rfl | ⟨v,late⟩ | part
      · rfl
      · exact late.2
      · exact part.elim
    subst same
    refine ⟨now,?_⟩
    cases k <;> exact ⟨now,refused (.inl ⟨_,may⟩) _⟩

theorem endsReadAndScan {file : FileId} {Q : Except Stop (ScanResult W) → σ → World W → Prop} (now : C s)
    (refused : ((∃ c, faults.fails c) ∨ ∀ scan, scanWalBytes pk.codec (asBytes (s.disk.files file).content) ≠ some (.ok scan)) →
      ∀ e, Q (.error e) st s)
    (done : ∀ scan, scanWalBytes pk.codec (asBytes (s.disk.files file).content) = some (.ok scan) →
      Q (.ok scan) st s) :
    Act.ends (Step faults) C (readAndScan pk file) Q st s := by
  refine Act.endsBind (endsReading now (fun _ _ h => h.2) (by simp) (fun r worked => ?_) (fun may k => refused (.inl ⟨_,may⟩) _))
  obtain ⟨rfl,_⟩ := worked
  refine Act.endsBind (endsReading now (fun _ _ h => h.2) (by simp) (fun r worked => ?_) (fun may k => refused (.inl ⟨_,may⟩) _))
  obtain ⟨rfl,_⟩ := worked
  change Act.ends (Step faults) C _ Q st s
  rcases found : scanWalBytes pk.codec (asBytes (s.disk.files file).content) with _ | _ | scan
  · exact ⟨now,refused (.inr (fun scan ok => by cases found.symm.trans ok)) _⟩
  · exact ⟨now,refused (.inr (fun scan ok => by cases found.symm.trans ok)) _⟩
  · exact ⟨now,done scan found⟩

/- What opening the sidecar found. -/
structure Sidecar (pk : Packages W) (s : World W) (file : FileId) (rec : CommitRecord) (h : CommitFile) : Prop where
  bound : s.disk.dir commitName = some file
  opened : CommitFile.opened (pk.path commitName) (Stored.slotLayout.slotAt (s.disk.files file).content 0)
    (Stored.slotLayout.slotAt (s.disk.files file).content 1) = .ok (rec,h)

theorem endsOpenCommit {Q : Except Stop (FileId × CommitRecord × CommitFile) → σ → World W → Prop} (now : C s)
    (refused : ((∃ c, faults.fails c) ∨ ∀ file rec h, ¬Sidecar pk s file rec h) → ∀ e, Q (.error (.err e)) st s)
    (done : ∀ file rec h, Sidecar pk s file rec h → Q (.ok (file,rec,h)) st s) :
    Act.ends (Step faults) C (CommitFile.open_ pk) Q st s := by
  refine Act.endsBind (endsTryIo now (fun r s' worked => ?_) (fun may k s' broke => ?_))
  · obtain ⟨rfl,rfl⟩ := worked
    refine ⟨now,?_⟩
    cases bound : s'.disk.dir commitName with
    | none => exact ⟨now,refused (.inr (fun file rec h side => by cases bound.symm.trans side.bound)) _⟩
    | some file =>
      refine Act.endsBind (endsReading now (fun _ _ h => h.2) (by simp) (fun r worked => ?_) (fun may k => refused (.inl ⟨_,may⟩) _))
      obtain ⟨rfl,_⟩ := worked
      refine Act.endsBind (endsReading now (fun _ _ h => h.2) (by simp) (fun r worked => ?_) (fun may k => refused (.inl ⟨_,may⟩) _))
      obtain ⟨rfl,_⟩ := worked
      change Act.ends (Step faults) C _ Q st s'
      rcases found : CommitFile.opened (pk.path commitName) (Stored.slotLayout.slotAt (s'.disk.files file).content 0)
        (Stored.slotLayout.slotAt (s'.disk.files file).content 1) with _ | ⟨rec,handle⟩
      · refine ⟨now,refused (.inr (fun file' rec h side => ?_)) _⟩
        cases Option.some.inj (bound.symm.trans side.bound)
        cases found.symm.trans side.opened
      · exact ⟨now,done _ _ _ ⟨bound,found⟩⟩
  · have same : s' = s := by
      rcases broke with rfl | ⟨v,late⟩ | part
      · rfl
      · exact late.2
      · exact part.elim
    subst same
    refine ⟨now,?_⟩
    cases k <;> exact ⟨now,refused (.inl ⟨_,may⟩) _⟩

/-! Garbage collection. It only takes names away, and it never fails. -/
def World.unlinked (s : World W) (name : String) : World W := s.on (s.disk.change (.unlink name))

theorem endsRemove {name : String} {Q : Except Stop Unit → σ → World W → Prop} (now : C s ∧ Q (.ok ()) st s)
    (removed : (s.disk.dir name).isSome = true → C (s.unlinked name) ∧ Q (.ok ()) st (s.unlinked name)) :
    Act.ends (Step faults) C (removeSnapshotFile name) Q st s := by
  have works : ∀ {r s'}, (IoCall.removeFile name).works faults s r s' →
      s' = s ∨ (s.disk.dir name).isSome = true ∧ s' = s.unlinked name := by
    intro r s' worked
    rw [IoCall.works] at worked
    split at worked
    · exact .inl worked.2
    · rename_i i found
      exact .inr ⟨by rw [found]; rfl,worked.2⟩
  have after : ∀ {s'}, s' = s ∨ (s.disk.dir name).isSome = true ∧ s' = s.unlinked name → C s' ∧ Q (.ok ()) st s' := by
    rintro s' (rfl | ⟨there,rfl⟩)
    · exact now
    · exact removed there
  refine Act.endsBind (endsTryIo now.1 (fun r s' worked => ?_) (fun may k s' broke => ?_))
  · have done := after (works worked)
    exact ⟨done.1,done⟩
  · have done := after (show s' = s ∨ _ from by
      rcases broke with same | ⟨v,late⟩ | part
      · exact .inl same
      · exact works late
      · exact part.elim)
    exact ⟨done.1,done⟩

theorem endsGc {keep : String} {I : World W → Prop} {Q : Except Stop Unit → σ → World W → Prop} (now : I s)
    (holds : ∀ s', I s' → C s') (removed : ∀ s' name, I s' → orphan keep name = true → I (s'.unlinked name))
    (done : ∀ s', I s' → Q (.ok ()) st s') :
    Act.ends (Step faults) C (gcOrphanSnapshots keep) Q st s := by
  have sweep : ∀ names s, I s → Act.ends (Step faults) C (removeOrphans keep names) Q st s := by
    intro names
    induction names with
    | nil => exact fun s now => ⟨holds s now,done s now⟩
    | cons name names ih =>
      intro s now
      unfold removeOrphans
      cases strayed : orphan keep name with
      | false => exact ih s now
      | true =>
        refine Act.endsBind (endsRemove ⟨holds s now,ih s now⟩ (fun _ => ?_))
        exact ⟨holds _ (removed s name now strayed),ih _ (removed s name now strayed)⟩
  refine Act.endsBind (endsTryIo (holds s now) (fun r s' worked => ?_) (fun may k s' broke => ?_))
  · obtain ⟨names,_,rfl,rfl⟩ := worked
    exact ⟨holds _ now,sweep names _ now⟩
  · have same : s' = s := by
      rcases broke with rfl | ⟨v,names,_,_,rfl⟩ | part
      · rfl
      · rfl
      · exact part.elim
    subst same
    exact ⟨holds _ now,holds _ now,done _ now⟩

/-! Compaction. -/
namespace Writer
variable [Arith W] [TotalCmp W] {w : Writer W}

/- From the moment the MANIFEST names the new snapshot. -/
def pointed (w : Writer W) (m : Manifest) : Writer W :=
  { w with
    snapshotSeq := m.snapshotSeq
    snapshotFile := m.snapshotFile
    snapshotCrc32 := m.snapshotCrc32
    formatVersion := currentFormat
    compactionId := m.compactionId }

def rebased (w : Writer W) (base : BaseGraph W) : Writer W := { w with base := base, delta := .new, deltaOps := 0 }

/- What is left to do then. `w` is the writer before. -/
def settle (pk : Packages W) (w : Writer W) (m : Manifest) : Io W (Writer W) Unit := do
  advanceCommit (max w.durableSeq w.seq)
  onWal WalWriter.truncate
  let base ← w.reload pk m
  Act.modify (fun w => { w with base := base, delta := .new, deltaOps := 0 })
  publish ⟨base,.new,w.seq,w.epoch⟩
  if w.snapshotFile ≠ m.snapshotFile then removeSnapshotFile w.snapshotFile

theorem endsCompact {Q : Except Stop Unit → Writer W → World W → Prop} (now : C s)
    (idle : w.delta.isEmpty = true → Q (.ok ()) { w with deltaOps := 0 } s)
    (full : w.delta.isEmpty = false → archive (w.fold pk) = none → Q (.error .panicked) w s)
    (snapshot : ∀ sg, w.delta.isEmpty = false → archive (w.fold pk) = some sg →
      ∀ s', s.Replacing (w.foldManifest pk sg).snapshotFile [.graph sg] s' → C s' ∧
        (faults.at (tmpName (w.foldManifest pk sg).snapshotFile) → ∀ k, Q (.error (.err (.io k))) w s'))
    (manifest : ∀ sg, w.delta.isEmpty = false → archive (w.fold pk) = some sg →
      ∀ s', (s.replaced (w.foldManifest pk sg).snapshotFile [.graph sg]).Replacing manifestName
        (manifestCells pk (w.foldManifest pk sg)) s' → C s' ∧
        (faults.at (tmpName manifestName) → ∀ k, Q (.error (.err (.io k))) w s'))
    (rest : ∀ sg, w.delta.isEmpty = false → archive (w.fold pk) = some sg →
      Act.ends (Step faults) C (settle pk w (w.foldManifest pk sg)) Q (w.pointed (w.foldManifest pk sg))
        ((s.replaced (w.foldManifest pk sg).snapshotFile [.graph sg]).replaced manifestName
          (manifestCells pk (w.foldManifest pk sg)))) :
    Act.ends (Step faults) C (compactLocked pk) Q w s := by
  unfold compactLocked
  rw [Act.endsGetBind]
  split
  · exact ⟨now,idle (by assumption)⟩
  have busy : w.delta.isEmpty = false := by simpa using ‹¬w.delta.isEmpty = true›
  unfold serialize
  cases fits : archive (w.fold pk) with
  | none => exact ⟨now,full busy fits⟩
  | some sg =>
    rw [Act.endsPureBind]
    refine Act.endsBind (endsReplace (fun s' way => (snapshot sg busy fits s' way).1) ?_
      (fun may k s' way => (snapshot sg busy fits s' way).2 may k))
    refine Act.endsBind (endsReplace (fun s' way => (manifest sg busy fits s' way).1) ?_
      (fun may k s' way => (manifest sg busy fits s' way).2 may k))
    exact rest sg busy fits

/- The base a reload can end with. -/
def Reloads (pk : Packages W) (s : World W) (w : Writer W) (m : Manifest) (base : BaseGraph W) : Prop :=
  match w.mode with
  | .owned => base = .owned (w.fold pk)
  | .mmap => Opens pk s m.snapshotFile .mmap .none m.snapshotCrc32 base

omit [TotalCmp W] in
theorem endsReload {m : Manifest} {Q : Except Stop (BaseGraph W) → σ → World W → Prop} (now : C s)
    (refused : (faults.fails (.read m.snapshotFile) ∨ ∀ base, ¬w.Reloads pk s m base) → ∀ e, Q (.error (.err e)) st s)
    (done : ∀ base, w.Reloads pk s m base → Q (.ok base) st s) :
    Act.ends (Step faults) C (w.reload pk m) Q st s := by
  unfold reload
  unfold Reloads at refused done
  cases mode : w.mode with
  | owned =>
    rw [mode] at done
    exact ⟨now,done _ rfl⟩
  | mmap =>
    rw [mode] at refused done
    exact endsOpenSnapshot now refused done

def cut (w : Writer W) : Writer W := { w with wal := w.wal.emptied }

/- The world after the COMMIT stamp of a compaction or a flush, and after the log is emptied. -/
def stamped (u : Writer W) (mark : Nat) (s : World W) : World W :=
  CommitFile.marked u.commitFile u.commit (u.commit.stamp u.epoch mark) s

def Stamping (u : Writer W) (mark : Nat) (s : World W) : World W → Prop :=
  CommitFile.Marking u.commitFile u.commit (u.commit.stamp u.epoch mark) s

def logCut (u : Writer W) (s : World W) : World W := u.wal.synced (u.wal.cut s)

def announced (s : World W) (g : GraphState W) : World W := { s with published := s.published ++ [g] }

omit [TotalCmp W] in
/- `u` is the writer by then. -/
theorem endsSettle {m : Manifest} {u : Writer W} {Q : Except Stop Unit → Writer W → World W → Prop}
    (sound : u.wal.poisoned = false)
    (marking : ∀ s', u.Stamping (max w.durableSeq w.seq) s s' → C s' ∧
      ((∃ c, faults.fails c ∧ c.file = some u.commitFile) → ∀ k, Q (.error (.err (.io k))) u.poisonedNow s'))
    (cutting : ∀ s' ∈ [u.stamped (max w.durableSeq w.seq) s,u.wal.cut (u.stamped (max w.durableSeq w.seq) s),
        u.logCut (u.stamped (max w.durableSeq w.seq) s)], C s' ∧
      ((∃ c, faults.fails c ∧ c.file = some u.wal.file) → ∀ k len since, Q (.error (.err (.io k)))
        { u.marked (max w.durableSeq w.seq) with
          wal := { u.wal with len := len, sinceFsync := since, poisoned := true } } s'))
    (unread : (faults.fails (.read m.snapshotFile) ∨
        ∀ base, ¬w.Reloads pk (u.logCut (u.stamped (max w.durableSeq w.seq) s)) m base) →
      ∀ e, Q (.error (.err e)) (u.marked (max w.durableSeq w.seq)).cut (u.logCut (u.stamped (max w.durableSeq w.seq) s)))
    (done : ∀ base, w.Reloads pk (u.logCut (u.stamped (max w.durableSeq w.seq) s)) m base →
      ∀ s', s' = announced (u.logCut (u.stamped (max w.durableSeq w.seq) s)) ⟨base,.new,w.seq,w.epoch⟩ ∨
          w.snapshotFile ≠ m.snapshotFile ∧
          s' = (announced (u.logCut (u.stamped (max w.durableSeq w.seq) s)) ⟨base,.new,w.seq,w.epoch⟩).unlinked
            w.snapshotFile →
        C s' ∧ Q (.ok ()) ((u.marked (max w.durableSeq w.seq)).cut.rebased base) s') :
    Act.ends (Step faults) C (settle pk w m) Q u s := by
  have short : C (u.wal.cut (u.stamped (max w.durableSeq w.seq) s)) := (cutting _ (by simp)).1
  have flat : C (u.logCut (u.stamped (max w.durableSeq w.seq) s)) := (cutting _ (by simp)).1
  unfold settle
  refine Act.endsBind (endsAdvanceCommit (fun s' way => (marking s' way).1) ?_ (fun may k s' way => (marking s' way).2 may k))
  refine Act.endsBind (endsOnWal (WalWriter.endsTruncate (marking _ .marked).1 (fun bad => ?_) (fun _ => ⟨short,flat⟩)
    (fun _ => ?_) (fun may k len since s' member => (cutting s' member).2 may k len since)))
  · rw [show (u.marked (max w.durableSeq w.seq)).wal = u.wal from rfl,sound] at bad
    contradiction
  · refine Act.endsBind (endsReload flat unread (fun base found => ?_))
    have kept := done base found _ (.inl rfl)
    change Act.ends (Step faults) C (Act.modify _ >>= _) Q _ _
    rw [Act.endsModifyBind]
    refine Act.endsBind (endsPublish flat ⟨kept.1,?_⟩)
    change Act.ends (Step faults) C (if w.snapshotFile ≠ m.snapshotFile then _ else _) Q _ _
    split
    · exact endsRemove kept (fun _ => done base found _ (.inr ⟨by assumption,rfl⟩))
    · exact kept

/-! A batch: its frame, the stamp when the policy asks for it, and then the threshold. -/
def logged (w : Writer W) (frame : Bytes) : Writer W :=
  { w with wal := if w.wal.due then (w.wal.appended frame).fsynced else w.wal.appended frame }

def acked (w : Writer W) (frame : Bytes) : Writer W :=
  if w.wal.due then (w.logged frame).marked (w.seq + 1) else w.logged frame

def accepted (w : Writer W) (frame : Bytes) (ops : List (Op W)) (d : GraphDelta W) : Writer W :=
  { w.acked frame with seq := w.seq + 1, deltaOps := w.deltaOps + ops.length, delta := d }

def loggedWorld (w : Writer W) (frame : Bytes) (s : World W) : World W :=
  if w.wal.due then w.wal.synced (w.wal.wrote s (asCells frame)) else w.wal.wrote s (asCells frame)

def ackedWorld (w : Writer W) (frame : Bytes) (s : World W) : World W :=
  if w.wal.due then (w.logged frame).stamped (w.seq + 1) (w.loggedWorld frame s) else w.loggedWorld frame s

omit [Arith W] [TotalCmp W] in
@[simp] theorem acceptedWal (frame : Bytes) (ops : List (Op W)) (d : GraphDelta W) : (w.accepted frame ops d).wal =
    if w.wal.due then (w.wal.appended frame).fsynced else w.wal.appended frame := by
  cases due : w.wal.due <;> simp [accepted,acked,logged,marked,due]

omit [Arith W] [TotalCmp W] in
@[simp] theorem acceptedDurable (frame : Bytes) (ops : List (Op W)) (d : GraphDelta W) :
    (w.accepted frame ops d).durableSeq = if w.wal.due then w.seq + 1 else w.durableSeq := by
  cases due : w.wal.due <;> simp [accepted,acked,logged,marked,due]

/- What the caller of a batch gets from its compaction. -/
def tolerated (Q : Except Stop Unit → Writer W → World W → Prop) : Except Stop Unit → Writer W → World W → Prop
  | .ok _, w, s => Q (.ok ()) w s
  | .error .panicked, w, s => Q (.error .panicked) w s
  | .error (.err _), w, s => Q (.ok ()) { w with deltaOps := 0 } s

theorem endsAutoCompact {Q : Except Stop Unit → Writer W → World W → Prop}
    (quiet : w.deltaOps ≤ w.threshold pk → C s ∧ Q (.ok ()) w s)
    (fires : w.threshold pk < w.deltaOps → Act.ends (Step faults) C (compactLocked pk) (tolerated Q) w s) :
    Act.ends (Step faults) C (autoCompact pk) Q w s := by
  unfold autoCompact
  rw [Act.endsGetBind]
  split
  · refine Act.endsBind (Act.endsAttempt (Act.endsMono (fires (by assumption)) (fun r w s now q => ?_)))
    match r with
    | .ok _ => exact ⟨now,q⟩
    | .error .panicked => exact ⟨now,q⟩
    | .error (.err _) => exact ⟨now,q⟩
  · exact quiet (by omega)

omit [Arith W] [TotalCmp W] in
theorem preparedSound {ops : List (Op W)} {expectedSeq : Option Nat} {out : GraphDelta W × Bytes}
    (prepared : w.prepare pk ops expectedSeq = .ok out) : w.wal.poisoned = false := by
  rw [prepare] at prepared
  cases poisoned : w.wal.poisoned with
  | false => rfl
  | true => simp [poisoned] at prepared

theorem endsApply {ops : List (Op W)} {expectedSeq : Option Nat} {Q : Except Stop Nat → Writer W → World W → Prop}
    (now : C s) (refused : ∀ e, w.prepare pk ops expectedSeq = .error e → Q (.error (.err e)) w s)
    (logging : ∀ d frame, w.prepare pk ops expectedSeq = .ok (d,frame) → ∀ s', WalWriter.Logging w.wal frame s s' →
      C s' ∧ ((∃ c, faults.fails c ∧ c.file = some w.wal.file) → ∀ k len since, Q (.error (.err (.io k)))
        { w with wal := { w.wal with len := len, sinceFsync := since, poisoned := true } } s'))
    (marking : ∀ d frame, w.prepare pk ops expectedSeq = .ok (d,frame) → w.wal.due = true →
      ∀ s', w.Stamping (w.seq + 1) (w.loggedWorld frame s) s' → C s' ∧
        ((∃ c, faults.fails c ∧ c.file = some w.commitFile) → ∀ k,
          Q (.error (.err (.io k))) (w.logged frame).poisonedNow s'))
    (done : ∀ d frame, w.prepare pk ops expectedSeq = .ok (d,frame) →
      ∀ s', s' = announced (w.ackedWorld frame s) ⟨w.base,d,w.seq + 1,w.epoch⟩ →
        C (w.ackedWorld frame s) ∧ C s' ∧ Act.ends (Step faults) C (autoCompact pk)
          (fun r w' s' => Q (r.map (fun _ => w.seq + 1)) w' s') (w.accepted frame ops d) s') :
    Act.ends (Step faults) C (apply pk ops expectedSeq) Q w s := by
  unfold apply
  rw [Act.endsGetBind]
  cases prepared : w.prepare pk ops expectedSeq with
  | error e => exact ⟨now,refused e prepared⟩
  | ok out =>
    obtain ⟨d,frame⟩ := out
    obtain ⟨placed,shown,after⟩ := done d frame prepared _ rfl
    have base : (w.acked frame).base = w.base ∧ (w.acked frame).epoch = w.epoch ∧
        (w.acked frame).deltaOps = w.deltaOps := by
      unfold acked
      split <;> exact ⟨rfl,rfl,rfl⟩
    have finish : Act.ends (Step faults) C (do
        Act.modify (fun w' => { w' with
          seq := w.seq + 1
          deltaOps := w'.deltaOps + ops.length
          delta := d })
        publish ⟨w.base,d,w.seq + 1,w.epoch⟩
        autoCompact pk
        return w.seq + 1) Q (w.acked frame) (w.ackedWorld frame s) := by
      rw [Act.endsModifyBind,base.2.2]
      refine Act.endsBind (endsPublish placed ⟨shown,?_⟩)
      refine Act.endsBind (Act.endsMono after (fun r w' s' now q => ?_))
      cases r with
      | ok _ => exact ⟨now,q⟩
      | error e => exact q
    refine Act.endsBind (endsOnWal (WalWriter.endsAppend (fun s' way => (logging d frame prepared s' way).1) (fun late => ?_)
      (fun due => ?_) (fun may k len since s' way => (logging d frame prepared s' way).2 may k len since)))
    · simp only [acked,logged,ackedWorld,loggedWorld,late] at finish
      exact finish
    · have stamps := marking d frame prepared due
      simp only [acked,logged,ackedWorld,loggedWorld,due] at finish stamps
      exact Act.endsBind (endsAdvanceCommit (fun s' way => (stamps s' way).1) finish
        (fun may k s' way => (stamps s' way).2 may k))

/-! Flush and close. -/
def flushed (w : Writer W) : Writer W := { w with wal := w.wal.fsynced }

def sealed (w : Writer W) : Writer W := w.flushed.marked w.seq

def sealedWorld (w : Writer W) (s : World W) : World W := w.stamped w.seq (w.wal.synced s)

omit [Arith W] [TotalCmp W] in
theorem endsSeal {Q : Except Stop Unit → Writer W → World W → Prop} (sound : w.wal.poisoned = false)
    (syncing : ∀ s' ∈ [s,w.wal.synced s], C s' ∧ (faults.fails (.syncAll w.wal.file) → ∀ k,
      Q (.error (.err (.io k))) w.poisonedNow s'))
    (marking : ∀ s', w.Stamping w.seq (w.wal.synced s) s' → C s' ∧
      ((∃ c, faults.fails c ∧ c.file = some w.commitFile) → ∀ k, Q (.error (.err (.io k))) w.flushed.poisonedNow s'))
    (done : Q (.ok ()) w.sealed (w.sealedWorld s)) :
    Act.ends (Step faults) C sealLog Q w s := by
  have later := (syncing (w.wal.synced s) (by simp)).1
  unfold sealLog
  rw [Act.endsGetBind]
  refine Act.endsBind (endsOnWal (WalWriter.endsFlush (syncing s (by simp)).1 (fun bad => ?_) (fun _ => later) (fun _ => ?_)
    (fun may k s' member => (syncing s' member).2 may k)))
  · rw [sound] at bad
    contradiction
  · exact endsAdvanceCommit (fun s' way => (marking s' way).1) done (fun may k s' way => (marking s' way).2 may k)

omit [Arith W] [TotalCmp W] in
theorem endsFlush {Q : Except Stop Unit → Writer W → World W → Prop} (now : C s)
    (refused : w.wal.poisoned = true → Q (.error (.err .poisoned)) w s)
    (done : w.wal.poisoned = false → Act.ends (Step faults) C sealLog Q w s) :
    Act.ends (Step faults) C flush Q w s := by
  unfold flush
  rw [Act.endsGetBind]
  split
  · exact ⟨now,refused (by assumption)⟩
  · exact done (by simpa using ‹¬w.wal.poisoned = true›)

theorem endsCompactCall {Q : Except Stop Unit → Writer W → World W → Prop} (now : C s)
    (refused : w.wal.poisoned = true → Q (.error (.err .poisoned)) w s)
    (done : w.wal.poisoned = false → Act.ends (Step faults) C (compactLocked pk) Q w s) :
    Act.ends (Step faults) C (compact pk) Q w s := by
  unfold compact
  rw [Act.endsGetBind]
  split
  · exact ⟨now,refused (by assumption)⟩
  · exact done (by simpa using ‹¬w.wal.poisoned = true›)

omit [Arith W] [TotalCmp W] in
theorem endsCloseWith {clean : Bool} {Q : Except Stop Unit → Writer W → World W → Prop}
    (replacing : ∀ s', s.Replacing manifestName (manifestCells pk (w.buildManifest clean)) s' → C s' ∧
      (faults.at (tmpName manifestName) → ∀ k, Q (.error (.err (.io k))) w s'))
    (done : Q (.ok ()) w (s.replaced manifestName (manifestCells pk (w.buildManifest clean)))) :
    Act.ends (Step faults) C (closeWith pk clean) Q w s := by
  unfold closeWith
  rw [Act.endsGetBind]
  exact endsReplace (fun s' way => (replacing s' way).1) done (fun may k s' way => (replacing s' way).2 may k)

omit [Arith W] [TotalCmp W] in
/- Closing is over with the MANIFEST; only a sealed log makes it a clean one. -/
theorem endsClose {Q : Except Stop Unit → Writer W → World W → Prop}
    (unclean : w.wal.poisoned = true → Act.ends (Step faults) C (closeWith pk false)
      (Act.onward (Step faults) C (fun _ => refuse .poisoned) Q) w s)
    (seals : w.wal.poisoned = false → Act.ends (Step faults) C sealLog (fun r w s => match r with
      | .ok _ => Act.ends (Step faults) C (closeWith pk true) Q w s
      | .error _ => Act.ends (Step faults) C (closeWith pk false)
          (Act.onward (Step faults) C (fun _ => refuse .poisoned) Q) w s) w s) :
    Act.ends (Step faults) C (close pk) Q w s := by
  unfold close
  rw [Act.endsGetBind]
  split
  · exact Act.endsBind (unclean (by assumption))
  refine Act.endsBind (Act.endsAttempt (Act.endsMono (seals (by simpa using ‹¬w.wal.poisoned = true›))
    (fun r w s now q => ?_)))
  cases r with
  | ok _ => exact q
  | error e => exact Act.endsBind q

end Writer

/-! Recovery. -/
def trimmed (file : FileId) (n : Nat) (s : World W) : World W :=
  let cut := s.on (s.disk.write file (.setLen n))
  let synced := cut.on (cut.disk.sync file)
  synced.on synced.disk.syncDir

/- The states on the way of the cut of the tail. -/
inductive Trimming (file : FileId) (n : Nat) (s : World W) : World W → Prop where
  | before : Trimming file n s s
  | cut : Trimming file n s (s.on (s.disk.write file (.setLen n)))
  | synced : Trimming file n s
      (s.on ((s.disk.write file (.setLen n)).sync file))
  | trimmed : Trimming file n s (trimmed file n s)

theorem endsTruncateTail {file : FileId} {n : Nat} {Q : Except Stop Bool → σ → World W → Prop}
    (onTheWay : ∀ s', (s' = s ∨ n < (s.disk.files file).content.length ∧ Trimming file n s s') →
      C s' ∧ ((∃ c, faults.fails c ∧ (c.file = some file ∨ c = .fsyncDir)) → ∀ k, Q (.error (.err (.io k))) st s'))
    (short : (s.disk.files file).content.length ≤ n → Q (.ok false) st s)
    (long : n < (s.disk.files file).content.length → Q (.ok true) st (trimmed file n s)) :
    Act.ends (Step faults) C (truncateTail file n) Q st s := by
  have now := onTheWay s (.inl rfl)
  refine Act.endsBind (endsReading now.1 (fun _ _ h => h.2) (by simp) (fun r worked => ?_)
    (fun may k => now.2 ⟨_,may,.inl rfl⟩ k))
  obtain ⟨rfl,_⟩ := worked
  change Act.ends (Step faults) C (if (s.disk.files file).content.length > n then _ else _) Q st s
  split
  · rename_i beyond
    have way : ∀ {s'}, Trimming file n s s' → _ := fun t => onTheWay _ (.inr ⟨beyond,t⟩)
    refine Act.endsBind (endsPlain (c := .setLen file n) (v := ()) (fun _ _ h => h) (by simp) now.1 (way .cut).1 ?_
      (fun may k s' member => ?_))
    · refine Act.endsBind (endsPlain (c := .syncAll file) (v := ()) (fun _ _ h => h) (by simp) (way .cut).1
        (way .synced).1 ?_ (fun may k s' member => ?_))
      · refine Act.endsBind (endsPlain (c := .fsyncDir) (v := ()) (fun _ _ h => h) (by simp) (way .synced).1
          (way .trimmed).1 ⟨(way .trimmed).1,long beyond⟩ (fun may k s' member => ?_))
        rcases List.mem_pair.mp member with rfl | rfl
        · exact (way .synced).2 ⟨_,may,.inr rfl⟩ k
        · exact (way .trimmed).2 ⟨_,may,.inr rfl⟩ k
      · rcases List.mem_pair.mp member with rfl | rfl
        · exact (way .cut).2 ⟨_,may,.inl rfl⟩ k
        · exact (way .synced).2 ⟨_,may,.inl rfl⟩ k
    · rcases List.mem_pair.mp member with rfl | rfl
      · exact now.2 ⟨_,may,.inl rfl⟩ k
      · exact (way .cut).2 ⟨_,may,.inl rfl⟩ k
  · exact ⟨now.1,short (by omega)⟩

def World.minting (s : World W) (epoch : Nat) : World W := { s with minted := epoch :: s.minted }

/- The epoch a recovery goes on with. -/
inductive Chosen (faults : Faults W) (m : Manifest) (truncated : Bool) (s : World W) : Nat → World W → Prop where
  | kept (whole : truncated = false) (clean : m.cleanShutdown = true) : Chosen faults m truncated s m.epoch s
  | minted {epoch : Nat} (lost : truncated = true ∨ m.cleanShutdown = false) (fresh : faults.fresh → epoch ∉ s.minted) :
      Chosen faults m truncated s epoch (s.minting epoch)

theorem endsMint {Q : Except Stop Nat → σ → World W → Prop} (now : C s)
    (later : ∀ epoch, (faults.fresh → epoch ∉ s.minted) → C (s.minting epoch) ∧ Q (.ok epoch) st (s.minting epoch))
    (fails : faults.fails .mintEpoch → ∀ k s', (s' = s ∨ ∃ epoch, (faults.fresh → epoch ∉ s.minted) ∧
      s' = s.minting epoch) → Q (.error (.err (.io k))) st s') :
    Act.ends (Step faults) C (io .mintEpoch) Q st s := by
  refine endsIo now (fun r s' worked => ?_) (fun may k s' broke => ?_)
  · obtain ⟨epoch,fresh,rfl,rfl⟩ := worked
    exact later epoch fresh
  · rcases broke with rfl | ⟨v,epoch,fresh,_,rfl⟩ | part
    · exact ⟨now,fails may k _ (.inl rfl)⟩
    · exact ⟨(later epoch fresh).1,fails may k _ (.inr ⟨epoch,fresh,rfl⟩)⟩
    · exact part.elim

theorem endsChooseEpoch {m : Manifest} {truncated : Bool} {Q : Except Stop Nat → σ → World W → Prop} (now : C s)
    (done : ∀ epoch s', Chosen faults m truncated s epoch s' → C s' ∧ Q (.ok epoch) st s')
    (fails : faults.fails .mintEpoch → ∀ k s', (s' = s ∨ ∃ epoch, Chosen faults m truncated s epoch s') →
      Q (.error (.err (.io k))) st s') :
    Act.ends (Step faults) C (chooseEpoch m truncated) Q st s := by
  unfold chooseEpoch
  cases either : truncated || !m.cleanShutdown with
  | true =>
    have lost : truncated = true ∨ m.cleanShutdown = false := by simpa using either
    refine endsMint now (fun epoch fresh => done _ _ (.minted lost fresh)) (fun may k s' left => fails may k s' ?_)
    exact left.imp_right (fun ⟨epoch,fresh,same⟩ => ⟨epoch,same ▸ .minted lost fresh⟩)
  | false =>
    have kept : truncated = false ∧ m.cleanShutdown = true := by simpa using either
    exact done _ _ (.kept kept.1 kept.2)

theorem endsStampCommit {file : FileId} {h : CommitFile} {epoch mark : Nat}
    {Q : Except Stop CommitFile → σ → World W → Prop}
    (onTheWay : ∀ s', CommitFile.Marking file h (h.stamp epoch mark) s s' → C s' ∧
      ((∃ c, faults.fails c ∧ c.file = some file) → ∀ k, Q (.error (.err (.io k))) st s'))
    (done : Q (.ok (CommitFile.advanced h)) st (CommitFile.marked file h (h.stamp epoch mark) s)) :
    Act.ends (Step faults) C (stampCommit file h epoch mark) Q st s := by
  refine Act.endsWithin (Act.endsBind (CommitFile.endsAdvance (fun s' way => (onTheWay s' way).1) ?_
    (fun may k s' way => (onTheWay s' way).2 may k)))
  exact ⟨(onTheWay _ .marked).1,done⟩

/- What a recovery has found before it writes anything. -/
structure Examined (pk : Packages W) (mode : BaseMode) (validate : Validation) (s : World W) (m : Manifest)
    (base : BaseGraph W) (walFile : FileId) (scan : ScanResult W) (commitFile : FileId) (rec : CommitRecord)
    (handle : CommitFile) (r : Replay W) : Prop where
  manifest : ∃ cells, s.disk.read manifestName = some cells ∧
    checkManifest pk.codec.crc32 (pk.parse (asBytes cells)) = .ok m
  version : m.formatVersion = 3
  snapshot : Opens pk s m.snapshotFile mode validate m.snapshotCrc32 base
  log : s.disk.dir walName = some walFile
  scanned : scanWalBytes pk.codec (asBytes (s.disk.files walFile).content) = some (.ok scan)
  sidecar : Sidecar pk s commitFile rec handle
  recovered : recover pk.codec (base.asAccessor pk) m.snapshotSeq rec.committedSeq m.highSeq scan = .ok r

/- What it then writes. -/
def resume (pk : Packages W) (mode : BaseMode) (m : Manifest) (base : BaseGraph W) (walFile : FileId)
    (scan : ScanResult W) (commitFile : FileId) (rec : CommitRecord) (handle : CommitFile) (r : Replay W) :
    Io W σ (PersistentGraph W) := do
  let commitHw := max rec.committedSeq m.snapshotSeq
  let truncated ← truncateTail walFile r.committedEnd
  let epoch ← chooseEpoch m truncated
  let commit ← stampCommit commitFile handle epoch commitHw
  writeManifestAtomic pk { m with
    epoch := epoch
    highSeq := commitHw
    cleanShutdown := false
    checksum := 0 }
  gcOrphanSnapshots m.snapshotFile
  let w : Writer W := {
    wal := .new walFile .onFlush r.committedEnd
    commitFile := commitFile
    commit := commit
    seq := r.lastApplied
    durableSeq := commitHw
    epoch := epoch
    base := base
    delta := r.delta
    snapshotSeq := m.snapshotSeq
    snapshotFile := m.snapshotFile
    snapshotCrc32 := m.snapshotCrc32
    formatVersion := m.formatVersion
    compactionId := m.compactionId
    deltaOps := 0
    autoCompactOverride := none
    mode := mode }
  publish w.state
  return ⟨w,⟨r.uncommittedTailFrames,if scan.tailTruncated then scan.dropped else 0⟩⟩

theorem endsOpenExisting {mode : BaseMode} {validate : Validation} {Q : Except Stop (PersistentGraph W) → σ → World W → Prop}
    (now : C s) (refused : ((∃ c, faults.fails c) ∨ ∀ m base walFile scan commitFile rec handle r,
      ¬Examined pk mode validate s m base walFile scan commitFile rec handle r) → ∀ e, Q (.error e) st s)
    (examined : ∀ m base walFile scan commitFile rec handle r,
      Examined pk mode validate s m base walFile scan commitFile rec handle r →
      Act.ends (Step faults) C (resume pk mode m base walFile scan commitFile rec handle r) Q st s) :
    Act.ends (Step faults) C (openExisting pk mode validate) Q st s := by
  refine Act.endsBind (endsReading now (fun _ _ h => h.2) (by simp) (fun r worked => ?_) (fun may k => refused (.inl ⟨_,may⟩) _))
  obtain ⟨rfl,_⟩ := worked
  refine Act.endsBind (endsReadManifest now (fun bad e => refused (bad.imp_right (fun missing _ _ _ _ _ _ _ _ found => ?_)) _)
    (fun cells m there passed => ?_))
  · obtain ⟨cells,there,passed⟩ := found.manifest
    exact missing cells _ there passed
  -- what is on the disk, so that what was found before is what any examination finds
  have sameManifest : ∀ {m' base walFile scan commitFile rec handle r},
      Examined pk mode validate s m' base walFile scan commitFile rec handle r → m' = m := by
    intro m' base walFile scan commitFile rec handle r found
    obtain ⟨cells',there',passed'⟩ := found.manifest
    cases Option.some.inj (there.symm.trans there')
    exact Except.ok.inj (passed'.symm.trans passed)
  refine Act.endsBind (endsOpenBase now (fun bad e => refused (bad.imp_right (fun missing _ _ _ _ _ _ _ _ found => ?_)) _)
    (fun base version opened => ?_))
  · obtain rfl := sameManifest found
    exact missing _ found.version found.snapshot
  refine Act.endsBind (endsOpenLog now (fun bad e => refused (bad.imp_right (fun missing _ _ _ _ _ _ _ _ found => ?_)) _)
    (fun walFile log => ?_))
  · cases missing.symm.trans found.log
  refine Act.endsBind (endsReadAndScan now (fun bad e => refused (bad.imp_right (fun missing _ _ _ _ _ _ _ _ found => ?_)) _)
    (fun scan scanned => ?_))
  · cases Option.some.inj (log.symm.trans found.log)
    exact missing _ found.scanned
  refine Act.endsBind (endsOpenCommit now (fun bad e => refused (bad.imp_right (fun missing _ _ _ _ _ _ _ _ found => ?_)) _)
    (fun commitFile rec handle sidecar => ?_))
  · exact missing _ _ _ found.sidecar
  change Act.ends (Step faults) C _ Q st s
  dsimp only
  cases recovered : recover pk.codec (base.asAccessor pk) m.snapshotSeq rec.committedSeq m.highSeq scan with
  | error e =>
    refine ⟨now,refused (.inr (fun m' base' walFile' scan' commitFile' rec' handle' r found => ?_)) _⟩
    obtain rfl := sameManifest found
    obtain ⟨sg,read,_,rfl⟩ := opened.found
    obtain ⟨sg',read',_,rfl⟩ := found.snapshot.found
    cases Option.some.inj (read.symm.trans read')
    cases Option.some.inj (log.symm.trans found.log)
    cases Option.some.inj (scanned.symm.trans found.scanned)
    cases Option.some.inj (sidecar.bound.symm.trans found.sidecar.bound)
    cases sidecar.opened.symm.trans found.sidecar.opened
    cases recovered.symm.trans found.recovered
  | ok r =>
    exact examined m base walFile scan commitFile rec handle r
      ⟨⟨cells,there,passed⟩,version,opened,log,scanned,sidecar,recovered⟩

def resumed (m : Manifest) (epoch commitHw : Nat) : Manifest :=
  { m with epoch := epoch, highSeq := commitHw, cleanShutdown := false, checksum := 0 }

def reopened (mode : BaseMode) (m : Manifest) (base : BaseGraph W) (walFile commitFile : FileId) (rec : CommitRecord)
    (handle : CommitFile) (r : Replay W) (epoch : Nat) : Writer W where
  wal := .new walFile .onFlush r.committedEnd
  commitFile := commitFile
  commit := CommitFile.advanced handle
  seq := r.lastApplied
  durableSeq := max rec.committedSeq m.snapshotSeq
  epoch := epoch
  base := base
  delta := r.delta
  snapshotSeq := m.snapshotSeq
  snapshotFile := m.snapshotFile
  snapshotCrc32 := m.snapshotCrc32
  formatVersion := m.formatVersion
  compactionId := m.compactionId
  deltaOps := 0
  autoCompactOverride := none
  mode := mode

/- The log as the recovery leaves it, and whether anything was cut. -/
def tailLost (file : FileId) (n : Nat) (s : World W) : Bool := n < (s.disk.files file).content.length

def cutTail (file : FileId) (n : Nat) (s : World W) : World W := if tailLost file n s then trimmed file n s else s

/- The stamp of the recovery, and its MANIFEST after that. -/
def restamped (commitFile : FileId) (handle : CommitFile) (epoch commitHw : Nat) (s : World W) : World W :=
  CommitFile.marked commitFile handle (handle.stamp epoch commitHw) s

/- `I` is what holds of the world behind the MANIFEST, under the epoch that was chosen. -/
theorem endsResumeUnder {mode : BaseMode} {m : Manifest} {base : BaseGraph W} {walFile : FileId} {scan : ScanResult W}
    {commitFile : FileId} {rec : CommitRecord} {handle : CommitFile} {r : Replay W} {I : Nat → World W → Prop}
    {Q : Except Stop (PersistentGraph W) → σ → World W → Prop}
    (trimming : ∀ s', (s' = s ∨ tailLost walFile r.committedEnd s = true ∧ Trimming walFile r.committedEnd s s') →
      C s' ∧ ((∃ c, faults.fails c ∧ (c.file = some walFile ∨ c = .fsyncDir)) → ∀ k, Q (.error (.err (.io k))) st s'))
    (choosing : ∀ s', (s' = cutTail walFile r.committedEnd s ∨ ∃ epoch, Chosen faults m
        (tailLost walFile r.committedEnd s) (cutTail walFile r.committedEnd s) epoch s') →
      C s' ∧ (faults.fails .mintEpoch → ∀ k, Q (.error (.err (.io k))) st s'))
    (stamping : ∀ epoch t, Chosen faults m (tailLost walFile r.committedEnd s) (cutTail walFile r.committedEnd s) epoch t →
      ∀ s', CommitFile.Marking commitFile handle (handle.stamp epoch (max rec.committedSeq m.snapshotSeq)) t s' →
        C s' ∧ ((∃ c, faults.fails c ∧ c.file = some commitFile) → ∀ k, Q (.error (.err (.io k))) st s'))
    (replacing : ∀ epoch t, Chosen faults m (tailLost walFile r.committedEnd s) (cutTail walFile r.committedEnd s) epoch t →
      ∀ s', (restamped commitFile handle epoch (max rec.committedSeq m.snapshotSeq) t).Replacing manifestName
          (manifestCells pk (resumed m epoch (max rec.committedSeq m.snapshotSeq))) s' →
        C s' ∧ (faults.at (tmpName manifestName) → ∀ k, Q (.error (.err (.io k))) st s'))
    (kept : ∀ epoch t, Chosen faults m (tailLost walFile r.committedEnd s) (cutTail walFile r.committedEnd s) epoch t →
      I epoch ((restamped commitFile handle epoch (max rec.committedSeq m.snapshotSeq) t).replaced manifestName
        (manifestCells pk (resumed m epoch (max rec.committedSeq m.snapshotSeq)))) ∧
      ∀ s', I epoch s' → C s' ∧ (∀ name, orphan m.snapshotFile name = true → I epoch (s'.unlinked name)) ∧
        ∀ u, u = reopened mode m base walFile commitFile rec handle r epoch →
          C (Writer.announced s' u.state) ∧ ∀ report, Q (.ok ⟨u,report⟩) st (Writer.announced s' u.state)) :
    Act.ends (Step faults) C (resume pk mode m base walFile scan commitFile rec handle r) Q st s := by
  have rest : ∀ lost s', lost = tailLost walFile r.committedEnd s → s' = cutTail walFile r.committedEnd s →
      Act.ends (Step faults) C (do
        let epoch ← chooseEpoch m lost
        let commit ← stampCommit commitFile handle epoch (max rec.committedSeq m.snapshotSeq)
        writeManifestAtomic pk (resumed m epoch (max rec.committedSeq m.snapshotSeq))
        gcOrphanSnapshots m.snapshotFile
        let w : Writer W := { reopened mode m base walFile commitFile rec handle r epoch with commit := commit }
        publish w.state
        return ⟨w,⟨r.uncommittedTailFrames,if scan.tailTruncated then scan.dropped else 0⟩⟩) Q st s' := by
    rintro _ _ rfl rfl
    refine Act.endsBind (endsChooseEpoch (choosing _ (.inl rfl)).1 (fun epoch t chosen => ⟨(choosing t (.inr ⟨epoch,chosen⟩)).1,?_⟩)
      (fun may k s' left => (choosing s' left).2 may k))
    refine Act.endsBind (endsStampCommit (stamping epoch t chosen) ?_)
    refine Act.endsBind (endsReplace (fun s' way => (replacing epoch t chosen s' way).1) ?_
      (fun may k s' way => (replacing epoch t chosen s' way).2 may k))
    obtain ⟨first,keeps⟩ := kept epoch t chosen
    refine Act.endsBind (endsGc (I := I epoch) first (fun s' now => (keeps s' now).1) (fun s' name now => (keeps s' now).2.1 name)
      (fun s' now => ?_))
    obtain ⟨placed,_,shows⟩ := keeps s' now
    obtain ⟨shown,done⟩ := shows _ rfl
    exact Act.endsBind (endsPublish placed ⟨shown,shown,done _⟩)
  refine Act.endsBind (endsTruncateTail (fun s' way => trimming s' (way.imp_right (fun h => ⟨decide_eq_true h.1,h.2⟩)))
    (fun short => ?_) (fun long => ?_))
  · have whole : tailLost walFile r.committedEnd s = false := decide_eq_false (by omega)
    exact rest false s whole.symm (by rw [cutTail,whole]; rfl)
  · have lost : tailLost walFile r.committedEnd s = true := decide_eq_true long
    exact rest true _ lost.symm (by rw [cutTail,if_pos lost])

theorem endsResume {mode : BaseMode} {m : Manifest} {base : BaseGraph W} {walFile : FileId} {scan : ScanResult W}
    {commitFile : FileId} {rec : CommitRecord} {handle : CommitFile} {r : Replay W} {I : World W → Prop}
    {Q : Except Stop (PersistentGraph W) → σ → World W → Prop}
    (trimming : ∀ s', (s' = s ∨ tailLost walFile r.committedEnd s = true ∧ Trimming walFile r.committedEnd s s') →
      C s' ∧ ((∃ c, faults.fails c ∧ (c.file = some walFile ∨ c = .fsyncDir)) → ∀ k, Q (.error (.err (.io k))) st s'))
    (choosing : ∀ s', (s' = cutTail walFile r.committedEnd s ∨ ∃ epoch, Chosen faults m
        (tailLost walFile r.committedEnd s) (cutTail walFile r.committedEnd s) epoch s') →
      C s' ∧ (faults.fails .mintEpoch → ∀ k, Q (.error (.err (.io k))) st s'))
    (stamping : ∀ epoch t, Chosen faults m (tailLost walFile r.committedEnd s) (cutTail walFile r.committedEnd s) epoch t →
      ∀ s', CommitFile.Marking commitFile handle (handle.stamp epoch (max rec.committedSeq m.snapshotSeq)) t s' →
        C s' ∧ ((∃ c, faults.fails c ∧ c.file = some commitFile) → ∀ k, Q (.error (.err (.io k))) st s'))
    (replacing : ∀ epoch t, Chosen faults m (tailLost walFile r.committedEnd s) (cutTail walFile r.committedEnd s) epoch t →
      ∀ s', (restamped commitFile handle epoch (max rec.committedSeq m.snapshotSeq) t).Replacing manifestName
          (manifestCells pk (resumed m epoch (max rec.committedSeq m.snapshotSeq))) s' →
        C s' ∧ (faults.at (tmpName manifestName) → ∀ k, Q (.error (.err (.io k))) st s'))
    (kept : ∀ epoch t, Chosen faults m (tailLost walFile r.committedEnd s) (cutTail walFile r.committedEnd s) epoch t →
      I ((restamped commitFile handle epoch (max rec.committedSeq m.snapshotSeq) t).replaced manifestName
        (manifestCells pk (resumed m epoch (max rec.committedSeq m.snapshotSeq)))) ∧
      ∀ s', I s' → C s' ∧ (∀ name, orphan m.snapshotFile name = true → I (s'.unlinked name)) ∧
        ∀ u, u = reopened mode m base walFile commitFile rec handle r epoch →
          C (Writer.announced s' u.state) ∧ ∀ report, Q (.ok ⟨u,report⟩) st (Writer.announced s' u.state)) :
    Act.ends (Step faults) C (resume pk mode m base walFile scan commitFile rec handle r) Q st s :=
  endsResumeUnder (I := fun _ => I) trimming choosing stamping replacing kept

/-! Creation. -/
def World.created (s : World W) (name : String) : World W := s.on (s.disk.create name)

/- The file such a creation makes. -/
def World.newest (s : World W) (name : String) : FileId := (name,s.disk.next)

def World.synced (s : World W) (file : FileId) : World W := s.on (s.disk.sync file)

def World.dirSynced (s : World W) : World W := s.on s.disk.syncDir

def firstRecord (epoch : Nat) : CommitRecord := ⟨epoch,0,0⟩

def commitWrote (s : World W) (part : List (Stored W)) : World W :=
  (s.created commitName).on ((s.created commitName).disk.write (s.newest commitName) (.put 0 part))

/- After the snapshot, after the log, after the sidecar. -/
def snapshotLaid (sg : SerializableGraphV2 W) (s : World W) : World W := s.replaced (snapshotV2Name 0 0) [.graph sg]

def logSynced (s : World W) : World W := (s.created walName).synced (s.newest walName)

def logLaid (sg : SerializableGraphV2 W) (s : World W) : World W := (logSynced (snapshotLaid sg s)).dirSynced

def commitSynced (epoch : Nat) (s : World W) : World W :=
  (commitWrote s [.slot (firstRecord epoch)]).synced (s.newest commitName)

def commitLaid (sg : SerializableGraphV2 W) (epoch : Nat) (s : World W) : World W :=
  (commitSynced epoch ((logLaid sg s).minting epoch)).dirSynced

def firstManifest (pk : Packages W) (sg : SerializableGraphV2 W) (epoch : Nat) : Manifest :=
  ⟨currentFormat,snapshotV2Name 0 0,0,pk.codec.graphCrc32 sg,0,epoch,0,false,createdBy,0⟩

def founded (pk : Packages W) (sg : SerializableGraphV2 W) (epoch : Nat) (s : World W) : World W :=
  (commitLaid sg epoch s).replaced manifestName (manifestCells pk (firstManifest pk sg epoch))

/- The states on the way. -/
inductive Founding (faults : Faults W) (pk : Packages W) (sg : SerializableGraphV2 W) (s : World W) : World W → Prop where
  | snapshot {s' : World W} (way : s.Replacing (snapshotV2Name 0 0) [.graph sg] s') : Founding faults pk sg s s'
  | log : Founding faults pk sg s ((snapshotLaid sg s).created walName)
  | logSynced : Founding faults pk sg s (logSynced (snapshotLaid sg s))
  | logLaid : Founding faults pk sg s (logLaid sg s)
  | minted {epoch : Nat} (fresh : faults.fresh → epoch ∉ s.minted) : Founding faults pk sg s ((logLaid sg s).minting epoch)
  | commit {epoch : Nat} (fresh : faults.fresh → epoch ∉ s.minted) :
      Founding faults pk sg s (((logLaid sg s).minting epoch).created commitName)
  | commitWrote {epoch : Nat} {part : List (Stored W)} (fresh : faults.fresh → epoch ∉ s.minted)
      (tears : Part [.slot (firstRecord epoch)] part) :
      Founding faults pk sg s (commitWrote ((logLaid sg s).minting epoch) part)
  | commitSynced {epoch : Nat} (fresh : faults.fresh → epoch ∉ s.minted) :
      Founding faults pk sg s (commitSynced epoch ((logLaid sg s).minting epoch))
  | commitLaid {epoch : Nat} (fresh : faults.fresh → epoch ∉ s.minted) : Founding faults pk sg s (commitLaid sg epoch s)
  | manifest {epoch : Nat} {s' : World W} (fresh : faults.fresh → epoch ∉ s.minted)
      (way : (commitLaid sg epoch s).Replacing manifestName (manifestCells pk (firstManifest pk sg epoch)) s') :
      Founding faults pk sg s s'

def firstWriter (pk : Packages W) (g : OrpheusGraphInner W) (sg : SerializableGraphV2 W) (walFile commitFile : FileId)
    (epoch : Nat) : Writer W where
  wal := .new walFile .onFlush 0
  commitFile := commitFile
  commit := CommitFile.created
  seq := 0
  durableSeq := 0
  epoch := epoch
  base := .owned g
  delta := .new
  snapshotSeq := 0
  snapshotFile := snapshotV2Name 0 0
  snapshotCrc32 := pk.codec.graphCrc32 sg
  formatVersion := currentFormat
  compactionId := 0
  deltaOps := 0
  autoCompactOverride := none
  mode := .mmap

theorem endsCreateCommit {epoch : Nat} {Q : Except Stop (FileId × CommitFile) → σ → World W → Prop}
    (onTheWay : ∀ s', (s' = s ∨ s' = s.created commitName ∨
        (∃ part, Part [.slot (firstRecord epoch)] part ∧ s' = commitWrote s part) ∨
        s' = commitSynced epoch s ∨ s' = (commitSynced epoch s).dirSynced) →
      C s' ∧ ∀ k, Q (.error (.err (.io k))) st s')
    (done : Q (.ok (s.newest commitName,CommitFile.created)) st (commitSynced epoch s).dirSynced) :
    Act.ends (Step faults) C (CommitFile.create epoch 0) Q st s := by
  have now := onTheWay _ (.inl rfl)
  have made := onTheWay _ (.inr (.inl rfl))
  have parts := fun part tears => onTheWay _ (.inr (.inr (.inl ⟨part,tears,rfl⟩)))
  have whole := parts _ (partWhole _)
  have synced := onTheWay _ (.inr (.inr (.inr (.inl rfl))))
  have laid := onTheWay _ (.inr (.inr (.inr (.inr rfl))))
  refine Act.endsBind (endsPlain (c := .create commitName) (v := s.newest commitName) (fun _ _ h => h) (by simp) now.1
    made.1 ?_ (fun may k s' member => ?_))
  · refine Act.endsBind (endsPlain (c := .seek (s.newest commitName) 0) (v := ()) (t := s.created commitName)
      (fun _ _ h => h) (by simp) made.1 made.1 ?_ (fun may k s' member => ?_))
    · refine Act.endsBind (endsWriteAt made.1 (fun part tears => (parts part tears).1) ?_
        (fun may k => ⟨made.2 k,fun part tears => (parts part tears).2 k⟩))
      refine Act.endsBind (endsPlain (c := .syncAll (s.newest commitName)) (v := ()) (fun _ _ h => h) (by simp) whole.1
        synced.1 ?_ (fun may k s' member => ?_))
      · refine Act.endsBind (endsPlain (c := .fsyncDir) (v := ()) (fun _ _ h => h) (by simp) synced.1 laid.1
          ⟨laid.1,done⟩ (fun may k s' member => ?_))
        rcases List.mem_pair.mp member with rfl | rfl
        · exact synced.2 k
        · exact laid.2 k
      · rcases List.mem_pair.mp member with rfl | rfl
        · exact whole.2 k
        · exact synced.2 k
    · rcases List.mem_pair.mp member with rfl | rfl <;> exact made.2 k
  · rcases List.mem_pair.mp member with rfl | rfl
    · exact now.2 k
    · exact made.2 k

/- The log that a creation opens at its end is the one it made. -/
theorem foundedLog (pk : Packages W) (sg : SerializableGraphV2 W) (epoch : Nat) (s : World W) :
    (founded pk sg epoch s).disk.dir walName = some ((snapshotLaid sg s).newest walName) := by
  have manifest : walName ≠ manifestName ∧ walName ≠ tmpName manifestName ∧ walName ≠ commitName := by decide
  have later : (founded pk sg epoch s).disk.dir walName = (commitLaid sg epoch s).disk.dir walName := by
    change ((commitLaid sg epoch s).disk.replaced _ _ _).dir walName = _
    rw [Disk.replacedDir,if_neg manifest.1,if_neg manifest.2.1]
  have sidecar : (commitLaid sg epoch s).disk.dir walName = (logLaid sg s).disk.dir walName := by
    change ((logLaid sg s).disk.create commitName).dir walName = _
    rw [Disk.createDir,if_neg manifest.2.2]
  rw [later,sidecar]
  change ((snapshotLaid sg s).disk.create walName).dir walName = _
  rw [Disk.createDir,if_pos rfl]
  rfl

theorem endsCreateStore [TotalCmp W] {g : OrpheusGraphInner W} {Q : Except Stop (PersistentGraph W) → σ → World W → Prop}
    (now : C s) (refused : ∀ e, Q (.error e) st s)
    (onTheWay : ∀ sg, archive g = some sg → s.disk.dir manifestName = none → ∀ s', Founding faults pk sg s s' →
      C s' ∧ ∀ k, Q (.error (.err (.io k))) st s')
    (done : ∀ sg epoch, archive g = some sg → s.disk.dir manifestName = none → (faults.fresh → epoch ∉ s.minted) →
      ∀ u, u = firstWriter pk g sg ((snapshotLaid sg s).newest walName)
          (((logLaid sg s).minting epoch).newest commitName) epoch →
        C (Writer.announced (founded pk sg epoch s) u.state) ∧
          ∀ report, Q (.ok ⟨u,report⟩) st (Writer.announced (founded pk sg epoch s) u.state)) :
    Act.ends (Step faults) C (createStore pk g) Q st s := by
  refine Act.endsBind (endsReading now (fun _ _ h => h.2) (by simp) (fun r worked => ?_) (fun _ k => refused _))
  obtain ⟨rfl,_⟩ := worked
  refine Act.endsBind (endsReading now (fun _ _ h => h.2) (by simp) (fun r worked => ?_) (fun _ k => refused _))
  obtain ⟨rfl,_⟩ := worked
  refine Act.endsBind (endsExists now ?_)
  change Act.ends (Step faults) C (if (s.disk.dir manifestName).isSome = true then _ else _) Q st s
  split
  · exact ⟨now,refused _⟩
  have absent : s.disk.dir manifestName = none := by simpa using ‹¬(s.disk.dir manifestName).isSome = true›
  unfold serialize
  cases fits : archive g with
  | none => exact ⟨now,refused _⟩
  | some sg =>
    have way : ∀ {s'}, Founding faults pk sg s s' → C s' ∧ ∀ k, Q (.error (.err (.io k))) st s' :=
      fun f => onTheWay sg fits absent _ f
    have two : ∀ {a b s' : World W}, Founding faults pk sg s a → Founding faults pk sg s b → s' ∈ [a,b] →
        ∀ k, Q (.error (.err (.io k))) st s' := by
      intro a b s' first second member k
      rcases List.mem_pair.mp member with rfl | rfl
      · exact (way first).2 k
      · exact (way second).2 k
    have laid : Founding faults pk sg s (snapshotLaid sg s) := .snapshot ⟨_,.replaced,rfl⟩
    rw [Act.endsPureBind]
    refine Act.endsBind (endsReplace (fun s' r => (way (.snapshot r)).1) ?_ (fun _ k s' r => (way (.snapshot r)).2 k))
    refine Act.endsBind (endsPlain (c := .create walName) (v := (snapshotLaid sg s).newest walName) (fun _ _ h => h)
      (by simp) (way laid).1 (way .log).1 ?_ (fun may k s' member => two laid .log member k))
    refine Act.endsBind (endsPlain (c := .syncAll ((snapshotLaid sg s).newest walName)) (v := ()) (fun _ _ h => h)
      (by simp) (way .log).1 (way .logSynced).1 ?_ (fun may k s' member => two .log .logSynced member k))
    refine Act.endsBind (endsPlain (c := .fsyncDir) (v := ()) (fun _ _ h => h) (by simp) (way .logSynced).1
      (way .logLaid).1 ?_ (fun may k s' member => two .logSynced .logLaid member k))
    refine Act.endsBind (endsMint (way .logLaid).1 (fun epoch fresh => ⟨(way (.minted fresh)).1,?_⟩) (fun may k s' left => ?_))
    · refine Act.endsBind (endsCreateCommit (fun s' left => ?_) ?_)
      · rcases left with rfl | rfl | ⟨part,tears,rfl⟩ | rfl | rfl
        · exact way (.minted fresh)
        · exact way (.commit fresh)
        · exact way (.commitWrote fresh tears)
        · exact way (.commitSynced fresh)
        · exact way (.commitLaid fresh)
      · refine Act.endsBind (endsReplace (fun s' r => (way (.manifest fresh r)).1) ?_
          (fun _ k s' r => (way (.manifest fresh r)).2 k))
        have last : Founding faults pk sg s (founded pk sg epoch s) := .manifest fresh ⟨_,.replaced,rfl⟩
        refine Act.endsBind (endsReading (way last).1 (fun _ _ h => h.2) (by simp) (fun r worked => ?_)
          (fun _ k => (way last).2 k))
        obtain rfl : r = .ok ((snapshotLaid sg s).newest walName) := worked.1.trans
          (congrArg (fun o : Option FileId => (o.elim (.error .notFound) .ok : Except IoKind FileId)) (foundedLog pk sg epoch s))
        obtain ⟨shown,ends⟩ := done sg epoch fits absent fresh _ rfl
        exact Act.endsBind (endsPublish (way last).1 ⟨shown,shown,ends _⟩)
    · rcases left with rfl | ⟨epoch,fresh,rfl⟩
      · exact (way .logLaid).2 k
      · exact (way (.minted fresh)).2 k

theorem endsOpenStore [Arith W] [TotalCmp W] {create : Bool} {mode : BaseMode} {validate : Validation}
    {Q : Except Stop (PersistentGraph W) → σ → World W → Prop} (now : C s)
    (refused : s.disk.dir manifestName = none → ∀ e, Q (.error e) st s)
    (existing : (s.disk.dir manifestName).isSome = true → ∀ v : Validation,
      Act.ends (Step faults) C (openExisting pk mode v) Q st s)
    (creates : s.disk.dir manifestName = none → Act.ends (Step faults) C (createStore pk (emptyInner pk)) Q st s) :
    Act.ends (Step faults) C (openStore pk create mode validate) Q st s := by
  refine Act.endsBind (endsExists now ?_)
  rw [Act.onward]
  split
  · exact existing (by assumption) _
  have absent : s.disk.dir manifestName = none := by simpa using ‹¬(s.disk.dir manifestName).isSome = true›
  split
  · exact creates absent
  · exact ⟨now,refused absent _⟩

end OrpheusGraph
