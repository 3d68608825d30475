import OrpheusGraph.Files
import OrpheusGraph.Recovery
import OrpheusGraph.Written
import OrpheusGraph.Fold

/-! The persistent graph: one writer over the log, the sidecar, the MANIFEST and the
snapshots; create, open, apply, compact, flush and close. -/
namespace OrpheusGraph
open Storage Effects
variable {W σ α : Type}

inductive BaseMode where
  | owned
  | mmap
  deriving DecidableEq, Repr

inductive Validation where
  | full
  | crc
  | none
  deriving DecidableEq, Repr

namespace BaseGraph

def asAccessor (pk : Packages W) : BaseGraph W → GraphAccessor W
  | .owned g => g.accessor pk.adjacency
  | .archived sg => sg.archivedCsrView fnv1a

def nodeNames (pk : Packages W) : BaseGraph W → List String
  | .owned g => pk.keys.arrange g.indexMap.keys
  | .archived sg => sg.nodeNames

end BaseGraph

def checkCrc (pk : Packages W) (sg : SerializableGraphV2 W) (expected : UInt32) : Except PersistError Unit :=
  let computed := pk.codec.graphCrc32 sg
  if computed ≠ expected then
    .error (.corrupt s!"V2 snapshot crc mismatch: computed {computed}, expected {expected}")
  else .ok ()

def validateV2 (pk : Packages W) (mode : Validation) (sg : SerializableGraphV2 W) (expected : UInt32) :
    Except PersistError Unit :=
  match mode with
  | .none => .ok ()
  | .crc => checkCrc pk sg expected
  | .full => do
    checkCrc pk sg expected
    match sg.validateCsr pk.debug fnv1a with
    | .ok _ => .ok ()
    | .error msg => .error (.corrupt msg)

/- A file that is not one whole archive does not pass the structural check. -/
def openSnapshot (pk : Packages W) (name : String) (mode : BaseMode) (validate : Validation)
    (expected : UInt32) : Io W σ (BaseGraph W) := do
  match ← io (.read name) with
  | [.graph sg] => match validateV2 pk validate sg expected with
    | .error e => refuse e
    | .ok _ => match mode with
      | .owned => return .owned (fromRkyvRebuildV2 sg)
      | .mmap => return .archived sg
  | _ => refuse (.corrupt "V2 rkyv structural validation failed")

/- The graph package numbers nodes and edges in a u32 and panics when they run out. -/
def OrpheusGraphInner.Fits (g : OrpheusGraphInner W) : Prop :=
  g.graph.nodes.length ≤ u32Max ∧ g.graph.edges.length ≤ u32Max

instance (g : OrpheusGraphInner W) : Decidable g.Fits := inferInstanceAs (Decidable (_ ∧ _))

def archive [TotalCmp W] (g : OrpheusGraphInner W) : Option (SerializableGraphV2 W) :=
  if g.Fits then toRkyvV2 fnv1a g else none

def serialize [TotalCmp W] (g : OrpheusGraphInner W) : Io W σ (SerializableGraphV2 W) :=
  match archive g with
  | some sg => return sg
  | none => Act.fail .panicked

structure RecoveryReport where
  uncommittedTailFrames : Nat
  tornTailFrames : Nat
  deriving DecidableEq, Repr

structure Writer (W : Type) where
  wal : WalWriter
  commitFile : FileId
  commit : CommitFile
  seq : Nat
  durableSeq : Nat
  epoch : Nat
  base : BaseGraph W
  delta : GraphDelta W
  snapshotSeq : Nat
  snapshotFile : String
  snapshotCrc32 : UInt32
  formatVersion : Nat
  compactionId : Nat
  deltaOps : Nat
  autoCompactOverride : Option Nat
  mode : BaseMode

namespace Writer

def state (w : Writer W) : GraphState W := ⟨w.base,w.delta,w.seq,w.epoch⟩

def onWal (p : Io W WalWriter α) : Io W (Writer W) α := Act.within Writer.wal (fun wal w => { w with wal := wal }) p

def onCommit (p : Io W CommitFile α) : Io W (Writer W) α :=
  Act.within Writer.commit (fun commit w => { w with commit := commit }) p

/- Any failure here poisons the log writer. -/
def advanceCommit (committedSeq : Nat) : Io W (Writer W) Unit := do
  let w ← Act.get
  match ← Act.attempt (onCommit (CommitFile.advance w.commitFile w.epoch committedSeq)) with
  | .error e => do
    Act.modify (fun w => { w with wal := { w.wal with poisoned := true } })
    Act.fail e
  | .ok _ => Act.modify (fun w => { w with durableSeq := committedSeq })

def buildManifest (w : Writer W) (cleanShutdown : Bool) : Manifest where
  formatVersion := w.formatVersion
  snapshotFile := w.snapshotFile
  snapshotSeq := w.snapshotSeq
  snapshotCrc32 := w.snapshotCrc32
  compactionId := w.compactionId
  epoch := w.epoch
  highSeq := w.durableSeq
  cleanShutdown := cleanShutdown
  createdBy := createdBy
  checksum := 0

end Writer

/- The handle, and what opening it recovered. -/
structure PersistentGraph (W : Type) where
  writer : Writer W
  recovery : RecoveryReport

def autoCompactThreshold (baseNodeCount : Nat) : Nat := max 1000 (baseNodeCount / 10)

/-! Garbage collection. -/
def removeSnapshotFile (name : String) : Io W σ Unit := do
  let _ ← tryIo (.removeFile name)

def orphan (keep name : String) : Bool :=
  name != keep && (name.startsWith "snapshot-" && (name.endsWith ".og" || name.endsWith ".og.tmp") ||
    name == tmpName manifestName)

def removeOrphans (keep : String) : List String → Io W σ Unit
  | [] => return
  | name::names => do
    if orphan keep name then removeSnapshotFile name
    removeOrphans keep names

def gcOrphanSnapshots (keep : String) : Io W σ Unit := do
  match ← tryIo .readDir with
  | .error _ => return
  | .ok names => removeOrphans keep names

/-! Creation and recovery. -/
section lifecycle
variable [Arith W] [TotalCmp W]

def clobber (pk : Packages W) : PersistError := .corrupt s!"refusing to clobber existing store at {pk.dir}"

def createStore (pk : Packages W) (baseGraph : OrpheusGraphInner W) : Io W σ (PersistentGraph W) := do
  io .createDirAll
  io .lock
  if ← exists_ manifestName then refuse (clobber pk)
  else
    let sg ← serialize baseGraph
    let crc := pk.codec.graphCrc32 sg
    let snapshotFile := snapshotV2Name 0 0
    writeFileAtomic snapshotFile [.graph sg]
    let log ← io (.create walName)
    io (.syncAll log)
    io .fsyncDir
    let epoch ← io .mintEpoch
    let (commitFile,commit) ← CommitFile.create epoch 0
    writeManifestAtomic pk ⟨currentFormat,snapshotFile,0,crc,0,epoch,0,false,createdBy,0⟩
    let walFile ← io (.openAppend walName)
    let w : Writer W := {
      wal := .new walFile .onFlush 0
      commitFile := commitFile
      commit := commit
      seq := 0
      durableSeq := 0
      epoch := epoch
      base := .owned baseGraph
      delta := .new
      snapshotSeq := 0
      snapshotFile := snapshotFile
      snapshotCrc32 := crc
      formatVersion := currentFormat
      compactionId := 0
      deltaOps := 0
      autoCompactOverride := none
      mode := .mmap }
    publish w.state
    return ⟨w,⟨0,0⟩⟩

def legacy (version : Nat) : PersistError := .corrupt
  s!"legacy store format_version {version} is no longer supported (recreate the store; current format is {currentFormat})"

def openBase (pk : Packages W) (m : Manifest) (mode : BaseMode) (validate : Validation) : Io W σ (BaseGraph W) :=
  if m.formatVersion > currentFormat then refuse (.unsupportedVersion m.formatVersion currentFormat)
  else if m.formatVersion ≤ 2 then refuse (legacy m.formatVersion)
  else if m.formatVersion = 3 then openSnapshot pk m.snapshotFile mode validate m.snapshotCrc32
  else refuse (.unsupportedVersion m.formatVersion currentFormat)

def openLog (pk : Packages W) : Io W σ FileId := do
  match ← tryIo (.openAppend walName) with
  | .error .notFound => refuse (.corrupt s!"MANIFEST present but wal.log missing at {pk.path walName}")
  | .error k => refuse (.io k)
  | .ok file => return file

def truncateTail (file : FileId) (committedEnd : Nat) : Io W σ Bool := do
  let fileLen : Nat ← io (.len file)
  if fileLen > committedEnd then
    io (.setLen file committedEnd)
    io (.syncAll file)
    io .fsyncDir
    return true
  else return false

def chooseEpoch (m : Manifest) (truncated : Bool) : Io W σ Nat :=
  if truncated || !m.cleanShutdown then io .mintEpoch else return m.epoch

/- The sidecar is stamped before there is a writer to poison. -/
def stampCommit (file : FileId) (handle : CommitFile) (epoch committedSeq : Nat) : Io W σ CommitFile :=
  Act.within (fun _ => handle) (fun _ st => st) (do
    CommitFile.advance file epoch committedSeq
    Act.get)

def openExisting (pk : Packages W) (mode : BaseMode) (validate : Validation) : Io W σ (PersistentGraph W) := do
  io .lock
  let m ← readManifest pk
  let base ← openBase pk m mode validate
  let walFile ← openLog pk
  let scan ← readAndScan pk walFile
  let (commitFile,rec,handle) ← CommitFile.open_ pk
  let commitHw := max rec.committedSeq m.snapshotSeq
  match recover pk.codec (base.asAccessor pk) m.snapshotSeq rec.committedSeq m.highSeq scan with
  | .error e => refuse e
  | .ok r =>
    let truncated ← truncateTail walFile r.committedEnd
    let epoch ← chooseEpoch m truncated
    let commit ← stampCommit commitFile handle epoch commitHw
    writeManifestAtomic pk { m with
      epoch := epoch
      highSeq := commitHw
      cleanShutdown := false
      checksum := 0 }
    gcOrphanSnapshots m.snapshotFile
    let w : Writer W := {
      wal := .new walFile .onFlush r.committedEnd
      commitFile := commitFile
      commit := commit
      seq := r.lastApplied
      durableSeq := commitHw
      epoch := epoch
      base := base
      delta := r.delta
      snapshotSeq := m.snapshotSeq
      snapshotFile := m.snapshotFile
      snapshotCrc32 := m.snapshotCrc32
      formatVersion := m.formatVersion
      compactionId := m.compactionId
      deltaOps := 0
      autoCompactOverride := none
      mode := mode }
    publish w.state
    return ⟨w,⟨r.uncommittedTailFrames,if scan.tailTruncated then scan.dropped else 0⟩⟩

def emptyInner (pk : Packages W) : OrpheusGraphInner W := buildGraph pk.adjacency [] []

/- A public open never skips the checks. -/
def openStore (pk : Packages W) (create : Bool) (mode : BaseMode) (validate : Validation) :
    Io W σ (PersistentGraph W) := do
  let validate := if validate = .none then .crc else validate
  if ← exists_ manifestName then openExisting pk mode validate
  else if create then createStore pk (emptyInner pk)
  else refuse .notFound

/-! The live handle. -/
namespace Writer

def fold (pk : Packages W) (w : Writer W) : OrpheusGraphInner W :=
  foldBase pk.adjacency (w.base.asAccessor pk) (w.base.nodeNames pk) w.delta

def foldManifest (pk : Packages W) (w : Writer W) (sg : SerializableGraphV2 W) : Manifest :=
  ⟨currentFormat,snapshotV2Name w.seq (w.compactionId + 1),w.seq,pk.codec.graphCrc32 sg,
    w.compactionId + 1,w.epoch,w.seq,false,createdBy,0⟩

def reload (pk : Packages W) (w : Writer W) (m : Manifest) : Io W σ (BaseGraph W) :=
  match w.mode with
  | .owned => return .owned (w.fold pk)
  | .mmap => openSnapshot pk m.snapshotFile .mmap .none m.snapshotCrc32

def compactLocked (pk : Packages W) : Io W (Writer W) Unit := do
  let w ← Act.get
  if w.delta.isEmpty then Act.modify (fun w => { w with deltaOps := 0 })
  else
    let sg ← serialize (w.fold pk)
    let m := w.foldManifest pk sg
    writeFileAtomic m.snapshotFile [.graph sg]
    writeManifestAtomic pk m
    Act.modify (fun w => { w with
      snapshotSeq := m.snapshotSeq
      snapshotFile := m.snapshotFile
      snapshotCrc32 := m.snapshotCrc32
      formatVersion := currentFormat
      compactionId := m.compactionId })
    advanceCommit (max w.durableSeq w.seq)
    onWal WalWriter.truncate
    let base ← w.reload pk m
    Act.modify (fun w => { w with base := base, delta := .new, deltaOps := 0 })
    publish ⟨base,.new,w.seq,w.epoch⟩
    if w.snapshotFile ≠ m.snapshotFile then removeSnapshotFile w.snapshotFile

def checkSeq (w : Writer W) : Option Nat → Except PersistError Unit
  | none => .ok ()
  | some e => if e ≠ w.seq then .error (.conflict e w.seq) else .ok ()

/- The checks of a batch, before anything is written: what it makes of the delta, and its frame. -/
def prepare (pk : Packages W) (w : Writer W) (ops : List (Op W)) (expectedSeq : Option Nat) :
    Except PersistError (GraphDelta W × Bytes) :=
  if w.wal.poisoned then .error .poisoned
  else match w.checkSeq expectedSeq with
    | .error e => .error e
    | .ok _ => match w.delta.apply (w.base.asAccessor pk) ops with
      | .error e => .error (.delta e)
      | .ok d => match encodeFrame pk.codec ⟨w.seq + 1,ops⟩ with
        | .error e => .error e
        | .ok frame => .ok (d,frame)

def threshold (pk : Packages W) (w : Writer W) : Nat :=
  w.autoCompactOverride.getD (autoCompactThreshold (w.base.asAccessor pk).nodeCount)

/- The batch stays accepted when its compaction fails. -/
def autoCompact (pk : Packages W) : Io W (Writer W) Unit := do
  let w ← Act.get
  if w.deltaOps > w.threshold pk then
    match ← Act.attempt (compactLocked pk) with
    | .ok _ => return
    | .error .panicked => Act.fail .panicked
    | .error (.err _) => Act.modify (fun w => { w with deltaOps := 0 })
  else return

def apply (pk : Packages W) (ops : List (Op W)) (expectedSeq : Option Nat) : Io W (Writer W) Nat := do
  let w ← Act.get
  match w.prepare pk ops expectedSeq with
  | .error e => refuse e
  | .ok (d,frame) =>
    let fsynced ← onWal (WalWriter.append frame)
    if fsynced then advanceCommit (w.seq + 1)
    Act.modify (fun w => { w with
      seq := w.seq + 1
      deltaOps := w.deltaOps + ops.length
      delta := d })
    publish ⟨w.base,d,w.seq + 1,w.epoch⟩
    autoCompact pk
    return w.seq + 1

def compact (pk : Packages W) : Io W (Writer W) Unit := do
  let w ← Act.get
  if w.wal.poisoned then refuse .poisoned else compactLocked pk

def sealLog : Io W (Writer W) Unit := do
  let w ← Act.get
  onWal WalWriter.flush
  advanceCommit w.seq

def flush : Io W (Writer W) Unit := do
  let w ← Act.get
  if w.wal.poisoned then refuse .poisoned else sealLog

def closeWith (pk : Packages W) (cleanShutdown : Bool) : Io W (Writer W) Unit := do
  let w ← Act.get
  writeManifestAtomic pk (w.buildManifest cleanShutdown)

def close (pk : Packages W) : Io W (Writer W) Unit := do
  let w ← Act.get
  if w.wal.poisoned then
    closeWith pk false
    refuse .poisoned
  else match ← Act.attempt sealLog with
    | .ok _ => closeWith pk true
    | .error _ => do
      closeWith pk false
      refuse .poisoned

def setFsyncPolicy (policy : FsyncPolicy) (w : Writer W) : Writer W := { w with wal := { w.wal with policy := policy } }

def setAutoCompactThreshold (threshold : Option Nat) (w : Writer W) : Writer W :=
  { w with autoCompactOverride := threshold }

end Writer
end lifecycle
end OrpheusGraph
