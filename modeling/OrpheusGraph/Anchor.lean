import OrpheusGraph.Life
import OrpheusGraph.Lib.Durable

/-! The snapshot that the MANIFEST names: every step of every operation keeps it, whatever
fails, and so does a power loss. -/
namespace OrpheusGraph
open Storage Effects
variable {W σ : Type} {st : σ} {pk : Packages W} {faults : Faults W}

/-! The names are apart from each other. -/
theorem tmpNameApart {n other : String} (last : other.toList.getLast? ≠ some 'p') : tmpName n ≠ other := by
  rintro rfl
  apply last
  rw [tmpName,String.toList_append,show (".tmp" : String).toList = ['.','t','m'] ++ ['p'] from rfl,
    ← List.append_assoc]
  exact List.getLast?_concat

theorem snapshotNameEnds (seq cid : Nat) : (snapshotV2Name seq cid).toList.getLast? = some 'g' := by
  rw [snapshotV2Name,String.toList_append,show (".og" : String).toList = ['.','o'] ++ ['g'] from rfl,
    ← List.append_assoc]
  exact List.getLast?_concat

theorem snapshotNameStarts (seq cid : Nat) : (snapshotV2Name seq cid).toList.head? = some 's' := by
  simp only [snapshotV2Name,String.toList_append,List.append_assoc]
  rfl

theorem snapshotNameApart {seq cid : Nat} {other : String} (first : other.toList.head? ≠ some 's') :
    snapshotV2Name seq cid ≠ other := by
  rintro rfl
  exact first (snapshotNameStarts seq cid)

theorem snapshotNotManifest (seq cid : Nat) : snapshotV2Name seq cid ≠ manifestName := snapshotNameApart (by decide)

theorem snapshotNotTmp (seq cid : Nat) (n : String) : snapshotV2Name seq cid ≠ tmpName n :=
  (tmpNameApart (by rw [snapshotNameEnds]; decide)).symm

theorem orphanApart {keep name : String} (strayed : orphan keep name = true) : name ≠ keep ∧ name ≠ manifestName := by
  rw [orphan,Bool.and_eq_true,bne_iff_ne] at strayed
  refine ⟨strayed.1,?_⟩
  rintro rfl
  exact absurd strayed.2 (by decide +kernel)

/-! The file that a MANIFEST names. -/
abbrev StoreDisk (W : Type) := Disk String (Stored W)

def Archived (d : StoreDisk W) (name : String) (sg : SerializableGraphV2 W) : Prop :=
  d.Solid (tmpName name) name (fun o => o = some [.graph sg])

/- `P` is what is known of the sequence number, the compaction and the archive. -/
structure Points (pk : Packages W) (P : Nat → Nat → SerializableGraphV2 W → Prop) (d : StoreDisk W) (m : Manifest)
    (sg : SerializableGraphV2 W) : Prop where
  named : m.snapshotFile = snapshotV2Name m.snapshotSeq m.compactionId
  crc : pk.codec.graphCrc32 sg = m.snapshotCrc32
  archived : Archived d m.snapshotFile sg
  holds : P m.snapshotSeq m.compactionId sg

def Names (pk : Packages W) (P : Nat → Nat → SerializableGraphV2 W → Prop) (d : StoreDisk W)
    (o : Option (List (Stored W))) : Prop :=
  ∀ cells, o = some cells → ∃ m sg, cells = manifestCells pk m ∧ Points pk P d m sg

/- Whatever a power loss leaves, a MANIFEST that is there names an archive that is there. -/
structure Anchored (pk : Packages W) (P : Nat → Nat → SerializableGraphV2 W → Prop) (d : StoreDisk W) : Prop where
  log : ∀ i, d.MayBind walName (some i) → i.1 = walName
  sidecar : ∀ i, d.MayBind commitName (some i) → i.1 = commitName
  founded : d.dir manifestName = none → ∀ i, ¬d.MayBind manifestName (some i)
  manifest : d.Solid (tmpName manifestName) manifestName (Names pk P d)

variable {P P' : Nat → Nat → SerializableGraphV2 W → Prop} {d d' : StoreDisk W} {sg sg' : SerializableGraphV2 W}

theorem archivedRead {name : String} (a : Archived d name sg) : d.read name = some [.graph sg] := a.read

theorem archivedUnique {name : String} (a : Archived d name sg) (b : Archived d name sg') : sg = sg' := by
  have same := (archivedRead a).symm.trans (archivedRead b)
  simpa using same

theorem Points.carry {m : Manifest} (p : Points pk P d m sg) (archived : Archived d' m.snapshotFile sg)
    (holds : P' m.snapshotSeq m.compactionId sg) : Points pk P' d' m sg := ⟨p.named,p.crc,archived,holds⟩

theorem Names.carry {o : Option (List (Stored W))} (n : Names pk P d o)
    (kept : ∀ m sg, Points pk P d m sg → Archived d' m.snapshotFile sg ∧ P' m.snapshotSeq m.compactionId sg) :
    Names pk P' d' o := by
  intro cells some
  obtain ⟨m,sg,same,points⟩ := n cells some
  exact ⟨m,sg,same,points.carry (kept m sg points).1 (kept m sg points).2⟩

theorem Anchored.mono (a : Anchored pk P d) (imp : ∀ seq cid sg, P seq cid sg → P' seq cid sg) : Anchored pk P' d :=
  ⟨a.log,a.sidecar,a.founded,a.manifest.mono (fun _ n => n.carry (fun _ _ p => ⟨p.archived,imp _ _ _ p.holds⟩))⟩

/- What is done to the log and the sidecar. -/
theorem Anchored.setFile (a : Anchored pk P d) {i : FileId} (f : File (Stored W)) (apart : ∀ n, i.1 ≠ tmpName n) :
    Anchored pk P (d.setFile i f) :=
  ⟨a.log,a.sidecar,a.founded,(a.manifest.setFile f (apart _)).mono
    (fun _ n => n.carry (fun _ _ p => ⟨p.archived.setFile f (apart _),p.holds⟩))⟩

theorem Anchored.create (a : Anchored pk P d) {name : String} (which : name = walName ∨ name = commitName) :
    Anchored pk P (d.create name) := by
  have apart : manifestName ≠ name ∧ ∀ seq cid, snapshotV2Name seq cid ≠ name := by
    rcases which with rfl | rfl <;> exact ⟨by decide,fun _ _ => snapshotNameApart (by decide)⟩
  refine ⟨fun i bound => ?_,fun i bound => ?_,fun absent i bound => ?_,(a.manifest.create apart.1).mono
    (fun _ n => n.carry (fun m _ p => ⟨p.archived.create (p.named ▸ apart.2 _ _),p.holds⟩))⟩
  · rcases Disk.createBinds.mp bound with old | ⟨same,new⟩
    · exact a.log i old
    · rw [Option.some.inj new,same]
  · rcases Disk.createBinds.mp bound with old | ⟨same,new⟩
    · exact a.sidecar i old
    · rw [Option.some.inj new,same]
  · rw [Disk.createDir,if_neg apart.1] at absent
    exact a.founded absent i ((Disk.createBinds.mp bound).resolve_right (fun h => apart.1 h.1))

theorem Anchored.syncDir (a : Anchored pk P d) : Anchored pk P d.syncDir := by
  have old : ∀ {n o}, d.syncDir.MayBind n o → d.MayBind n o := fun bound =>
    Disk.syncDirBinds.mp bound ▸ Disk.mayBindDir d _
  exact ⟨fun i bound => a.log i (old bound),fun i bound => a.sidecar i (old bound),
    fun absent i bound => a.founded absent i (old bound),
    a.manifest.syncDir.mono (fun _ n => n.carry (fun _ _ p => ⟨p.archived.syncDir,p.holds⟩))⟩

theorem Anchored.unlink (a : Anchored pk P d) {name : String} (other : name ≠ manifestName)
    (unnamed : ∀ seq cid sg, P seq cid sg → snapshotV2Name seq cid ≠ name) : Anchored pk P (d.change (.unlink name)) := by
  have old : ∀ {n i}, (d.change (.unlink name)).MayBind n (some i) → d.MayBind n (some i) := by
    intro n i bound
    rcases Disk.changeBinds.mp bound with old | sets
    · exact old
    · rw [Entry.sets] at sets
      split at sets <;> cases sets
  have apart : ∀ {n : String}, n ≠ name → (Entry.unlink (N := String) name).sets n = none := fun h => if_neg h
  refine ⟨fun i bound => a.log i (old bound),fun i bound => a.sidecar i (old bound),fun absent i bound => ?_,
    (a.manifest.change (apart other.symm)).mono (fun _ n => n.carry (fun _ _ p =>
      ⟨p.archived.change (apart (p.named ▸ unnamed _ _ _ p.holds)),p.holds⟩))⟩
  rw [Disk.changeDir,apart other.symm] at absent
  exact a.founded absent i (old bound)

theorem Anchored.powerLoss (a : Anchored pk P d) (loss : d.PowerLoss d') : Anchored pk P d' := by
  refine ⟨fun i bound => a.log i (loss.binds bound),fun i bound => a.sidecar i (loss.binds bound),
    fun absent i bound => ?_,(a.manifest.powerLoss loss).mono (fun _ n => n.carry (fun _ _ p =>
      ⟨p.archived.powerLoss loss,p.holds⟩))⟩
  have settled : some i = d'.dir manifestName := by
    rcases bound with same | ⟨x,member,_⟩
    · rw [same,Disk.dir,loss.settled]
      rfl
    · rw [loss.settled] at member
      contradiction
  rw [absent] at settled
  contradiction

/- While a snapshot is written: one that a MANIFEST names already gets the same contents again. -/
theorem Anchored.snapshot (a : Anchored pk P d) {seq cid : Nat}
    (way : Disk.Replacing (tmpName (snapshotV2Name seq cid)) (snapshotV2Name seq cid) [.graph sg] d d')
    (same : ∀ sg', P seq cid sg' → sg' = sg) : Anchored pk P d' := by
  have old : ∀ {n o}, n ≠ tmpName (snapshotV2Name seq cid) → n ≠ snapshotV2Name seq cid → d'.MayBind n o → d.MayBind n o :=
    fun tmp dst bound => (Disk.replacingBinds way tmp bound).resolve_right (fun h => dst h.1)
  have wal : walName ≠ tmpName (snapshotV2Name seq cid) ∧ walName ≠ snapshotV2Name seq cid :=
    ⟨(tmpNameApart (by decide)).symm,(snapshotNameApart (by decide)).symm⟩
  have commit : commitName ≠ tmpName (snapshotV2Name seq cid) ∧ commitName ≠ snapshotV2Name seq cid :=
    ⟨(tmpNameApart (by decide)).symm,(snapshotNameApart (by decide)).symm⟩
  have manifest : manifestName ≠ tmpName (snapshotV2Name seq cid) ∧ manifestName ≠ snapshotV2Name seq cid :=
    ⟨(tmpNameApart (by decide)).symm,(snapshotNameApart (by decide)).symm⟩
  refine ⟨fun i bound => a.log i (old wal.1 wal.2 bound),fun i bound => a.sidecar i (old commit.1 commit.2 bound),
    fun absent i bound => ?_,(a.manifest.replacing way manifest.1 (fun h => absurd h manifest.2)).mono
      (fun _ n => n.carry (fun m sg' p => ⟨p.archived.replacing way ?_ (fun same' => ?_),p.holds⟩))⟩
  · rcases Disk.replacingDir way manifest.1 with kept | ⟨dst,_⟩
    · exact a.founded (kept ▸ absent) i (old manifest.1 manifest.2 bound)
    · exact absurd dst manifest.2
  · rw [p.named]
    exact snapshotNotTmp _ _ _
  · obtain ⟨rfl,rfl⟩ := snapshotNameInjective (p.named.symm.trans same')
    rw [same sg' p.holds]
    exact ⟨by rw [p.named],rfl⟩

theorem Archived.replacing {seq cid : Nat} (a : Archived d (snapshotV2Name seq cid) sg) {name : String} {cells : List (Stored W)}
    (way : Disk.Replacing (tmpName name) name cells d d') (other : snapshotV2Name seq cid ≠ name) :
    Archived d' (snapshotV2Name seq cid) sg :=
  Disk.Solid.replacing a way (snapshotNotTmp _ _ _) (fun same => absurd same other)

/- While the MANIFEST is written, and after that. -/
theorem Anchored.manifestWay (a : Anchored pk P d) {m : Manifest}
    (way : Disk.Replacing (tmpName manifestName) manifestName (manifestCells pk m) d d') (points : Points pk P d m sg) :
    Anchored pk P d' := by
  have old : ∀ {n o}, n ≠ tmpName manifestName → n ≠ manifestName → d'.MayBind n o → d.MayBind n o :=
    fun tmp dst bound => (Disk.replacingBinds way tmp bound).resolve_right (fun h => dst h.1)
  have kept : ∀ m sg, Points pk P d m sg → Archived d' m.snapshotFile sg := by
    intro m sg p
    have archived := p.archived
    rw [p.named] at archived ⊢
    exact archived.replacing way (snapshotNotManifest _ _)
  have names : ∀ {o}, Names pk P d o → Names pk P d' o := fun n => n.carry (fun m sg p => ⟨kept m sg p,p.holds⟩)
  refine ⟨fun i bound => a.log i (old (by decide) (by decide) bound),
    fun i bound => a.sidecar i (old (by decide) (by decide) bound),fun absent i bound => ?_,?_⟩
  · rcases Disk.replacingLands way (by decide) with there | ⟨same,before⟩
    · rw [absent] at there
      contradiction
    · exact a.founded (same ▸ absent) i (before _ bound)
  · refine ((a.manifest.mono (fun _ => names)).replacing way (by decide) (fun _ => ⟨rfl,fun cells some => ?_⟩))
    exact ⟨m,sg,(Option.some.inj some).symm,points.carry (kept m sg points) points.holds⟩

theorem Anchored.manifestReplaced (a : Anchored pk P d) {m : Manifest} (points : Points pk P' d m sg) :
    Anchored pk P' (d.replaced (tmpName manifestName) manifestName (manifestCells pk m)) := by
  have bare : Anchored pk (fun _ _ _ => True) d := a.mono (fun _ _ _ _ => trivial)
  have way := bare.manifestWay (m := m) .replaced (points.carry points.archived trivial)
  refine ⟨way.log,way.sidecar,way.founded,Disk.Solid.replaced (fun cells some => ?_)⟩
  refine ⟨m,sg,(Option.some.inj some).symm,points.carry ?_ points.holds⟩
  have archived := points.archived
  rw [points.named] at archived ⊢
  exact archived.replacing .replaced (snapshotNotManifest _ _)

/-! What the log and the sidecar go through. -/
inductive Edited (d : StoreDisk W) : StoreDisk W → Prop where
  | same : Edited d d
  | file {d' : StoreDisk W} {i : FileId} (f : File (Stored W)) (before : Edited d d')
      (which : i.1 = walName ∨ i.1 = commitName) : Edited d (d'.setFile i f)
  | dir {d' : StoreDisk W} (before : Edited d d') : Edited d d'.syncDir

theorem fileApart {i : FileId} (which : i.1 = walName ∨ i.1 = commitName) (n : String) : i.1 ≠ tmpName n := by
  rcases which with same | same <;> exact same ▸ (tmpNameApart (by decide)).symm

theorem Anchored.edited (a : Anchored pk P d) (e : Edited d d') : Anchored pk P d' := by
  induction e with
  | same => exact a
  | file f before which ih => exact ih.setFile f (fileApart which)
  | dir before ih => exact ih.syncDir

theorem Archived.edited {name : String} (a : Archived d name sg) (e : Edited d d') : Archived d' name sg := by
  induction e with
  | same => exact a
  | file f before which ih => exact Disk.Solid.setFile ih f (fileApart which _)
  | dir before ih => exact Disk.Solid.syncDir ih

theorem Points.edited {m : Manifest} (p : Points pk P d m sg) (e : Edited d d') : Points pk P d' m sg :=
  p.carry (p.archived.edited e) p.holds

theorem markingEdited {file : FileId} {h : CommitFile} {rec : CommitRecord} {s s' : World W}
    (way : CommitFile.Marking file h rec s s') (which : file.1 = commitName) : Edited s.disk s'.disk := by
  cases way with
  | before => exact .same
  | wrote tears => exact .file _ .same (.inr which)
  | marked => exact .file _ (.file _ .same (.inr which)) (.inr which)

theorem loggingEdited {wal : WalWriter} {frame : Bytes} {s s' : World W} (way : WalWriter.Logging wal frame s s')
    (which : wal.file.1 = walName) : Edited s.disk s'.disk := by
  cases way with
  | before => exact .same
  | wrote tears => exact .file _ .same (.inl which)
  | synced => exact .file _ (.file _ .same (.inl which)) (.inl which)

theorem trimmingEdited {file : FileId} {n : Nat} {s s' : World W} (way : Trimming file n s s') (which : file.1 = walName) :
    Edited s.disk s'.disk := by
  cases way with
  | before => exact .same
  | cut => exact .file _ .same (.inl which)
  | synced => exact .file _ (.file _ .same (.inl which)) (.inl which)
  | trimmed => exact .dir (.file _ (.file _ .same (.inl which)) (.inl which))

theorem Edited.trans {d'' : StoreDisk W} (e : Edited d d') (e' : Edited d' d'') : Edited d d'' := by
  induction e' with
  | same => exact e
  | file f before which ih => exact .file f ih which
  | dir before ih => exact .dir ih

/-! The handle. -/
section handle
variable [Arith W] [TotalCmp W] {w : Writer W}

/- A MANIFEST on the disk is at most one compaction ahead of the writer, by one that failed, and
if that was at the present sequence number the next one archives the same. -/
def Ahead (pk : Packages W) (w : Writer W) (seq cid : Nat) (sg : SerializableGraphV2 W) : Prop :=
  cid ≤ w.compactionId + 1 ∧
    (cid = w.compactionId + 1 → seq ≤ w.seq ∧ (seq = w.seq → archive (w.fold pk) = some sg))

structure Steered (pk : Packages W) (P : Nat → Nat → SerializableGraphV2 W → Prop) (w : Writer W) (d : StoreDisk W) : Prop where
  anchored : Anchored pk (fun seq cid sg => Ahead pk w seq cid sg ∧ P seq cid sg) d
  log : w.wal.file.1 = walName
  sidecar : w.commitFile.1 = commitName
  own : ∃ sg, Points pk P d (w.buildManifest true) sg

theorem Steered.edited (h : Steered pk P w d) (e : Edited d d') : Steered pk P w d' := by
  obtain ⟨sg,own⟩ := h.own
  exact ⟨h.anchored.edited e,h.log,h.sidecar,sg,own.edited e⟩

theorem Steered.weaken (h : Steered pk P w d) : Anchored pk P d := h.anchored.mono (fun _ _ _ both => both.2)

/- Two writers over the same files, with the same snapshot. -/
structure Placed (w w' : Writer W) : Prop where
  cid : w'.compactionId = w.compactionId
  seq : w'.snapshotSeq = w.snapshotSeq
  file : w'.snapshotFile = w.snapshotFile
  crc : w'.snapshotCrc32 = w.snapshotCrc32
  log : w'.wal.file = w.wal.file
  sidecar : w'.commitFile = w.commitFile

omit [Arith W] [TotalCmp W] in
theorem Points.placed {w' : Writer W} (p : Points pk P d (w.buildManifest true) sg) (same : Placed w w') :
    Points pk P d (w'.buildManifest true) sg := by
  refine ⟨?_,?_,?_,?_⟩
  · change w'.snapshotFile = snapshotV2Name w'.snapshotSeq w'.compactionId
    rw [same.file,same.seq,same.cid]
    exact p.named
  · exact p.crc.trans same.crc.symm
  · change Archived d w'.snapshotFile sg
    rw [same.file]
    exact p.archived
  · change P w'.snapshotSeq w'.compactionId sg
    rw [same.seq,same.cid]
    exact p.holds

/- Right after a MANIFEST of the writer's own none is ahead. -/
theorem steeredSettled {u : Writer W} (a : Anchored pk (fun seq cid sg => cid = u.compactionId ∧ P seq cid sg) d)
    (log : u.wal.file.1 = walName) (sidecar : u.commitFile.1 = commitName)
    (own : Points pk P d (u.buildManifest true) sg) (same : Placed u w) : Steered pk P w d := by
  refine ⟨a.mono (fun seq cid sg' known => ⟨⟨?_,fun more => ?_⟩,known.2⟩),same.log ▸ log,same.sidecar ▸ sidecar,sg,
    own.placed same⟩
  · rw [same.cid]
    exact known.1 ▸ Nat.le_succ _
  · rw [same.cid] at more
    exact absurd (known.1.symm.trans more) (Nat.succ_ne_self _).symm

omit [Arith W] [TotalCmp W] in
theorem logCutEdited (u : Writer W) (mark : Nat) (s : World W) (log : u.wal.file.1 = walName)
    (sidecar : u.commitFile.1 = commitName) : Edited s.disk (u.logCut (u.stamped mark s)).disk :=
  .file _ (.file _ (markingEdited .marked sidecar) (.inl log)) (.inl log)

/- `u` is the writer that has written the MANIFEST, `w` the one before. -/
theorem settleAnchored {u : Writer W} {m : Manifest} {s : World W} (sound : u.wal.poisoned = false)
    (only : Anchored pk (fun seq cid sg => cid = u.compactionId ∧ snapshotV2Name seq cid = m.snapshotFile ∧ P seq cid sg) s.disk)
    (log : u.wal.file.1 = walName) (sidecar : u.commitFile.1 = commitName)
    (own : Points pk P s.disk (u.buildManifest true) sg) (file : u.snapshotFile = m.snapshotFile)
    (old : w.snapshotFile ≠ manifestName) :
    Act.ends (Step faults) (fun v => Anchored pk P v.disk) (Writer.settle pk w m) (fun _ w' s' => Steered pk P w' s'.disk) u s := by
  have after : ∀ {d'}, Edited s.disk d' → ∀ {u'}, Placed u u' → Steered pk P u' d' := fun e _ same =>
    steeredSettled ((only.mono (fun _ _ _ known => ⟨known.1,known.2.2⟩)).edited e) log sidecar (own.edited e) same
  have anchored : ∀ {d'}, Edited s.disk d' → Anchored pk P d' := fun e =>
    (only.mono (fun _ _ _ known => known.2.2)).edited e
  have mark := fun {s'} (way : u.Stamping (max w.durableSeq w.seq) s s') => markingEdited way sidecar
  have stamped : Edited s.disk (u.stamped (max w.durableSeq w.seq) s).disk := mark .marked
  have cut : Edited s.disk (u.wal.cut (u.stamped (max w.durableSeq w.seq) s)).disk := .file _ stamped (.inl log)
  have flat : Edited s.disk (u.logCut (u.stamped (max w.durableSeq w.seq) s)).disk := logCutEdited u _ s log sidecar
  refine Writer.endsSettle sound (fun s' way => ⟨anchored (mark way),fun _ _ => after (mark way) ⟨rfl,rfl,rfl,rfl,rfl,rfl⟩⟩)
    (fun s' member => ?_) (fun _ _ => after flat ⟨rfl,rfl,rfl,rfl,rfl,rfl⟩) (fun base _ s' left => ?_)
  · have edited : Edited s.disk s'.disk := by
      simp only [List.mem_cons,List.not_mem_nil,or_false] at member
      rcases member with rfl | rfl | rfl
      · exact stamped
      · exact cut
      · exact flat
    exact ⟨anchored edited,fun _ _ _ _ => after edited ⟨rfl,rfl,rfl,rfl,rfl,rfl⟩⟩
  · rcases left with rfl | ⟨other,rfl⟩
    · exact ⟨anchored flat,after flat ⟨rfl,rfl,rfl,rfl,rfl,rfl⟩⟩
    · have gone := (only.edited flat).unlink old (fun _ _ _ known same => other (same.symm.trans known.2.1))
      have kept : Points pk P ((u.logCut (u.stamped (max w.durableSeq w.seq) s)).disk.change
          (.unlink w.snapshotFile)) (u.buildManifest true) sg := by
        refine (own.edited flat).carry (Disk.Solid.change (own.archived.edited flat) (if_neg (fun same => ?_))) own.holds
        exact other (same.symm.trans file)
      exact ⟨gone.mono (fun _ _ _ known => known.2.2),
        steeredSettled (gone.mono (fun _ _ _ known => ⟨known.1,known.2.2⟩)) log sidecar kept ⟨rfl,rfl,rfl,rfl,rfl,rfl⟩⟩

theorem compactAnchored {s : World W} (h : Steered pk P w s.disk) (sound : w.wal.poisoned = false)
    (fresh : ∀ sg, archive (w.fold pk) = some sg → P w.seq (w.compactionId + 1) sg) :
    Act.ends (Step faults) (fun u => Anchored pk P u.disk) (Writer.compactLocked pk)
      (fun _ w' s' => Steered pk P w' s'.disk) w s := by
  obtain ⟨mine,own⟩ := h.own
  have snapshot : ∀ sg, archive (w.fold pk) = some sg → ∀ d', Disk.Replacing (tmpName (w.foldManifest pk sg).snapshotFile)
      (w.foldManifest pk sg).snapshotFile [.graph sg] s.disk d' → Steered pk P w d' := by
    intro sg fits d' way
    refine ⟨h.anchored.snapshot way (fun sg' known => ?_),h.log,h.sidecar,mine,own.carry ?_ own.holds⟩
    · exact Option.some.inj (((known.1.2 rfl).2 rfl).symm.trans fits)
    · have archived := own.archived
      rw [own.named] at archived ⊢
      refine archived.replacing way (fun same => ?_)
      exact absurd (snapshotNameInjective same).2 (Nat.succ_ne_self _).symm
  have points : ∀ sg, archive (w.fold pk) = some sg → Points pk (fun seq cid sg => Ahead pk w seq cid sg ∧ P seq cid sg)
      (s.replaced (w.foldManifest pk sg).snapshotFile [.graph sg]).disk (w.foldManifest pk sg) sg := fun sg fits =>
    ⟨rfl,rfl,Disk.Solid.replaced rfl,⟨Nat.le_refl _,fun _ => ⟨Nat.le_refl _,fun _ => fits⟩⟩,fresh sg fits⟩
  refine Writer.endsCompact h.weaken (fun _ => ⟨h.anchored,h.log,h.sidecar,h.own⟩) (fun _ _ => h)
    (fun sg _ fits s' way => ?_) (fun sg _ fits s' way => ?_) (fun sg _ fits => ?_)
  · obtain ⟨d',way,rfl⟩ := way
    have now := snapshot sg fits d' way
    exact ⟨now.weaken,fun _ _ => now⟩
  · obtain ⟨d',way,rfl⟩ := way
    have before := snapshot sg fits _ .replaced
    obtain ⟨mine,own⟩ := before.own
    have now : Steered pk P w d' := by
      refine ⟨before.anchored.manifestWay way (points sg fits),h.log,h.sidecar,mine,own.carry ?_ own.holds⟩
      have archived := own.archived
      rw [own.named] at archived ⊢
      exact archived.replacing way (snapshotNotManifest _ _)
    exact ⟨now.weaken,fun _ _ => now⟩
  · have known := points sg fits
    have archived : Archived ((s.replaced (w.foldManifest pk sg).snapshotFile [.graph sg]).replaced manifestName
        (manifestCells pk (w.foldManifest pk sg))).disk (w.foldManifest pk sg).snapshotFile sg :=
      known.archived.replacing .replaced (snapshotNotManifest _ _)
    have only : Anchored pk (fun seq cid sg' => cid = w.compactionId + 1 ∧
        snapshotV2Name seq cid = (w.foldManifest pk sg).snapshotFile ∧ P seq cid sg')
        ((s.replaced (w.foldManifest pk sg).snapshotFile [.graph sg]).replaced manifestName
          (manifestCells pk (w.foldManifest pk sg))).disk :=
      (snapshot sg fits _ .replaced).anchored.manifestReplaced ⟨rfl,rfl,known.archived,rfl,rfl,fresh sg fits⟩
    have apart : w.snapshotFile ≠ manifestName := fun same =>
      snapshotNotManifest w.snapshotSeq w.compactionId (own.named.symm.trans same)
    exact settleAnchored (u := w.pointed (w.foldManifest pk sg)) sound only h.log h.sidecar ⟨rfl,rfl,archived,fresh sg fits⟩ rfl apart

omit [Arith W] [TotalCmp W] in
theorem acceptedPlaced (w : Writer W) (frame : Bytes) (ops : List (Op W)) (d : GraphDelta W) :
    Placed w (w.accepted frame ops d) := by
  have wal : (w.accepted frame ops d).wal.file = w.wal.file := by
    rw [Writer.acceptedWal]
    split <;> rfl
  refine ⟨?_,?_,?_,?_,wal,?_⟩ <;>
  · unfold Writer.accepted Writer.acked
    split <;> rfl

omit [Arith W] [TotalCmp W] in
theorem acceptedSound {ops : List (Op W)} {expectedSeq : Option Nat} {d : GraphDelta W} {frame : Bytes}
    (prepared : w.prepare pk ops expectedSeq = .ok (d,frame)) : (w.accepted frame ops d).wal.poisoned = false := by
  rw [Writer.acceptedWal]
  have sound := Writer.preparedSound prepared
  split <;> exact sound

/- With one more batch accepted, a MANIFEST ahead is of an earlier sequence number. -/
theorem Steered.accepted (h : Steered pk P w d) (frame : Bytes) (ops : List (Op W)) (g : GraphDelta W) :
    Steered pk P (w.accepted frame ops g) d := by
  have placed := acceptedPlaced w frame ops g
  obtain ⟨sg,own⟩ := h.own
  refine ⟨h.anchored.mono (fun seq cid sg known => ⟨⟨?_,fun more => ?_⟩,known.2⟩),placed.log ▸ h.log,
    placed.sidecar ▸ h.sidecar,sg,own.placed placed⟩
  · rw [placed.cid]
    exact known.1.1
  · rw [placed.cid] at more
    have early : seq ≤ w.seq := (known.1.2 more).1
    have seq' : (w.accepted frame ops g).seq = w.seq + 1 := rfl
    exact ⟨by omega,fun same => by omega⟩

theorem sealAnchored {s : World W} (h : Steered pk P w s.disk) (sound : w.wal.poisoned = false) :
    Act.ends (Step faults) (fun u => Anchored pk P u.disk) Writer.sealLog (fun _ w' s' => Steered pk P w' s'.disk) w s := by
  have synced : Edited s.disk (w.wal.synced s).disk := .file _ .same (.inl h.log)
  refine Writer.endsSeal sound (fun s' member => ?_) (fun s' way => ?_) ?_
  · have now : Steered pk P w s'.disk := by
      rcases List.mem_pair.mp member with rfl | rfl
      · exact h
      · exact h.edited synced
    exact ⟨now.weaken,fun _ _ => ⟨now.anchored,h.log,h.sidecar,now.own⟩⟩
  · have now := h.edited (synced.trans (markingEdited way h.sidecar))
    exact ⟨now.weaken,fun _ _ => ⟨now.anchored,h.log,h.sidecar,now.own⟩⟩
  · have now : Steered pk P w (w.sealedWorld s).disk := h.edited (synced.trans (markingEdited .marked h.sidecar))
    obtain ⟨sg,own⟩ := now.own
    exact ⟨now.anchored,h.log,h.sidecar,sg,own.placed ⟨rfl,rfl,rfl,rfl,rfl,rfl⟩⟩

omit [Arith W] [TotalCmp W] in
theorem loggedEdited (s : World W) (log : w.wal.file.1 = walName) (frame : Bytes) :
    Edited s.disk (w.loggedWorld frame s).disk := by
  unfold Writer.loggedWorld
  split
  · exact loggingEdited .synced log
  · exact loggingEdited (.wrote (partWhole _)) log

omit [Arith W] [TotalCmp W] in
theorem ackedEdited (s : World W) (log : w.wal.file.1 = walName) (sidecar : w.commitFile.1 = commitName) (frame : Bytes) :
    Edited s.disk (w.ackedWorld frame s).disk := by
  unfold Writer.ackedWorld
  split
  · exact (loggedEdited s log frame).trans (markingEdited .marked sidecar)
  · exact loggedEdited s log frame

theorem requestAnchored {q : Request W} {s : World W} (h : Steered pk P w s.disk)
    (fresh : ∀ sg, archive (w.fold pk) = some sg → P w.seq (w.compactionId + 1) sg)
    (later : ∀ sg, P (w.seq + 1) (w.compactionId + 1) sg) :
    Act.ends (Step faults) (fun u => Anchored pk P u.disk) (q.run pk) (fun _ w' s' => Steered pk P w' s'.disk) w s := by
  have onward : ∀ {α : Type} (r : Except Stop α) (w' : Writer W) (s' : World W), Anchored pk P s'.disk →
      Steered pk P w' s'.disk → Act.onward (Step faults) (fun u => Anchored pk P u.disk)
        (fun _ => (pure none : Io W (Writer W) (Option Nat))) (fun _ w' s' => Steered pk P w' s'.disk) r w' s' := by
    intro α r w' s' now ended
    cases r with
    | ok _ => exact ⟨now,ended⟩
    | error e => exact ended
  cases q with
  | apply ops expectedSeq =>
    have acked : ∀ frame, Edited s.disk (w.ackedWorld frame s).disk := ackedEdited s h.log h.sidecar
    have marked : ∀ {frame s'}, CommitFile.Marking w.commitFile w.commit (w.commit.stamp w.epoch (w.seq + 1))
        (w.loggedWorld frame s) s' → Edited s.disk s'.disk := fun way =>
      (loggedEdited s h.log _).trans (markingEdited way h.sidecar)
    refine Act.endsBind (Writer.endsApply h.weaken (fun e _ => h) (fun d frame _ s' way => ?_)
      (fun d frame _ _ s' way => ?_) (fun d frame prepared s' same => ?_))
    · have now := h.edited (loggingEdited way h.log)
      exact ⟨now.weaken,fun _ _ _ _ => ⟨now.anchored,h.log,h.sidecar,now.own⟩⟩
    · have now := h.edited (marked way)
      refine ⟨now.weaken,fun _ _ => ⟨now.anchored,?_,h.sidecar,now.own⟩⟩
      unfold Writer.logged
      split <;> exact h.log
    · obtain rfl := same
      have now : Steered pk P (w.accepted frame ops d) (w.ackedWorld frame s).disk :=
        (h.edited (acked frame)).accepted frame ops d
      refine ⟨now.weaken,now.weaken,Writer.endsAutoCompact (fun _ => ⟨now.weaken,now.weaken,now⟩) (fun _ => ?_)⟩
      refine Act.endsMono (compactAnchored now (acceptedSound prepared) (fun sg _ => ?_)) (fun r w' s' now ended => ?_)
      · rw [(acceptedPlaced w frame ops d).cid]
        exact later sg
      · match r with
        | .ok _ => exact ⟨now,ended⟩
        | .error .panicked => exact ended
        | .error (.err _) => exact ⟨now,ended.anchored,ended.log,ended.sidecar,ended.own⟩
  | compact =>
    exact Act.endsBind (Writer.endsCompactCall h.weaken (fun _ => h)
      (fun sound => Act.endsMono (compactAnchored h sound fresh) onward))
  | flush =>
    refine Act.endsBind (Writer.endsFlush h.weaken (fun _ => h) (fun sound => Act.endsMono (sealAnchored h sound) onward))
  | setFsyncPolicy policy => exact ⟨h.weaken,h.anchored,h.log,h.sidecar,h.own⟩
  | setAutoCompactThreshold threshold => exact ⟨h.weaken,h.anchored,h.log,h.sidecar,h.own⟩

theorem closeWithAnchored {clean : Bool} {s : World W} (h : Steered pk P w s.disk) :
    Act.ends (Step faults) (fun u => Anchored pk P u.disk) (Writer.closeWith pk clean) (fun _ _ s' => Anchored pk P s'.disk) w s := by
  obtain ⟨sg,own⟩ := h.own
  have points : Points pk P s.disk (w.buildManifest clean) sg := ⟨own.named,own.crc,own.archived,own.holds⟩
  refine Writer.endsCloseWith (fun s' way => ?_) (h.weaken.manifestReplaced points)
  obtain ⟨d',way,rfl⟩ := way
  exact ⟨h.weaken.manifestWay way points,fun _ _ => h.weaken.manifestWay way points⟩

theorem closeAnchored {s : World W} (h : Steered pk P w s.disk) :
    Act.ends (Step faults) (fun u => Anchored pk P u.disk) (Writer.close pk) (fun _ _ s' => Anchored pk P s'.disk) w s := by
  have refused : ∀ {w : Writer W} {s : World W}, Steered pk P w s.disk → Act.ends (Step faults) (fun u => Anchored pk P u.disk)
      (Writer.closeWith pk false) (Act.onward (Step faults) (fun u => Anchored pk P u.disk)
        (fun _ => (refuse .poisoned : Io W (Writer W) Unit)) (fun _ _ s' => Anchored pk P s'.disk)) w s := by
    intro w s h
    refine Act.endsMono (closeWithAnchored h) (fun r _ s' now ended => ?_)
    cases r with
    | ok _ => exact ⟨now,now⟩
    | error e => exact ended
  refine Writer.endsClose (fun _ => refused h) (fun sound => Act.endsMono (sealAnchored h sound) (fun r w' s' _ ended => ?_))
  cases r with
  | ok _ => exact closeWithAnchored ended
  | error e => exact refused ended

/-! Recovery. -/
/- What a recovery would read. -/
def Reads (pk : Packages W) (d : StoreDisk W) (m : Manifest) : Prop :=
  ∃ cells, d.read manifestName = some cells ∧ pk.parse (asBytes cells) = some m

omit [Arith W] [TotalCmp W] in
theorem checkedParsed {crc32 : Bytes → UInt32} {o : Option Manifest} {m : Manifest} (passed : checkManifest crc32 o = .ok m) :
    o = some m := by
  cases o with
  | none => simp [checkManifest] at passed
  | some m' =>
    rw [checkManifest] at passed
    split at passed
    · contradiction
    · exact congrArg some (Except.ok.inj passed)

omit [Arith W] [TotalCmp W] in
theorem readsPoints (parses : ∀ m, pk.parse (pk.json m) = some m) (a : Anchored pk P d) {m : Manifest} (reads : Reads pk d m) :
    ∃ m' sg, m = m'.stamped pk.codec.crc32 ∧ Points pk P d m' sg := by
  obtain ⟨cells,there,text⟩ := reads
  obtain ⟨m',sg,rfl,points⟩ := a.manifest.read cells there
  rw [manifestCells,bytesOfCells,parses] at text
  exact ⟨m',sg,(Option.some.inj text).symm,points⟩

theorem resumeAnchored (parses : ∀ m, pk.parse (pk.json m) = some m) {mode : BaseMode} {validate : Validation} {m : Manifest}
    {base : BaseGraph W} {walFile : FileId} {scan : ScanResult W} {commitFile : FileId} {rec : CommitRecord}
    {handle : CommitFile} {r : Replay W} {s : World W} (a : Anchored pk P s.disk)
    (found : Examined pk mode validate s m base walFile scan commitFile rec handle r) :
    Act.ends (Step faults) (fun u => Anchored pk P u.disk) (resume pk mode m base walFile scan commitFile rec handle r)
      (fun r _ s' => Anchored pk P s'.disk ∧ ∀ pg, r = .ok pg → Steered pk P pg.writer s'.disk) st s := by
  have log : walFile.1 = walName := a.log _ (found.log ▸ Disk.mayBindDir s.disk walName)
  have sidecar : commitFile.1 = commitName := a.sidecar _ (found.sidecar.bound ▸ Disk.mayBindDir s.disk commitName)
  obtain ⟨cells,there,passed⟩ := found.manifest
  obtain ⟨m',sg,rfl,read⟩ := readsPoints parses a ⟨cells,there,checkedParsed passed⟩
  have points : ∀ {d'} epoch high, Edited s.disk d' → Points pk P d' (resumed (m'.stamped pk.codec.crc32) epoch high) sg :=
    fun epoch high e => ⟨read.named,read.crc,read.archived.edited e,read.holds⟩
  have edited : ∀ {s' : World W}, Edited s.disk s'.disk → Anchored pk P s'.disk ∧
      ∀ Why : Prop, Why → ∀ (k : IoKind), Anchored pk P s'.disk ∧ ∀ (pg : PersistentGraph W),
        (.error (.err (.io k)) : Except Stop (PersistentGraph W)) = .ok pg → Steered pk P pg.writer s'.disk :=
    fun e => ⟨a.edited e,fun _ _ _ => ⟨a.edited e,fun _ bad => nomatch bad⟩⟩
  have cut : Edited s.disk (cutTail walFile r.committedEnd s).disk := by
    unfold cutTail
    split
    · exact trimmingEdited .trimmed log
    · exact .same
  have chosen : ∀ {epoch t}, Chosen faults (m'.stamped pk.codec.crc32) (tailLost walFile r.committedEnd s)
      (cutTail walFile r.committedEnd s) epoch t → Edited s.disk t.disk := by
    intro epoch t chosen
    cases chosen with
    | kept whole clean => exact cut
    | minted lost fresh => exact cut
  have stamped : ∀ {epoch t}, Chosen faults (m'.stamped pk.codec.crc32) (tailLost walFile r.committedEnd s)
      (cutTail walFile r.committedEnd s) epoch t → Edited s.disk (restamped commitFile handle epoch
        (max rec.committedSeq (m'.stamped pk.codec.crc32).snapshotSeq) t).disk := fun which =>
    (chosen which).trans (markingEdited .marked sidecar)
  refine endsResume (I := fun s' => Anchored pk (fun seq cid sg => cid = m'.compactionId ∧
      snapshotV2Name seq cid = m'.snapshotFile ∧ P seq cid sg) s'.disk ∧ Archived s'.disk m'.snapshotFile sg)
    (fun s' left => ?_) (fun s' left => ?_) (fun epoch t which s' way => ?_) (fun epoch t which s' way => ?_)
    (fun epoch t which => ⟨?_,fun s' known => ⟨?_,fun name strayed => ?_,fun u made => ?_⟩⟩)
  · rcases left with rfl | ⟨_,way⟩
    · exact ⟨(edited .same).1,(edited .same).2 _⟩
    · exact ⟨(edited (trimmingEdited way log)).1,(edited (trimmingEdited way log)).2 _⟩
  · rcases left with rfl | ⟨epoch,which⟩
    · exact ⟨(edited cut).1,(edited cut).2 _⟩
    · exact ⟨(edited (chosen which)).1,(edited (chosen which)).2 _⟩
  · have e := (chosen which).trans (markingEdited way sidecar)
    exact ⟨(edited e).1,(edited e).2 _⟩
  · obtain ⟨d',way,rfl⟩ := way
    have now := (a.edited (stamped which)).manifestWay way (points epoch _ (stamped which))
    exact ⟨now,fun _ _ => ⟨now,fun _ bad => nomatch bad⟩⟩
  · have archived : Archived (restamped commitFile handle epoch (max rec.committedSeq (m'.stamped pk.codec.crc32).snapshotSeq)
        t).disk m'.snapshotFile sg := read.archived.edited (stamped which)
    have only : Points pk (fun seq cid sg => cid = m'.compactionId ∧ snapshotV2Name seq cid = m'.snapshotFile ∧ P seq cid sg)
        (restamped commitFile handle epoch (max rec.committedSeq (m'.stamped pk.codec.crc32).snapshotSeq) t).disk
        (resumed (m'.stamped pk.codec.crc32) epoch (max rec.committedSeq (m'.stamped pk.codec.crc32).snapshotSeq)) sg :=
      ⟨read.named,read.crc,archived,rfl,read.named.symm,read.holds⟩
    refine ⟨(a.edited (stamped which)).manifestReplaced only,?_⟩
    rw [read.named] at archived ⊢
    exact archived.replacing .replaced (snapshotNotManifest _ _)
  · exact known.1.mono (fun _ _ _ known => known.2.2)
  · obtain ⟨other,safe⟩ := orphanApart strayed
    exact ⟨known.1.unlink safe (fun _ _ _ named same => other (same.symm.trans named.2.1)),
      Disk.Solid.change known.2 (if_neg (fun same => other same.symm))⟩
  · subst made
    have own : Points pk P s'.disk ((reopened mode (m'.stamped pk.codec.crc32) base walFile commitFile rec handle r
        epoch).buildManifest true) sg := ⟨read.named,read.crc,known.2,read.holds⟩
    have now := known.1.mono (fun _ _ _ known => known.2.2)
    refine ⟨now,fun report => ⟨now,fun pg same => ?_⟩⟩
    cases Except.ok.inj same
    exact steeredSettled (u := reopened mode (m'.stamped pk.codec.crc32) base walFile commitFile rec handle r epoch)
      (known.1.mono (fun _ _ _ known => ⟨known.1,known.2.2⟩)) log sidecar own ⟨rfl,rfl,rfl,rfl,rfl,rfl⟩

/-! Creation. -/
omit [Arith W] [TotalCmp W] in
theorem Anchored.unfounded (a : Anchored pk P d) (absent : d.dir manifestName = none) :
    Anchored pk (fun _ _ _ => False) d := by
  refine ⟨a.log,a.sidecar,a.founded,fun o bound => ?_⟩
  cases o with
  | none => exact .nothing (fun _ bad => nomatch bad)
  | some i => exact absurd bound (a.founded absent i)

/- Before there is a MANIFEST, with the first snapshot in place. -/
structure Laid (pk : Packages W) (sg : SerializableGraphV2 W) (d : StoreDisk W) : Prop where
  bare : Anchored pk (fun _ _ _ => False) d
  archived : Archived d (snapshotV2Name 0 0) sg

omit [Arith W] [TotalCmp W] in
theorem Laid.create (l : Laid pk sg d) {name : String} (which : name = walName ∨ name = commitName) :
    Laid pk sg (d.create name) := by
  refine ⟨l.bare.create which,Disk.Solid.create l.archived ?_⟩
  rcases which with rfl | rfl <;> exact snapshotNameApart (by decide)

omit [Arith W] [TotalCmp W] in
theorem Laid.edited (l : Laid pk sg d) (e : Edited d d') : Laid pk sg d' := ⟨l.bare.edited e,l.archived.edited e⟩

omit [Arith W] [TotalCmp W] in
theorem commitWroteEdited (s : World W) (part : List (Stored W)) :
    Edited (s.created commitName).disk (commitWrote s part).disk := .file _ .same (.inr rfl)

omit [Arith W] [TotalCmp W] in
theorem commitSyncedEdited (s : World W) (epoch : Nat) :
    Edited (s.created commitName).disk (commitSynced epoch s).disk := .file _ (commitWroteEdited s _) (.inr rfl)

omit [Arith W] [TotalCmp W] in
theorem logLaidAnchored {s : World W} (a : Anchored pk (fun _ _ _ => False) s.disk) (sg : SerializableGraphV2 W) :
    Laid pk sg ((snapshotLaid sg s).created walName).disk ∧ Laid pk sg (logLaid sg s).disk := by
  have first : Laid pk sg (snapshotLaid sg s).disk :=
    ⟨a.snapshot .replaced (fun _ bad => bad.elim),Disk.Solid.replaced rfl⟩
  have log : Laid pk sg ((snapshotLaid sg s).created walName).disk := first.create (.inl rfl)
  exact ⟨log,log.edited (.dir (.file _ .same (.inl rfl)))⟩

omit [Arith W] [TotalCmp W] in
theorem commitLaidAnchored {s : World W} (a : Anchored pk (fun _ _ _ => False) s.disk) (sg : SerializableGraphV2 W)
    (epoch : Nat) : Laid pk sg (commitLaid sg epoch s).disk :=
  ((logLaidAnchored a sg).2.create (.inr rfl)).edited (.dir (commitSyncedEdited ((logLaid sg s).minting epoch) epoch))

omit [Arith W] [TotalCmp W] in
theorem firstPoints {s : World W} (a : Anchored pk (fun _ _ _ => False) s.disk) {epoch : Nat} (holds : P 0 0 sg) :
    Points pk P (commitLaid sg epoch s).disk (firstManifest pk sg epoch) sg :=
  ⟨rfl,rfl,(commitLaidAnchored a sg epoch).archived,holds⟩

omit [Arith W] [TotalCmp W] in
theorem foundingAnchored {s s' : World W} (a : Anchored pk (fun _ _ _ => False) s.disk) (holds : P 0 0 sg)
    (way : Founding faults pk sg s s') : Anchored pk P s'.disk := by
  have weaken : ∀ {d}, Anchored pk (fun _ _ _ => False) d → Anchored pk P d := fun a => a.mono (fun _ _ _ bad => bad.elim)
  obtain ⟨log,laid⟩ := logLaidAnchored a sg
  cases way with
  | snapshot way =>
    obtain ⟨d',way,rfl⟩ := way
    exact weaken (a.snapshot way (fun _ bad => bad.elim))
  | log => exact weaken log.bare
  | logSynced => exact weaken (log.bare.edited (.file _ .same (.inl rfl)))
  | logLaid => exact weaken laid.bare
  | minted fresh => exact weaken laid.bare
  | commit fresh => exact weaken (laid.bare.create (.inr rfl))
  | commitWrote fresh tears => exact weaken ((laid.bare.create (.inr rfl)).edited (commitWroteEdited _ _))
  | commitSynced fresh => exact weaken ((laid.bare.create (.inr rfl)).edited (commitSyncedEdited _ _))
  | commitLaid fresh => exact weaken (commitLaidAnchored a sg _).bare
  | manifest fresh way =>
    obtain ⟨d',way,rfl⟩ := way
    exact (weaken (commitLaidAnchored a sg _).bare).manifestWay way (firstPoints a holds)

/- A finished creation, with its handle. -/
theorem foundedSteered {g : OrpheusGraphInner W} {s : World W} (bare : Anchored pk (fun _ _ _ => False) s.disk) (holds : P 0 0 sg) (epoch : Nat) :
    Steered pk P (firstWriter pk g sg ((snapshotLaid sg s).newest walName) (((logLaid sg s).minting epoch).newest commitName) epoch)
      (founded pk sg epoch s).disk := by
  have points : Points pk (fun seq cid sg => cid = 0 ∧ P seq cid sg) (commitLaid sg epoch s).disk
      (firstManifest pk sg epoch) sg := firstPoints bare ⟨rfl,holds⟩
  have now := (commitLaidAnchored bare sg epoch).bare.manifestReplaced points
  have archived : Archived (founded pk sg epoch s).disk (snapshotV2Name 0 0) sg :=
    points.archived.replacing .replaced (snapshotNotManifest _ _)
  have own : Points pk P (founded pk sg epoch s).disk ((firstWriter pk g sg ((snapshotLaid sg s).newest walName)
      (((logLaid sg s).minting epoch).newest commitName) epoch).buildManifest true) sg :=
    ⟨rfl,rfl,archived,holds⟩
  exact steeredSettled (u := firstWriter pk g sg _ _ epoch) now rfl rfl own ⟨rfl,rfl,rfl,rfl,rfl,rfl⟩

theorem createAnchored {g : OrpheusGraphInner W} {s : World W} (a : Anchored pk P s.disk)
    (fresh : s.disk.dir manifestName = none → ∀ sg, P 0 0 sg) :
    Act.ends (Step faults) (fun u => Anchored pk P u.disk) (createStore pk g)
      (fun r _ s' => Anchored pk P s'.disk ∧ ∀ pg, r = .ok pg → Steered pk P pg.writer s'.disk) st s := by
  refine endsCreateStore a (fun _ => ⟨a,fun _ bad => nomatch bad⟩) (fun sg _ absent s' way => ?_)
    (fun sg epoch _ absent _ u made => ?_)
  · have now := foundingAnchored (a.unfounded absent) (fresh absent sg) way
    exact ⟨now,fun _ => ⟨now,fun _ bad => nomatch bad⟩⟩
  · subst made
    have steered := foundedSteered (g := g) (a.unfounded absent) (fresh absent sg) epoch
    refine ⟨steered.weaken,fun report => ⟨steered.weaken,fun pg same => ?_⟩⟩
    cases Except.ok.inj same
    exact steered

theorem bootAnchored (parses : ∀ m, pk.parse (pk.json m) = some m) (b : Boot W) {s : World W} (a : Anchored pk P s.disk)
    (fresh : s.disk.dir manifestName = none → ∀ sg, P 0 0 sg) :
    Act.ends (Step faults) (fun u => Anchored pk P u.disk) (b.run pk)
      (fun r _ s' => Anchored pk P s'.disk ∧ ∀ pg, r = .ok pg → Steered pk P pg.writer s'.disk) () s := by
  cases b with
  | create g => exact createAnchored a fresh
  | open_ c mode validate =>
    refine endsOpenStore a (fun _ _ => ⟨a,fun _ bad => nomatch bad⟩) (fun _ v => ?_) (fun _ => createAnchored a fresh)
    exact endsOpenExisting a (fun _ _ => ⟨a,fun _ bad => nomatch bad⟩)
      (fun m base walFile scan commitFile rec handle r found => resumeAnchored parses a found)

/-! Whole runs. -/
def Settled (pk : Packages W) (store : Store W) : Prop :=
  match store.handle with
  | none => Anchored pk (fun _ _ _ => True) store.world.disk
  | some w => Steered pk (fun _ _ _ => True) w store.world.disk

theorem Settled.anchored {store : Store W} (settled : Settled pk store) :
    Anchored pk (fun _ _ _ => True) store.world.disk := by
  obtain ⟨s,handle⟩ := store
  cases handle with
  | none => exact settled
  | some w => exact Steered.weaken settled

theorem interruptedAnchored (parses : ∀ m, pk.parse (pk.json m) = some m) {store : Store W} (settled : Settled pk store)
    {u : World W} (reached : Interrupted pk faults store u) : Anchored pk (fun _ _ _ => True) u.disk := by
  cases reached with
  | idle s handle => exact settled.anchored
  | boot cut => exact Act.endsCut (C := fun u => Anchored pk (fun _ _ _ => True) u.disk) (bootAnchored parses _ settled (fun _ _ => trivial)) cut
  | request cut => exact Act.endsCut (C := fun u => Anchored pk (fun _ _ _ => True) u.disk) (requestAnchored settled (fun _ _ => trivial) (fun _ => trivial)) cut
  | close cut => exact Act.endsCut (C := fun u => Anchored pk (fun _ _ _ => True) u.disk) (closeAnchored settled) cut

theorem livesSettled (parses : ∀ m, pk.parse (pk.json m) = some m) {deaths : Prop} {store store' : Store W} {e : Event W}
    (settled : Settled pk store) (step : Lives pk faults deaths store e store') : Settled pk store' := by
  cases step with
  | boot run =>
    have left := Act.endsExec (bootAnchored parses _ settled (fun _ _ => trivial)) run
    rename_i r
    cases r with
    | ok pg => exact left.2 pg rfl
    | error e => exact left.1
  | request run => exact Act.endsExec (requestAnchored settled (fun _ _ => trivial) (fun _ => trivial)) run
  | close run => exact Act.endsExec (closeAnchored settled) run
  | drop => exact settled.anchored
  | die may cut => exact interruptedAnchored parses settled cut
  | losePower cut loss => exact (interruptedAnchored parses settled cut).powerLoss loss

omit [Arith W] [TotalCmp W] in
theorem emptyAnchored : Anchored pk P (.empty : StoreDisk W) := by
  have unbound : ∀ {n i}, ¬(Disk.empty : StoreDisk W).MayBind n (some i) := by
    rintro n i (bad | ⟨x,member,_⟩)
    · exact nomatch bad
    · exact nomatch member
  refine ⟨fun i bound => absurd bound unbound,fun i bound => absurd bound unbound,fun _ i => unbound,fun o bound => ?_⟩
  cases o with
  | none => exact .nothing (fun _ bad => nomatch bad)
  | some i => exact absurd bound unbound

theorem livedSettled (parses : ∀ m, pk.parse (pk.json m) = some m) {deaths : Prop} {store : Store W}
    (lived : Lived pk faults deaths store) : Settled pk store := by
  induction lived with
  | empty => exact emptyAnchored
  | step before step ih => exact livesSettled parses ih step

/- What a MANIFEST on the disk says, and what is loyal to all of them. -/
structure Named (pk : Packages W) (d : StoreDisk W) (seq cid : Nat) (sg : SerializableGraphV2 W) : Prop where
  manifest : ∃ i m, d.MayBind manifestName (some i) ∧ (d.files i).content = manifestCells pk m ∧
    m.snapshotSeq = seq ∧ m.compactionId = cid
  archived : Archived d (snapshotV2Name seq cid) sg

def Loyal (pk : Packages W) (d : StoreDisk W) (seq cid : Nat) (sg : SerializableGraphV2 W) : Prop :=
  ∀ sg', Named pk d seq cid sg' → sg' = sg

omit [Arith W] [TotalCmp W] in
theorem manifestCellsInjective (parses : ∀ m, pk.parse (pk.json m) = some m) {m m' : Manifest}
    (same : manifestCells pk m = manifestCells pk m') : m.stamped pk.codec.crc32 = m'.stamped pk.codec.crc32 := by
  have text := congrArg (fun cells => pk.parse (asBytes cells)) same
  simpa only [manifestCells,bytesOfCells,parses,Option.some.injEq] using text

omit [Arith W] [TotalCmp W] in
theorem namedHolds (parses : ∀ m, pk.parse (pk.json m) = some m) (a : Anchored pk P d) {seq cid : Nat}
    (named : Named pk d seq cid sg) : P seq cid sg := by
  obtain ⟨i,m,bound,content,rfl,rfl⟩ := named.manifest
  cases a.manifest _ bound with
  | file born settled holds =>
    obtain ⟨m',sg',rfl,points⟩ := holds _ rfl
    rw [settled] at content
    have same := manifestCellsInjective parses content
    have seq : m'.snapshotSeq = m.snapshotSeq := (Manifest.mk.inj same).2.2.1
    have cid : m'.compactionId = m.compactionId := (Manifest.mk.inj same).2.2.2.2.1
    have archived := points.archived
    rw [points.named,seq,cid] at archived
    have holds := points.holds
    rw [seq,cid] at holds
    exact archivedUnique archived named.archived ▸ holds

omit [Arith W] [TotalCmp W] in
theorem Anchored.named (a : Anchored pk P d) : Anchored pk (Named pk d) d := by
  refine ⟨a.log,a.sidecar,a.founded,fun o bound => ?_⟩
  cases a.manifest o bound with
  | nothing holds => exact .nothing (fun _ bad => nomatch bad)
  | file born settled holds =>
    refine .file born settled (fun cells some => ?_)
    obtain ⟨m,sg,same,points⟩ := holds cells some
    have archived := points.archived
    rw [points.named] at archived
    refine ⟨m,sg,same,points.carry points.archived ⟨⟨_,m,bound,?_,rfl,rfl⟩,archived⟩⟩
    rw [settled,← same]
    exact Option.some.inj some

omit [Arith W] [TotalCmp W] in
theorem namedLoyal {seq cid : Nat} (named : Named pk d seq cid sg) : Loyal pk d seq cid sg :=
  fun _ other => archivedUnique other.archived named.archived

theorem Steered.loyal (h : Steered pk P w d) (parses : ∀ m, pk.parse (pk.json m) = some m) :
    Steered pk (Loyal pk d) w d := by
  obtain ⟨sg,own⟩ := h.own
  refine ⟨h.anchored.named.mono (fun _ _ _ named => ⟨(namedHolds parses h.anchored named).1,namedLoyal named⟩),
    h.log,h.sidecar,sg,own.carry own.archived (fun sg' named => ?_)⟩
  have archived := own.archived
  rw [own.named] at archived
  exact archivedUnique named.archived archived

/- In every state on the way of a step, a MANIFEST that names what one named before still finds
the archive it found then. -/
theorem interruptedLoyal (parses : ∀ m, pk.parse (pk.json m) = some m) {store : Store W} (settled : Settled pk store)
    {u : World W} (reached : Interrupted pk faults store u) : Anchored pk (Loyal pk store.world.disk) u.disk := by
  have start : Anchored pk (Loyal pk store.world.disk) store.world.disk :=
    settled.anchored.named.mono (fun _ _ _ => namedLoyal)
  cases reached with
  | idle s handle => exact start
  | boot cut =>
    rename_i b s
    refine Act.endsCut (C := fun v => Anchored pk (Loyal pk s.disk) v.disk) (bootAnchored parses _ start (fun absent sg sg' named => ?_)) cut
    obtain ⟨i,_,bound,_⟩ := named.manifest
    exact absurd bound (start.founded absent i)
  | request cut =>
    rename_i q w s
    have h : Steered pk (fun _ _ _ => True) w s.disk := settled
    refine Act.endsCut (C := fun v => Anchored pk (Loyal pk s.disk) v.disk) (requestAnchored (h.loyal parses) (fun sg fits sg' named => ?_) (fun sg sg' named => ?_)) cut
    · have ahead := (namedHolds parses h.anchored named).1
      exact Option.some.inj (((ahead.2 rfl).2 rfl).symm.trans fits)
    · have ahead := (namedHolds parses h.anchored named).1
      exact absurd (ahead.2 rfl).1 (Nat.not_succ_le_self _)
  | close cut =>
    rename_i w s
    exact Act.endsCut (C := fun v => Anchored pk (Loyal pk s.disk) v.disk) (closeAnchored (Steered.loyal settled parses)) cut

end handle

end OrpheusGraph
