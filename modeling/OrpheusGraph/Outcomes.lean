import OrpheusGraph.Store

/-! What each part of the store can leave behind, with every call failing that may: one
rule for each, over any condition on the states in between. -/
namespace OrpheusGraph
open Storage Effects
variable {W σ α : Type} {faults : Faults W} {C : World W → Prop} {st : σ} {s : World W}

/- The open file a call is on. -/
def IoCall.file : IoCall W → Option FileId
  | .readToEnd f | .append f _ | .seek f _ | .writeAt f _ _ | .syncAll f | .setLen f _ | .len f => some f
  | _ => none

/- Some call that is not on another file than those named so may fail. -/
def Faults.at (faults : Faults W) (name : String) : Prop :=
  ∃ c, faults.fails c ∧ ∀ f, c.file = some f → f.1 = name

theorem brokenPlain {c : IoCall W} {v : c.Value} {t s' : World W}
    (works : ∀ r s', c.works faults s r s' → r = .ok v ∧ s' = t)
    (plain : ∀ f cells off, c ≠ .append f cells ∧ c ≠ .writeAt f off cells)
    (broke : c.broken faults s s') : s' = s ∨ s' = t := by
  rcases broke with same | ⟨r,late⟩ | part
  · exact .inl same
  · exact .inr (works _ _ late).2
  · cases c with
    | append f cells => exact absurd rfl (plain f cells 0).1
    | writeAt f off cells => exact absurd rfl (plain f cells off).2
    | _ => exact part.elim

theorem endsPlain {c : IoCall W} {v : c.Value} {t : World W} {Q : Except Stop c.Value → σ → World W → Prop}
    (works : ∀ r s', c.works faults s r s' → r = .ok v ∧ s' = t)
    (plain : ∀ f cells off, c ≠ .append f cells ∧ c ≠ .writeAt f off cells)
    (now : C s) (later : C t) (done : Q (.ok v) st t)
    (fails : faults.fails c → ∀ k, ∀ s' ∈ [s,t], Q (.error (.err (.io k))) st s') :
    Act.ends (Step faults) C (io c) Q st s := by
  refine endsIo now (fun r s' worked => ?_) (fun may k s' broke => ?_)
  · obtain ⟨rfl,rfl⟩ := works r s' worked
    exact ⟨later,done⟩
  · rcases brokenPlain works plain broke with rfl | rfl
    · exact ⟨now,fails may k _ (by simp)⟩
    · exact ⟨later,fails may k _ (by simp)⟩

theorem partWhole {β : Type} [Cell β] (cells : List β) : Part cells cells := by
  have whole : Part cells (cells.take cells.length) := .whole cells.length
  rwa [List.take_length] at whole

theorem endsWriteAt {file : FileId} {off : Nat} {cells : List (Stored W)}
    {Q : Except Stop Unit → σ → World W → Prop} (now : C s)
    (parts : ∀ part, Part cells part → C (s.on (s.disk.write file (.put off part))))
    (done : Q (.ok ()) st (s.on (s.disk.write file (.put off cells))))
    (fails : faults.fails (.writeAt file off cells) → ∀ k, Q (.error (.err (.io k))) st s ∧
      ∀ part, Part cells part → Q (.error (.err (.io k))) st (s.on (s.disk.write file (.put off part)))) :
    Act.ends (Step faults) C (io (.writeAt file off cells)) Q st s := by
  refine endsIo now (fun r s' worked => ?_) (fun may k s' broke => ?_)
  · obtain ⟨rfl,rfl⟩ := worked
    exact ⟨parts _ (partWhole _),done⟩
  · rcases broke with rfl | ⟨r,late⟩ | ⟨part,tears,rfl⟩
    · exact ⟨now,(fails may k).1⟩
    · obtain ⟨_,rfl⟩ := late
      exact ⟨parts _ (partWhole _),(fails may k).2 _ (partWhole _)⟩
    · exact ⟨parts _ tears,(fails may k).2 _ tears⟩

theorem renameWorks {src dst : String} {i : FileId} {r : Except IoKind Unit} {s' : World W}
    (bound : s.disk.dir src = some i) (worked : (IoCall.rename src dst).works faults s r s') :
    r = .ok () ∧ s' = s.on (s.disk.change (.move src dst i)) := by
  simp only [IoCall.works,bound] at worked
  exact worked

/- The states on the way of an atomic replacement, and the last of them. -/
def World.Replacing (s : World W) (name : String) (cells : List (Stored W)) (s' : World W) : Prop :=
  ∃ d, s.disk.Replacing (tmpName name) name cells d ∧ s' = s.on d

def World.replaced (s : World W) (name : String) (cells : List (Stored W)) : World W :=
  s.on (s.disk.replaced (tmpName name) name cells)

theorem endsReplace {name : String} {cells : List (Stored W)} {Q : Except Stop Unit → σ → World W → Prop}
    (onTheWay : ∀ s', s.Replacing name cells s' → C s') (done : Q (.ok ()) st (s.replaced name cells))
    (fails : faults.at (tmpName name) → ∀ k s', s.Replacing name cells s' → Q (.error (.err (.io k))) st s') :
    Act.ends (Step faults) C (writeFileAtomic name cells) Q st s := by
  have way : ∀ d, s.disk.Replacing (tmpName name) name cells d → C (s.on d) := fun d r => onTheWay _ ⟨d,r,rfl⟩
  have off : ∀ {c : IoCall W}, faults.fails c → (∀ f, c.file = some f → f.1 = tmpName name) →
      ∀ k d, Disk.Replacing (tmpName name) name cells s.disk d → Q (.error (.err (.io k))) st (s.on d) :=
    fun may apart k d r => fails ⟨_,may,apart⟩ k _ ⟨d,r,rfl⟩
  have bound : ((s.disk.drafted (tmpName name) cells).sync (s.disk.spare (tmpName name))).dir (tmpName name) =
      some (s.disk.spare (tmpName name)) := by
    change (s.disk.create (tmpName name)).dir (tmpName name) = _
    rw [Disk.createDir,if_pos rfl]
    rfl
  unfold writeFileAtomic
  refine Act.endsBind (endsPlain (fun _ _ h => h) (by simp) (way _ .before) (way _ .created) ?_
    (fun may k s' member => ?_))
  · refine Act.endsBind (endsWriteAt (way _ .created) (fun part tears => way _ (.drafted tears)) ?_
      (fun may k => ⟨?_,fun part tears => ?_⟩))
    · refine Act.endsBind (endsPlain (fun _ _ h => h) (by simp) (way _ (.drafted (partWhole _)))
        (way _ .synced) ?_ (fun may k s' member => ?_))
      · refine Act.endsBind (endsPlain (c := .rename (tmpName name) name) (v := ()) (fun r s' h => renameWorks bound h) (by simp)
          (way _ .synced) (way _ .moved) ?_ (fun may k s' member => ?_))
        · refine endsPlain (fun _ _ h => h) (by simp) (way _ .moved) (way _ .replaced) done
            (fun may k s' member => ?_)
          rcases List.mem_pair.mp member with rfl | rfl
          · exact off may (by simp [IoCall.file]) k _ .moved
          · exact off may (by simp [IoCall.file]) k _ .replaced
        · rcases List.mem_pair.mp member with rfl | rfl
          · exact off may (by simp [IoCall.file]) k _ .synced
          · exact off may (by simp [IoCall.file]) k _ .moved
      · rcases List.mem_pair.mp member with rfl | rfl
        · exact off may (by simp [IoCall.file]) k _ (.drafted (partWhole _))
        · exact off may (by simp [IoCall.file]) k _ .synced
    · exact off may (by simp [IoCall.file]) k _ .created
    · exact off may (by simp [IoCall.file]) k _ (.drafted tears)
  · rcases List.mem_pair.mp member with rfl | rfl
    · exact off may (by simp [IoCall.file]) k _ .before
    · exact off may (by simp [IoCall.file]) k _ .created

/-! The log writer. -/
theorem endsTry {c : IoCall W} {v : c.Value} {t : World W}
    {Q : Except Stop (Except IoKind c.Value) → σ → World W → Prop}
    (works : ∀ r s', c.works faults s r s' → r = .ok v ∧ s' = t)
    (plain : ∀ f cells off, c ≠ .append f cells ∧ c ≠ .writeAt f off cells)
    (now : C s) (later : C t) (done : Q (.ok (.ok v)) st t)
    (fails : faults.fails c → ∀ k, ∀ s' ∈ [s,t], Q (.ok (.error k)) st s') :
    Act.ends (Step faults) C (tryIo c) Q st s := by
  refine endsTryIo now (fun r s' worked => ?_) (fun may k s' broke => ?_)
  · obtain ⟨rfl,rfl⟩ := works r s' worked
    exact ⟨later,done⟩
  · rcases brokenPlain works plain broke with rfl | rfl
    · exact ⟨now,fails may k _ (by simp)⟩
    · exact ⟨later,fails may k _ (by simp)⟩

namespace WalWriter

def poisonedNow (w : WalWriter) : WalWriter := { w with poisoned := true }

def fsynced (w : WalWriter) : WalWriter := { w with sinceFsync := 0 }

/- After the write of a frame, before the policy is looked at again. -/
def appended (frame : Bytes) (w : WalWriter) : WalWriter :=
  { w with
    len := w.len + frame.length
    sinceFsync := match w.policy with
      | .everyN _ => w.sinceFsync + 1
      | _ => w.sinceFsync }

def due (w : WalWriter) : Bool :=
  match w.policy with
  | .everyBatch => true
  | .everyN n => w.sinceFsync + 1 ≥ max n 1
  | .onFlush => false

def emptied (w : WalWriter) : WalWriter := { w with len := 0, sinceFsync := 0 }

/- The log after the write of `frame`, or of a part of it. -/
def wrote (w : WalWriter) (s : World W) (part : List (Stored W)) : World W :=
  s.on (s.disk.write w.file (.put (s.disk.files w.file).content.length part))

def synced (w : WalWriter) (s : World W) : World W := s.on (s.disk.sync w.file)

def cut (w : WalWriter) (s : World W) : World W := s.on (s.disk.write w.file (.setLen 0))

variable {w : WalWriter} {frame : Bytes}

theorem endsPoison {k : IoKind} {Q : Except Stop α → WalWriter → World W → Prop} (now : C s)
    (done : Q (.error (.err (.io k))) w.poisonedNow s) :
    Act.ends (Step faults) C (poison k : Io W WalWriter α) Q w s := ⟨now,done⟩

theorem endsFsyncNow {Q : Except Stop Unit → WalWriter → World W → Prop} (now : C s) (later : C (w.synced s))
    (done : Q (.ok ()) w.fsynced (w.synced s))
    (fails : faults.fails (.syncAll w.file) → ∀ k, ∀ s' ∈ [s,w.synced s],
      Q (.error (.err (.io k))) w.poisonedNow s') :
    Act.ends (Step faults) C fsyncNow Q w s := by
  unfold fsyncNow
  rw [Act.endsGetBind]
  refine Act.endsBind (endsTry (c := .syncAll w.file) (v := ()) (t := w.synced s) (fun _ _ h => h) (by simp) now
    later ⟨later,done⟩
    (fun may k s' member => ?_))
  have left := fails may k s' member
  rcases List.mem_pair.mp member with rfl | rfl
  · exact endsPoison now left
  · exact endsPoison later left

/- The states on the way of an append. A write that fails may leave any part. -/
inductive Logging (w : WalWriter) (frame : Bytes) (s : World W) : World W → Prop where
  | before : Logging w frame s s
  | wrote {part : List (Stored W)} (tears : Part (asCells frame) part) : Logging w frame s (w.wrote s part)
  | synced : Logging w frame s (w.synced (w.wrote s (asCells frame)))

theorem endsAppend {Q : Except Stop Bool → WalWriter → World W → Prop}
    (onTheWay : ∀ s', Logging w frame s s' → C s')
    (kept : w.due = false → Q (.ok false) (w.appended frame) (w.wrote s (asCells frame)))
    (done : w.due = true → Q (.ok true) (w.appended frame).fsynced (w.synced (w.wrote s (asCells frame))))
    (fails : (∃ c, faults.fails c ∧ c.file = some w.file) → ∀ k len since s', Logging w frame s s' →
      Q (.error (.err (.io k))) { w with len := len, sinceFsync := since, poisoned := true } s') :
    Act.ends (Step faults) C (append frame) Q w s := by
  have full : Logging w frame s (w.wrote s (asCells frame)) := .wrote (partWhole _)
  have whole := onTheWay _ full
  have later := onTheWay _ .synced
  have sync : ∀ since, w.due = true → Act.ends (Step faults) C fsyncNow
      (Act.onward (Step faults) C (fun _ => (pure true : Io W WalWriter Bool)) Q)
      { w with len := w.len + frame.length, sinceFsync := since } (w.wrote s (asCells frame)) := by
    intro since must
    refine endsFsyncNow whole later ⟨later,done must⟩ (fun may k s' member => ?_)
    rcases List.mem_pair.mp member with rfl | rfl
    · exact fails ⟨_,may,rfl⟩ k _ _ _ full
    · exact fails ⟨_,may,rfl⟩ k _ _ _ .synced
  unfold append
  rw [Act.endsGetBind]
  refine Act.endsBind (endsTryIo (onTheWay _ .before) (fun r s' worked => ?_) (fun may k s' broke => ?_))
  · obtain ⟨rfl,rfl⟩ := worked
    refine ⟨whole,?_⟩
    change Act.ends (Step faults) C (Act.modify _ >>= _) Q w _
    rw [Act.endsModifyBind]
    obtain ⟨file,policy,since,poisoned,len⟩ := w
    cases policy with
    | onFlush => exact ⟨whole,kept rfl⟩
    | everyBatch => exact Act.endsBind (sync since rfl)
    | everyN n =>
      simp only [Act.endsModifyBind]
      split
      · exact Act.endsBind (sync (since + 1) (decide_eq_true (by assumption)))
      · exact ⟨whole,kept (decide_eq_false (by assumption))⟩
  · have left : Logging w frame s s' := by
      rcases broke with rfl | ⟨r,late⟩ | ⟨part,tears,rfl⟩
      · exact .before
      · obtain ⟨_,rfl⟩ := late
        exact full
      · exact .wrote tears
    exact ⟨onTheWay _ left,endsPoison (onTheWay _ left) (fails ⟨_,may,rfl⟩ k _ _ _ left)⟩

theorem endsFlush {Q : Except Stop Unit → WalWriter → World W → Prop} (now : C s)
    (refused : w.poisoned = true → Q (.error (.err .poisoned)) w s)
    (later : w.poisoned = false → C (w.synced s))
    (done : w.poisoned = false → Q (.ok ()) w.fsynced (w.synced s))
    (fails : faults.fails (.syncAll w.file) → ∀ k, ∀ s' ∈ [s,w.synced s],
      Q (.error (.err (.io k))) w.poisonedNow s') :
    Act.ends (Step faults) C flush Q w s := by
  unfold flush
  rw [Act.endsGetBind]
  split
  · exact ⟨now,refused (by assumption)⟩
  · have sound : w.poisoned = false := by simpa using ‹¬w.poisoned = true›
    exact endsFsyncNow now (later sound) (done sound) fails

theorem endsTruncate {Q : Except Stop Unit → WalWriter → World W → Prop} (now : C s)
    (refused : w.poisoned = true → Q (.error (.err .poisoned)) w s)
    (later : w.poisoned = false → C (w.cut s) ∧ C (w.synced (w.cut s)))
    (done : w.poisoned = false → Q (.ok ()) w.emptied (w.synced (w.cut s)))
    (fails : (∃ c, faults.fails c ∧ c.file = some w.file) → ∀ k len since,
      ∀ s' ∈ [s,w.cut s,w.synced (w.cut s)],
        Q (.error (.err (.io k))) { w with len := len, sinceFsync := since, poisoned := true } s') :
    Act.ends (Step faults) C truncate Q w s := by
  unfold truncate
  rw [Act.endsGetBind]
  split
  · exact ⟨now,refused (by assumption)⟩
  have sound : w.poisoned = false := by simpa using ‹¬w.poisoned = true›
  obtain ⟨short,flat⟩ := later sound
  refine Act.endsBind (endsTry (c := .setLen w.file 0) (v := ()) (t := w.cut s) (fun _ _ h => h) (by simp) now
    short ?_ (fun may k s' member => ?_))
  · refine Act.endsBind (endsTry (c := .seek w.file 0) (v := ()) (t := w.cut s) (fun _ _ h => h) (by simp) short
      short ?_ (fun may k s' member => ?_))
    · change Act.ends (Step faults) C (Act.modify _ >>= _) Q w _
      rw [Act.endsModifyBind]
      refine Act.endsBind (endsTry (c := .syncAll w.file) (v := ()) (t := w.synced (w.cut s)) (fun _ _ h => h)
        (by simp) short flat ⟨flat,done sound⟩ (fun may k s' member => ?_))
      rcases List.mem_pair.mp member with rfl | rfl
      · exact endsPoison short (fails ⟨_,may,rfl⟩ k _ _ _ (by simp))
      · exact endsPoison flat (fails ⟨_,may,rfl⟩ k _ _ _ (by simp))
    · obtain rfl : s' = w.cut s := by simpa using member
      exact endsPoison short (fails ⟨_,may,rfl⟩ k _ _ _ (by simp))
  · rcases List.mem_pair.mp member with rfl | rfl
    · exact endsPoison now (fails ⟨_,may,rfl⟩ k _ _ _ (by simp))
    · exact endsPoison short (fails ⟨_,may,rfl⟩ k _ _ _ (by simp))

end WalWriter

/-! The sidecar. -/
namespace CommitFile

def wrote (file : FileId) (h : CommitFile) (s : World W) (part : List (Stored W)) : World W :=
  s.on (s.disk.write file (.put h.nextSlot part))

def marked (file : FileId) (h : CommitFile) (rec : CommitRecord) (s : World W) : World W :=
  (wrote file h s [.slot rec]).on ((wrote file h s [.slot rec]).disk.sync file)

/- The states on the way of a stamp. -/
inductive Marking (file : FileId) (h : CommitFile) (rec : CommitRecord) (s : World W) : World W → Prop where
  | before : Marking file h rec s s
  | wrote {part : List (Stored W)} (tears : Part [.slot rec] part) : Marking file h rec s (wrote file h s part)
  | marked : Marking file h rec s (marked file h rec s)

theorem endsAdvance {file : FileId} {epoch mark : Nat} {h : CommitFile} {Q : Except Stop Unit → CommitFile → World W → Prop}
    (onTheWay : ∀ s', Marking file h (h.stamp epoch mark) s s' → C s')
    (done : Q (.ok ()) (advanced h) (marked file h (h.stamp epoch mark) s))
    (fails : (∃ c, faults.fails c ∧ c.file = some file) → ∀ k s', Marking file h (h.stamp epoch mark) s s' →
      Q (.error (.err (.io k))) h s') :
    Act.ends (Step faults) C (advance file epoch mark) Q h s := by
  have now := onTheWay _ .before
  have full : Marking file h (h.stamp epoch mark) s (wrote file h s [.slot (h.stamp epoch mark)]) := .wrote (partWhole _)
  unfold advance
  rw [Act.endsGetBind]
  refine Act.endsBind (endsPlain (c := .seek file h.nextSlot) (v := ()) (t := s) (fun _ _ h => h) (by simp) now now ?_
    (fun may k s' member => ?_))
  · refine Act.endsBind (endsWriteAt now (fun part tears => onTheWay _ (.wrote tears)) ?_ (fun may k => ⟨?_,fun part tears => ?_⟩))
    · refine Act.endsBind (endsPlain (c := .syncAll file) (v := ()) (fun _ _ h => h) (by simp) (onTheWay _ full)
        (onTheWay _ .marked) ⟨onTheWay _ .marked,done⟩ (fun may k s' member => ?_))
      rcases List.mem_pair.mp member with rfl | rfl
      · exact fails ⟨_,may,rfl⟩ k _ full
      · exact fails ⟨_,may,rfl⟩ k _ .marked
    · exact fails ⟨_,may,rfl⟩ k _ .before
    · exact fails ⟨_,may,rfl⟩ k _ (.wrote tears)
  · obtain rfl : s' = s := by simpa using member
    exact fails ⟨_,may,rfl⟩ k _ .before

end CommitFile

/-! The writer's share of both. -/
namespace Writer
variable {w : Writer W}

theorem endsOnWal {p : Io W WalWriter α} {Q : Except Stop α → Writer W → World W → Prop}
    (h : Act.ends (Step faults) C p (fun r wal s => Q r { w with wal := wal } s) w.wal s) :
    Act.ends (Step faults) C (onWal p) Q w s := Act.endsWithin h

def poisonedNow (w : Writer W) : Writer W := { w with wal := w.wal.poisonedNow }

def marked (w : Writer W) (mark : Nat) : Writer W := { w with commit := CommitFile.advanced w.commit, durableSeq := mark }

theorem endsAdvanceCommit {mark : Nat} {Q : Except Stop Unit → Writer W → World W → Prop}
    (onTheWay : ∀ s', CommitFile.Marking w.commitFile w.commit (w.commit.stamp w.epoch mark) s s' → C s')
    (done : Q (.ok ()) (w.marked mark) (CommitFile.marked w.commitFile w.commit (w.commit.stamp w.epoch mark) s))
    (fails : (∃ c, faults.fails c ∧ c.file = some w.commitFile) → ∀ k s',
      CommitFile.Marking w.commitFile w.commit (w.commit.stamp w.epoch mark) s s' →
      Q (.error (.err (.io k))) w.poisonedNow s') :
    Act.ends (Step faults) C (advanceCommit mark) Q w s := by
  unfold advanceCommit
  rw [Act.endsGetBind]
  refine Act.endsBind (Act.endsAttempt (Act.endsWithin (CommitFile.endsAdvance onTheWay ?_ (fun may k s' left => ?_))))
  · exact ⟨onTheWay _ .marked,done⟩
  · exact ⟨onTheWay _ left,fails may k s' left⟩

end Writer

end OrpheusGraph
