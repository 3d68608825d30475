import OrpheusGraph.Anchor
import OrpheusGraph.Timeline
import OrpheusGraph.Lib.Images

/-! What the log, the sidecar and the MANIFEST may show after an interruption at any moment, against
the timeline of the batches that were written. -/
namespace OrpheusGraph
open Storage Effects
variable {W : Type}

/- The graph that each snapshot was made of, by its sequence number and compaction. -/
abbrev Ledger (W : Type) := Nat → Nat → GraphAccessor W

/- The snapshots a MANIFEST may name lie between `floor` and `ceil`, the marks of the sidecar between
`low` and `high`; whatever the log shows is right above `floor` and up to `high`. -/
structure Marks where
  floor : Nat
  ceil : Nat
  low : Nat
  high : Nat

section standing
variable (loss : Prop) (pk : Packages W) (ledger : Ledger W) (t : Timeline W) (k : Marks)

/- While power can fail no MANIFEST is left behind a batch. -/
structure Fits (m : Manifest) : Prop where
  version : m.formatVersion = 3
  floor : k.floor ≤ m.snapshotSeq
  ceil : m.snapshotSeq ≤ k.ceil
  ends : loss → m.snapshotSeq = t.start ∨ m.snapshotSeq = t.top
  high : m.highSeq ≤ max k.low m.snapshotSeq
  graph : SameGraph (ledger m.snapshotSeq m.compactionId) (t.view pk (m.snapshotSeq - t.start))

structure Logs (cells : List (Stored W)) (recs : List (WalRecord W)) (tail : Bytes) : Prop where
  bytes : cells = asCells (frames pk.codec recs ++ tail)
  torn : Torn pk.codec tail
  fits : ∀ rec ∈ recs, Encodable pk.codec rec
  increasing : recs.Pairwise (fun a b => a.seq < b.seq)
  right : window k.floor k.high recs = window k.floor k.high t.records

def Finds (low high : Nat) (cells : List (Stored W)) : Prop :=
  ∃ rec slot, Holds Stored.slotLayout cells rec slot ∧ low ≤ rec.committedSeq ∧ rec.committedSeq ≤ high

/- No mark that may be found is above the one that is there. -/
structure Stamped (f : File (Stored W)) (rec : CommitRecord) (slot : Nat) : Prop where
  holds : Holds Stored.slotLayout f.content rec slot
  high : rec.committedSeq ≤ k.high
  left : ∀ cells, Left loss f cells → Finds k.low rec.committedSeq cells

structure Standing (d : StoreDisk W) : Prop where
  start : t.start ≤ k.floor
  ceil : k.ceil ≤ t.top
  high : k.high ≤ t.top
  manifest : d.Firm loss (tmpName manifestName) manifestName
    (fun o => ∃ m, o = some (manifestCells pk m) ∧ Fits loss pk ledger t k m)
  log : ∃ i, i.1 = walName ∧ d.Fixed loss walName i ∧
    ∀ cells, Left loss (d.files i) cells → ∃ recs tail, Logs pk t k cells recs tail
  sidecar : ∃ i, i.1 = commitName ∧ d.Fixed loss commitName i ∧ ∃ rec slot, Stamped loss k (d.files i) rec slot

end standing

theorem storedLawful : (Stored.slotLayout : SlotLayout (Stored W)).Lawful (fun _ => True) where
  returns _ _ := rfl
  blank := rfl
  torn c c' harm := by
    cases c with
    | byte b => exact harm.elim
    | slot rec =>
      cases show c' = .torn from harm
      rfl
    | graph sg =>
      cases show c' = .torn from harm
      rfl
    | torn =>
      cases show c' = .torn from harm
      rfl

section moves
variable {loss : Prop} {pk : Packages W} {ledger : Ledger W} {t : Timeline W} {k : Marks} {d d' : StoreDisk W}

theorem Standing.logged (h : Standing loss pk ledger t k d) {i : FileId} (bound : d.dir walName = some i) {cells : List (Stored W)}
    (left : Left loss (d.files i) cells) : ∃ recs tail, Logs pk t k cells recs tail := by
  obtain ⟨i',_,fixed,logs⟩ := h.log
  cases Option.some.inj (bound.symm.trans fixed.dir)
  exact logs cells left

theorem Standing.stamped (h : Standing loss pk ledger t k d) {j : FileId} (bound : d.dir commitName = some j) :
    ∃ rec slot, Stamped loss k (d.files j) rec slot := by
  obtain ⟨j',_,fixed,stamped⟩ := h.sidecar
  cases Option.some.inj (bound.symm.trans fixed.dir)
  exact stamped

/-! Another way to look at the same disk. -/
theorem Standing.map (h : Standing loss pk ledger t k d) {ledger' : Ledger W} {t' : Timeline W} {l : Marks}
    (start : t'.start ≤ l.floor) (ceil : l.ceil ≤ t'.top) (high : l.high ≤ t'.top)
    (manifest : ∀ m, Fits loss pk ledger t k m → Fits loss pk ledger' t' l m)
    (log : ∀ cells recs tail, Logs pk t k cells recs tail → Logs pk t' l cells recs tail)
    (mark : ∀ (f : File (Stored W)) rec slot, Stamped loss k f rec slot → Stamped loss l f rec slot) : Standing loss pk ledger' t' l d := by
  obtain ⟨i,which,fixed,logs⟩ := h.log
  obtain ⟨j,side,bound,rec,slot,stamped⟩ := h.sidecar
  refine ⟨start,ceil,high,h.manifest.mono (fun o some => ?_),⟨i,which,fixed,fun cells left => ?_⟩,
    ⟨j,side,bound,rec,slot,mark _ _ _ stamped⟩⟩
  · obtain ⟨m,same,fits⟩ := some
    exact ⟨m,same,manifest m fits⟩
  · obtain ⟨recs,tail,shown⟩ := logs cells left
    exact ⟨recs,tail,log cells recs tail shown⟩

theorem Fits.grown {m : Manifest} (fits : Fits loss pk ledger t k m) (more : List (Op W)) (level : loss → k.ceil ≤ t.start)
    (start : t.start ≤ k.floor) (ceil : k.ceil ≤ t.top) : Fits loss pk ledger (t.grown more) k m := by
  refine ⟨fits.version,fits.floor,fits.ceil,fun may => .inl ?_,fits.high,?_⟩
  · exact Nat.le_antisymm (fits.ceil.trans (level may)) (start.trans fits.floor)
  · have inside : m.snapshotSeq - t.start ≤ t.batches.length := by
      have below := fits.ceil
      unfold Timeline.top at ceil
      omega
    change SameGraph _ ((t.grown more).view pk (m.snapshotSeq - t.start))
    rw [Timeline.grownView t more inside]
    exact fits.graph

theorem Logs.grown {cells : List (Stored W)} {recs : List (WalRecord W)} {tail : Bytes} (logs : Logs pk t k cells recs tail)
    (more : List (Op W)) (high : k.high ≤ t.top) : Logs pk (t.grown more) k cells recs tail := by
  refine ⟨logs.bytes,logs.torn,logs.fits,logs.increasing,?_⟩
  rw [logs.right,Timeline.grownRecords,windowAppend,windowLate (Nat.lt_succ_of_le high),List.append_nil]

theorem Standing.grown (h : Standing loss pk ledger t k d) (more : List (Op W)) (level : loss → k.ceil ≤ t.start) :
    Standing loss pk ledger (t.grown more) k d := by
  have top := Timeline.grownTop t more
  exact h.map h.start (top ▸ h.ceil.trans (Nat.le_succ _)) (top ▸ h.high.trans (Nat.le_succ _))
    (fun _ fits => fits.grown more level h.start h.ceil) (fun _ _ _ logs => logs.grown more h.high) (fun _ _ _ stamped => stamped)

/- A shorter stretch of the log, or none. -/
theorem Logs.narrow {cells : List (Stored W)} {recs : List (WalRecord W)} {tail : Bytes} (logs : Logs pk t k cells recs tail)
    {l : Marks} (floor : k.floor ≤ l.floor) (high : l.high ≤ k.high ∨ l.high ≤ l.floor) : Logs pk t l cells recs tail := by
  refine ⟨logs.bytes,logs.torn,logs.fits,logs.increasing,?_⟩
  rcases high with less | none_between
  · rw [← windowNarrow floor less,logs.right,windowNarrow floor less]
  · rw [windowNone (fun rec _ => by omega),windowNone (fun rec _ => by omega)]

theorem Fits.wider {m : Manifest} (fits : Fits loss pk ledger t k m) {l : Marks} (floor : l.floor ≤ k.floor)
    (ceil : k.ceil ≤ l.ceil) (low : k.low ≤ l.low) : Fits loss pk ledger t l m :=
  ⟨fits.version,floor.trans fits.floor,fits.ceil.trans ceil,fits.ends,fits.high.trans (max_le_max_right _ low),fits.graph⟩

theorem Stamped.higher {f : File (Stored W)} {rec : CommitRecord} {slot : Nat} (s : Stamped loss k f rec slot) {l : Marks}
    (low : l.low ≤ k.low) (high : rec.committedSeq ≤ l.high) : Stamped loss l f rec slot := by
  refine ⟨s.holds,high,fun cells left => ?_⟩
  obtain ⟨rec',slot',holds,above,below⟩ := s.left cells left
  exact ⟨rec',slot',holds,low.trans above,below⟩

/-! What is done to the disk. -/
theorem Standing.relog (h : Standing loss pk ledger t k d) {i : FileId} (bound : d.dir walName = some i) {l : Marks}
    (same : l.floor = k.floor ∧ l.ceil = k.ceil ∧ l.low = k.low) (high : k.high ≤ l.high) (top : l.high ≤ t.top)
    {f : File (Stored W)} (logs : ∀ cells, Left loss f cells → ∃ recs tail, Logs pk t l cells recs tail) :
    Standing loss pk ledger t l (d.setFile i f) := by
  obtain ⟨floor,ceil,low⟩ := same
  obtain ⟨i',which,fixed,_⟩ := h.log
  cases Option.some.inj (bound.symm.trans fixed.dir)
  obtain ⟨j,side,other,rec,slot,stamped⟩ := h.sidecar
  have apart : j ≠ i := fun same => absurd (side.symm.trans ((congrArg Prod.fst same).trans which)) (by decide)
  refine ⟨floor ▸ h.start,ceil ▸ h.ceil,top,(h.manifest.mono (fun o some => ?_)).setFile f (fileApart (.inl which) _),
    ⟨i,which,fixed,fun cells left => ?_⟩,⟨j,side,other,rec,slot,?_⟩⟩
  · obtain ⟨m,text,fits⟩ := some
    exact ⟨m,text,fits.wider floor.le ceil.ge low.ge⟩
  · rw [Disk.setFileSame] at left
    exact logs cells left
  · rw [Disk.setFileOther f apart]
    exact stamped.higher low.le (stamped.high.trans high)

theorem Standing.remark (h : Standing loss pk ledger t k d) {j : FileId} (bound : d.dir commitName = some j) {l : Marks}
    (same : l.floor = k.floor ∧ l.ceil = k.ceil ∧ l.high = k.high) (low : k.low ≤ l.low)
    {f : File (Stored W)} {rec : CommitRecord} {slot : Nat} (stamped : Stamped loss l f rec slot) :
    Standing loss pk ledger t l (d.setFile j f) := by
  obtain ⟨floor,ceil,high⟩ := same
  obtain ⟨j',side,fixed,_⟩ := h.sidecar
  cases Option.some.inj (bound.symm.trans fixed.dir)
  obtain ⟨i,which,other,logs⟩ := h.log
  have apart : i ≠ j := fun same => absurd (which.symm.trans ((congrArg Prod.fst same).trans side)) (by decide)
  refine ⟨floor ▸ h.start,ceil ▸ h.ceil,high ▸ h.high,(h.manifest.mono (fun o some => ?_)).setFile f (fileApart (.inr side) _),
    ⟨i,which,other,fun cells left => ?_⟩,⟨j,side,fixed,rec,slot,?_⟩⟩
  · obtain ⟨m,text,fits⟩ := some
    exact ⟨m,text,fits.wider floor.le ceil.ge low⟩
  · rw [Disk.setFileOther f apart] at left
    obtain ⟨recs,tail,shown⟩ := logs cells left
    exact ⟨recs,tail,shown.narrow floor.ge (.inl high.le)⟩
  · rw [Disk.setFileSame]
    exact stamped

theorem Standing.syncDir (h : Standing loss pk ledger t k d) : Standing loss pk ledger t k d.syncDir := by
  obtain ⟨i,which,fixed,logs⟩ := h.log
  obtain ⟨j,side,bound,stamped⟩ := h.sidecar
  exact ⟨h.start,h.ceil,h.high,h.manifest.syncDir,⟨i,which,Disk.fixedSyncDir fixed.dir,logs⟩,
    ⟨j,side,Disk.fixedSyncDir bound.dir,stamped⟩⟩

theorem Standing.unlink (h : Standing loss pk ledger t k d) {name : String} (manifest : name ≠ manifestName)
    (log : name ≠ walName) (sidecar : name ≠ commitName) : Standing loss pk ledger t k (d.change (.unlink name)) := by
  obtain ⟨i,which,fixed,logs⟩ := h.log
  obtain ⟨j,side,bound,stamped⟩ := h.sidecar
  exact ⟨h.start,h.ceil,h.high,h.manifest.change (if_neg manifest.symm),⟨i,which,fixed.change (if_neg log.symm),logs⟩,
    ⟨j,side,bound.change (if_neg sidecar.symm),stamped⟩⟩

theorem Standing.replacing (h : Standing loss pk ledger t k d) {name : String} {cells : List (Stored W)}
    (way : Disk.Replacing (tmpName name) name cells d d') (log : name ≠ walName) (sidecar : name ≠ commitName)
    (apart : manifestName ≠ tmpName name)
    (manifest : name = manifestName → ∃ m, cells = manifestCells pk m ∧ Fits loss pk ledger t k m) :
    Standing loss pk ledger t k d' := by
  obtain ⟨i,which,fixed,logs⟩ := h.log
  obtain ⟨j,side,bound,stamped⟩ := h.sidecar
  have spare : ∀ {f : FileId}, f.1 ≠ tmpName name → d'.files f = d.files f := fun other =>
    Disk.replacingFiles way (fun same => other (by rw [same]; rfl))
  refine ⟨h.start,h.ceil,h.high,h.manifest.replacing way apart (fun same => ?_),⟨i,which,?_,?_⟩,⟨j,side,?_,?_⟩⟩
  · obtain ⟨m,text,fits⟩ := manifest same.symm
    exact ⟨by rw [same],m,congrArg some text,fits⟩
  · exact fixed.replacing way (tmpNameApart (by decide)).symm log.symm
  · rw [spare (which ▸ (tmpNameApart (by decide)).symm)]
    exact logs
  · exact bound.replacing way (tmpNameApart (by decide)).symm sidecar.symm
  · rw [spare (side ▸ (tmpNameApart (by decide)).symm)]
    exact stamped

/- With the new MANIFEST in place only it needs to fit. -/
theorem Standing.replaced (h : Standing loss pk ledger t k d) {m : Manifest} {l : Marks} (fits : Fits loss pk ledger t l m)
    (start : t.start ≤ l.floor) (ceil : l.ceil ≤ t.top) (high : l.high ≤ t.top) (floor : k.floor ≤ l.floor)
    (low : l.low ≤ k.low) (above : k.high ≤ l.high) (right : l.high ≤ k.high ∨ l.high ≤ l.floor) :
    Standing loss pk ledger t l (d.replaced (tmpName manifestName) manifestName (manifestCells pk m)) := by
  have way : Disk.Replacing (tmpName manifestName) manifestName (manifestCells pk m) d _ := .replaced
  obtain ⟨i,which,fixed,logs⟩ := h.log
  obtain ⟨j,side,bound,rec,slot,stamped⟩ := h.sidecar
  have spare : ∀ {f : FileId}, f.1 ≠ tmpName manifestName →
      (d.replaced (tmpName manifestName) manifestName (manifestCells pk m)).files f = d.files f := fun other =>
    Disk.replacingFiles way (fun same => other (by rw [same]; rfl))
  refine ⟨start,ceil,high,Disk.firmReplaced ⟨m,rfl,fits⟩,⟨i,which,?_,fun cells left => ?_⟩,⟨j,side,?_,rec,slot,?_⟩⟩
  · exact fixed.replacing way (tmpNameApart (by decide)).symm (by decide)
  · rw [spare (which ▸ (tmpNameApart (by decide)).symm)] at left
    obtain ⟨recs,tail,shown⟩ := logs cells left
    exact ⟨recs,tail,shown.narrow floor right⟩
  · exact bound.replacing way (tmpNameApart (by decide)).symm (by decide)
  · rw [spare (side ▸ (tmpNameApart (by decide)).symm)]
    exact stamped.higher low (stamped.high.trans above)

theorem Standing.powerLoss (h : Standing loss pk ledger t k d) (may : loss) (lost : d.PowerLoss d') :
    Standing loss pk ledger t k d' := by
  obtain ⟨i,which,fixed,logs⟩ := h.log
  obtain ⟨j,side,bound,rec,slot,stamped⟩ := h.sidecar
  have survived : ∀ {f cells}, Left loss (d'.files f) cells → Left loss (d.files f) cells := by
    intro f cells left
    rcases left with rfl | ⟨_,survives⟩
    · exact .inr ⟨may,lost.survives (survivesContent _)⟩
    · exact .inr ⟨may,lost.survives survives⟩
  refine ⟨h.start,h.ceil,h.high,h.manifest.powerLoss may lost,⟨i,which,fixed.powerLoss may lost,
    fun cells left => logs cells (survived left)⟩,⟨j,side,bound.powerLoss may lost,?_⟩⟩
  obtain ⟨rec',slot',holds,low,high⟩ := stamped.left _ (survived (.inl rfl))
  refine ⟨rec',slot',holds,high.trans stamped.high,fun cells left => ?_⟩
  rcases left with rfl | ⟨_,survives⟩
  · exact ⟨rec',slot',holds,low,Nat.le_refl _⟩
  · have flat : d'.files j = (d'.files j).flushed := by
      rw [File.flushed,File.content,lost.writes j,List.foldl_nil,← lost.writes j]
    rw [flat] at survives
    exact ⟨rec',slot',survivesFlushed survives ▸ holds,low,Nat.le_refl _⟩

end moves

/-! The sidecar: one more stamp, or a part of it. -/
section stamps
variable {loss : Prop} {k : Marks} {f : File (Stored W)} {rec next : CommitRecord} {slot : Nat}

theorem partOfSlot {part : List (Stored W)} (tears : Part [.slot next] part) :
    part = [] ∨ part = [.torn] ∨ part = [.slot next] := by
  cases tears with
  | whole n => cases n with
    | zero => exact .inl rfl
    | succ n => exact .inr (.inr (by simp))
  | @harmed n c c' read harm =>
    cases n with
    | zero =>
      obtain rfl : Stored.slot next = c := by simpa using read
      exact .inr (.inl (by rw [show c' = .torn from harm]; rfl))
    | succ n => simp at read

/- What is found after it: the old record or the new one. -/
theorem Holds.stamping {cells part : List (Stored W)} (holds : Holds Stored.slotLayout cells rec slot)
    (newer : next.gen = rec.gen + 1) (tears : Part [.slot next] part) :
    Holds Stored.slotLayout ((Write.put (1 - slot) part).apply cells) rec slot ∨
      Holds Stored.slotLayout ((Write.put (1 - slot) part).apply cells) next (1 - slot) := by
  rcases partOfSlot tears with rfl | rfl | rfl
  · exact .inl (holds.untouched storedLawful _)
  · exact .inl (holds.spoiled storedLawful rfl)
  · exact .inr (holds.replaced storedLawful rfl newer)

/- A part of a part. -/
theorem tornSlot {part : List (Stored W)} (spoiled : part = [] ∨ part = [.torn]) {part' : List (Stored W)}
    (tears : Part part part') : part' = [] ∨ part' = [.torn] := by
  rcases spoiled with rfl | rfl
  · cases tears with
    | whole n => exact .inl (List.take_nil)
    | harmed read harm => simp at read
  · cases tears with
    | whole n => cases n with
      | zero => exact .inl rfl
      | succ n => exact .inr (by simp)
    | @harmed n c c' read harm =>
      cases n with
      | zero =>
        obtain rfl : Stored.torn = c := by simpa using read
        exact .inr (by rw [show c' = .torn from harm]; rfl)
      | succ n => simp at read

theorem Stamped.put (s : Stamped loss k f rec slot) (newer : next.gen = rec.gen + 1)
    (onward : rec.committedSeq ≤ next.committedSeq) (high : next.committedSeq ≤ k.high) {part : List (Stored W)}
    (tears : Part [.slot next] part) : ∃ rec' slot', Stamped loss k (f.push (.put (1 - slot) part)) rec' slot' := by
  have holds := s.holds
  obtain ⟨rec',slot',here,low,_⟩ := s.left f.content (.inl rfl)
  obtain ⟨rfl,rfl⟩ := holds.unique here
  have found : ∀ {cells : List (Stored W)}, Holds Stored.slotLayout cells rec slot → Finds k.low rec.committedSeq cells :=
    fun here => ⟨_,_,here,low,Nat.le_refl _⟩
  have later : ∀ {cells : List (Stored W)}, Finds k.low rec.committedSeq cells → Finds k.low next.committedSeq cells := by
    rintro cells ⟨rec',slot',here,above,below⟩
    exact ⟨rec',slot',here,above,below.trans onward⟩
  have stays : ∀ {part : List (Stored W)}, part = [] ∨ part = [.torn] →
      Holds Stored.slotLayout ((Write.put (1 - slot) part).apply f.content) rec slot := by
    rintro part (rfl | rfl)
    · exact holds.untouched storedLawful _
    · exact holds.spoiled storedLawful rfl
  have kept : ∀ {part : List (Stored W)}, part = [] ∨ part = [.torn] →
      Stamped loss k (f.push (.put (1 - slot) part)) rec slot := by
    intro part spoiled
    refine ⟨by rw [contentPush]; exact stays spoiled,s.high,fun cells left => ?_⟩
    rcases leftPush left with old | rfl | ⟨off,whole,part',same,again,rfl⟩
    · exact s.left cells old
    · exact found (stays spoiled)
    · obtain ⟨rfl,rfl⟩ := Write.put.inj same
      exact found (stays (tornSlot spoiled again))
  rcases partOfSlot tears with spoiled | spoiled | rfl
  · exact ⟨rec,slot,kept (.inl spoiled)⟩
  · exact ⟨rec,slot,kept (.inr spoiled)⟩
  have whole := holds.replaced (c := Stored.slot next) storedLawful rfl newer
  refine ⟨next,1 - slot,by rw [contentPush]; exact whole,high,fun cells left => ?_⟩
  rcases leftPush left with old | rfl | ⟨off,all,part',same,again,rfl⟩
  · exact later (s.left cells old)
  · exact ⟨next,1 - slot,whole,low.trans onward,Nat.le_refl _⟩
  · obtain ⟨rfl,rfl⟩ := Write.put.inj same
    rcases Holds.stamping holds newer again with old | new
    · exact later (found old)
    · exact ⟨next,1 - slot,new,low.trans onward,Nat.le_refl _⟩

/- A stamp that is synced is the lowest that can be found. -/
theorem stampedFlushed (holds : Holds Stored.slotLayout f.content next slot) {l : Marks} (low : l.low ≤ next.committedSeq)
    (high : next.committedSeq ≤ l.high) : Stamped loss l f.flushed next slot := by
  refine ⟨holds,high,fun cells left => ?_⟩
  rw [leftFlushed left]
  exact ⟨next,slot,holds,low,Nat.le_refl _⟩

end stamps

/-! The log of a live handle: whole frames, up to the last batch. -/
structure Exactly (pk : Packages W) (t : Timeline W) (floor : Nat) (cells : List (Stored W)) (recs : List (WalRecord W)) : Prop where
  bytes : cells = asCells (frames pk.codec recs)
  fits : ∀ rec ∈ recs, Encodable pk.codec rec
  increasing : recs.Pairwise (fun a b => a.seq < b.seq)
  below : ∀ rec ∈ recs, rec.seq ≤ t.top
  right : window floor t.top recs = window floor t.top t.records

section appends
variable {loss : Prop} {pk : Packages W} {t : Timeline W} {k : Marks} {f : File (Stored W)} {cells : List (Stored W)}
  {recs : List (WalRecord W)}

theorem tornNothing (codec : Codec W) : Torn codec [] := .inl (if_pos rfl)

theorem cellsAppend (xs ys : Bytes) : (asCells (xs ++ ys) : List (Stored W)) = asCells xs ++ asCells ys := List.map_append

/- No byte is half written. -/
theorem partOfBytes {bytes : Bytes} {part : List (Stored W)} (tears : Part (asCells bytes) part) :
    ∃ front back, bytes = front ++ back ∧ part = asCells front := by
  cases tears with
  | whole n => exact ⟨bytes.take n,bytes.drop n,(List.take_append_drop n bytes).symm,List.map_take.symm⟩
  | harmed read harm =>
    rw [asCells,List.getElem?_map,Option.map_eq_some_iff] at read
    obtain ⟨b,_,rfl⟩ := read
    exact harm.elim

theorem Exactly.logs (e : Exactly pk t k.floor cells recs) (high : k.high ≤ t.top) : Logs pk t k cells recs [] := by
  refine ⟨by rw [List.append_nil,e.bytes],tornNothing _,e.fits,e.increasing,?_⟩
  rw [← windowNarrow (Nat.le_refl k.floor) high,e.right,windowNarrow (Nat.le_refl _) high]

theorem Exactly.joined {floor : Nat} (e : Exactly pk t floor cells recs) {more : List (Op W)}
    (fits : Encodable pk.codec ⟨t.top + 1,more⟩) :
    (∀ rec ∈ recs ++ [⟨t.top + 1,more⟩], Encodable pk.codec rec) ∧
      (recs ++ [(⟨t.top + 1,more⟩ : WalRecord W)]).Pairwise (fun a b => a.seq < b.seq) := by
  constructor
  · intro rec member
    rcases List.mem_append.mp member with old | new
    · exact e.fits rec old
    · exact List.mem_singleton.mp new ▸ fits
  · refine List.pairwise_append.mpr ⟨e.increasing,List.pairwise_singleton _ _,fun a old b new => ?_⟩
    cases List.mem_singleton.mp new
    exact Nat.lt_succ_of_le (e.below a old)

/- What a part of the next frame adds. -/
theorem Exactly.torn (e : Exactly pk t k.floor cells recs) {more : List (Op W)} (fits : Encodable pk.codec ⟨t.top + 1,more⟩)
    (high : k.high ≤ t.top) {front back : Bytes} (split : frame pk.codec ⟨t.top + 1,more⟩ = front ++ back) :
    ∃ recs' tail, Logs pk t k (cells ++ asCells front) recs' tail := by
  have right : window k.floor k.high recs = window k.floor k.high t.records := (e.logs high).right
  rw [e.bytes,← cellsAppend]
  cases back with
  | nil =>
    rw [List.append_nil] at split
    obtain ⟨all,sorted⟩ := e.joined fits
    have bytes : frames pk.codec (recs ++ [⟨t.top + 1,more⟩]) = frames pk.codec recs ++ front := by
      rw [framesJoin,← split,frames,frames,List.flatMap_singleton]
    refine ⟨recs ++ [⟨t.top + 1,more⟩],[],by rw [List.append_nil,bytes],tornNothing _,all,sorted,?_⟩
    rw [windowAppend,right,windowLate (Nat.lt_succ_of_le high),List.append_nil]
  | cons b back => exact ⟨recs,front,rfl,tornOfCut fits split (by simp),e.fits,e.increasing,right⟩

theorem Exactly.leftPut (e : Exactly pk t k.floor f.content recs) {more : List (Op W)} (fits : Encodable pk.codec ⟨t.top + 1,more⟩)
    (high : k.high ≤ t.top) (before : ∀ cells, Left loss f cells → ∃ recs tail, Logs pk t k cells recs tail)
    {part : List (Stored W)} (tears : Part (asCells (frame pk.codec ⟨t.top + 1,more⟩)) part) {cells : List (Stored W)}
    (left : Left loss (f.push (.put f.content.length part)) cells) : ∃ recs tail, Logs pk t k cells recs tail := by
  obtain ⟨front,back,split,rfl⟩ := partOfBytes tears
  rcases leftPush left with old | rfl | ⟨off,whole,part,same,again,rfl⟩
  · exact before cells old
  · rw [putEnd]
    exact e.torn fits high split
  · obtain ⟨rfl,rfl⟩ := Write.put.inj same
    obtain ⟨front',back',split',rfl⟩ := partOfBytes again
    rw [putEnd]
    exact e.torn fits high (by rw [split,split',List.append_assoc])

theorem Exactly.put {floor : Nat} (e : Exactly pk t floor cells recs) {more : List (Op W)}
    (fits : Encodable pk.codec ⟨t.top + 1,more⟩) :
    Exactly pk (t.grown more) floor ((Write.put cells.length (asCells (frame pk.codec ⟨t.top + 1,more⟩))).apply cells)
      (recs ++ [⟨t.top + 1,more⟩]) := by
  obtain ⟨all,sorted⟩ := e.joined fits
  have top := Timeline.grownTop t more
  refine ⟨?_,all,sorted,fun rec member => ?_,?_⟩
  · rw [putEnd,framesJoin,cellsAppend,e.bytes]
    congr 2
    rw [frames,List.flatMap_singleton]
  · rcases List.mem_append.mp member with old | new
    · have below := e.below rec old
      omega
    · cases List.mem_singleton.mp new
      exact top.ge
  · have ahead : ∀ {rs : List (WalRecord W)}, (∀ rec ∈ rs, rec.seq ≤ t.top) →
        window floor (t.top + 1) rs = window floor t.top rs := by
      intro rs below
      refine List.filter_congr (fun rec member => ?_)
      rw [decide_eq_decide]
      have last := below rec member
      omega
    have records : ∀ rec ∈ t.records, rec.seq ≤ t.top := fun rec member => (followingRange member).2
    rw [top,windowAppend,Timeline.grownRecords,windowAppend,ahead e.below,ahead records,e.right]

/- An emptied log above a floor that nothing is above. -/
theorem exactlyEmpty (pk : Packages W) {floor : Nat} (top : t.top ≤ floor) : Exactly pk t floor [] [] := by
  refine ⟨rfl,fun _ bad => (nomatch bad),.nil,fun _ bad => (nomatch bad),?_⟩
  rw [windowNone (fun rec _ => by omega),windowNone (fun rec _ => by omega)]

end appends
end OrpheusGraph
