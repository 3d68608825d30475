import OrpheusGraph.Reopening

/-! What a store shows when it is opened after an interruption, against what its readers had been
shown before. -/
namespace OrpheusGraph
open Storage Effects
variable {W : Type} {loss : Prop} {pk : Packages W} {D : Known W} {ledger : Ledger W} {t : Timeline W} {k : Marks} {hi : Nat} {s s' : World W}

/- What readers were shown last under the number, or the last of all with one more batch, one that was
asked for and accepted. -/
def Recalls (pk : Packages W) (asked : List (Op W) → Prop) (published : List (GraphState W)) (n : Nat) (a : GraphAccessor W) : Prop :=
  (∃ g, latest n published = some g ∧ SameGraph a (g.view pk)) ∨
    ∃ g, published.getLast? = some g ∧ n = g.seq + 1 ∧ Onward pk asked g a

theorem Recalls.same {asked : List (Op W) → Prop} {published : List (GraphState W)} {n : Nat} {a b : GraphAccessor W}
    (recalls : Recalls pk asked published n b) (same : SameGraph a b) : Recalls pk asked published n a := by
  rcases recalls with ⟨g,found,shown⟩ | ⟨g,last,seq,ops,next,within,accepted,shown⟩
  · exact .inl ⟨g,found,same.trans shown⟩
  · exact .inr ⟨g,last,seq,ops,next,within,accepted,same.trans shown⟩

theorem Told.recalls {lo : Nat} {published : List (GraphState W)} (told : Told loss pk D t lo hi published) {n : Nat} (above : lo ≤ n)
    (below : n ≤ t.top) : Recalls pk D.asked published n (t.view pk (n - t.start)) := by
  rcases Nat.lt_or_ge hi n with beyond | within
  · obtain ⟨g,last,seq,top⟩ := told.last
    rcases top with same | ⟨more,onward⟩
    · omega
    · obtain rfl : n = t.top := by omega
      rw [show t.top - t.start = t.batches.length from Nat.add_sub_cancel_left ..]
      exact .inr ⟨g,last,by omega,onward⟩
  · obtain ⟨g,found,same⟩ := told.shown n above within
    exact .inl ⟨g,found,same.symm⟩

/- A state that a recovery may come to. It has a snapshot of some earlier moment, `xs` after a base
that was served then, with `ys` replayed from the log. -/
structure Regains (pk : Packages W) (asked : List (Op W) → Prop) (published : List (GraphState W)) (g : GraphState W) : Prop where
  bound : ∃ last, published.getLast? = some last ∧ g.seq ≤ last.seq + 1
  graph : ∃ (b : GraphAccessor W) (xs ys : List (Op W)),
    SameGraph (g.base.asAccessor pk) (deltaAccessor b (.replay .new b xs)) ∧
    g.delta = .replay .new (g.base.asAccessor pk) ys ∧
    Recalls pk asked published g.seq (deltaAccessor b (.replay .new b (xs ++ ys))) ∧
    (edgeAdds (xs ++ ys) ≤ 2^32 →
      (SameGraph (g.view pk) (deltaAccessor b (.replay .new b (xs ++ ys))) ↔ NoEdgeReturns b xs ys))

section located
variable {m : Manifest} {base : BaseGraph W} {walFile commitFile : FileId} {rec : CommitRecord} {handle : CommitFile} {r : Replay W}

theorem Located.above (loc : Located loss pk ledger t k s m base walFile commitFile rec handle r) :
    max k.low k.floor ≤ (k.found m rec).high :=
  Nat.max_le.mpr ⟨loc.low,loc.fits.floor.trans (Nat.le_max_right _ _)⟩

theorem Located.top (loc : Located loss pk ledger t k s m base walFile commitFile rec handle r) (disk : Standing loss pk ledger t k s.disk) :
    (k.found m rec).high ≤ t.top := by
  obtain ⟨slot,stamped,_⟩ := loc.mark
  exact disk.foundTop loc.fits stamped

theorem Located.view (loc : Located loss pk ledger t k s m base walFile commitFile rec handle r) (mode : BaseMode) (epoch : Nat) :
    (reopened mode m base walFile commitFile rec handle r epoch).state.view pk =
      (t.between base m.snapshotSeq (k.found m rec).high).view pk (t.between base m.snapshotSeq (k.found m rec).high).batches.length := by
  rw [Timeline.view]
  change deltaAccessor (base.asAccessor pk) r.delta = _
  rw [loc.delta]
  rfl

theorem Located.proper (loc : Located loss pk ledger t k s m base walFile commitFile rec handle r) (tracks : Tracks loss pk D ledger t k hi s)
    (mode : BaseMode) (epoch : Nat) : Proper pk (reopened mode m base walFile commitFile rec handle r epoch).state := by
  have ordered : m.snapshotSeq - t.start ≤ (k.found m rec).high - t.start := Nat.sub_le_sub_right (Nat.le_max_right _ _) _
  have sound := Timeline.resumedSound tracks.sound loc.presents loc.shows ordered
  have reached : ∃ h, Reached (base.asAccessor pk) h r.delta := by
    rw [loc.delta]
    exact ⟨_,sound.reached _⟩
  exact ⟨loc.presents,reached⟩

theorem Located.durable (loc : Located loss pk ledger t k s m base walFile commitFile rec handle r) (tracks : Tracks loss pk D ledger t k hi s)
    (mode : BaseMode) (epoch : Nat) : D.durable ≤ (reopened mode m base walFile commitFile rec handle r epoch).state.seq :=
  (tracks.told.durable.trans loc.above).trans loc.applied.ge

theorem Located.regains (loc : Located loss pk ledger t k s m base walFile commitFile rec handle r) (tracks : Tracks loss pk D ledger t k hi s)
    (mode : BaseMode) (epoch : Nat) : Regains pk D.asked s.published (reopened mode m base walFile commitFile rec handle r epoch).state := by
  have ordered : m.snapshotSeq - t.start ≤ (k.found m rec).high - t.start := Nat.sub_le_sub_right (Nat.le_max_right _ _) _
  have seq : (reopened mode m base walFile commitFile rec handle r epoch).state.seq = (k.found m rec).high := loc.applied
  have top := loc.top tracks.disk
  refine ⟨?_,t.base.asAccessor pk,t.ops (m.snapshotSeq - t.start),
    ((t.batches.take ((k.found m rec).high - t.start)).drop (m.snapshotSeq - t.start)).flatten,loc.shows,?_,?_,fun room => ?_⟩
  · obtain ⟨last,there,number,beyond⟩ := tracks.told.last
    exact ⟨last,there,by omega⟩
  · change r.delta = _
    rw [loc.delta,Timeline.delta,Timeline.opsWhole]
    rfl
  · rw [seq,← Timeline.opsSplit t ordered]
    exact tracks.told.recalls loc.above top
  · rw [loc.view mode epoch,← Timeline.opsSplit t ordered]
    refine Timeline.resumedView tracks.sound loc.presents loc.shows ordered ?_
    rw [(tracks.sound.reached _).represents.count,Timeline.opsSplit t ordered]
    exact room

theorem Located.recalls (loc : Located loss pk ledger t k s m base walFile commitFile rec handle r) (tracks : Tracks loss pk D ledger t k hi s)
    (may : loss) (room : r.delta.addedEdges.length ≤ 2^32) (mode : BaseMode) (epoch : Nat) :
    Recalls pk D.asked s.published (reopened mode m base walFile commitFile rec handle r epoch).state.seq
      ((reopened mode m base walFile commitFile rec handle r epoch).state.view pk) := by
  have start : t.start ≤ m.snapshotSeq := tracks.disk.start.trans loc.fits.floor
  have above : m.snapshotSeq ≤ (k.found m rec).high := Nat.le_max_right _ _
  have seq : (reopened mode m base walFile commitFile rec handle r epoch).state.seq = (k.found m rec).high := loc.applied
  have top := loc.top tracks.disk
  have whole : (t.between base m.snapshotSeq (k.found m rec).high).batches.length = (k.found m rec).high - m.snapshotSeq := by
    have last := Timeline.betweenTop base start above top
    rw [Timeline.top,Timeline.betweenStart base _ start] at last
    omega
  rw [seq,loc.view mode epoch,whole]
  exact (tracks.told.recalls loc.above top).same (loc.agrees tracks.sound start top may room above (Nat.le_refl _))

end located

/-! What opening it comes to. -/
section opening
variable {σ : Type} {st : σ} {faults : Faults W} {mode : BaseMode} {validate : Validation}

theorem resumeEnds {m : Manifest} {base : BaseGraph W} {walFile : FileId} {scan : ScanResult W} {commitFile : FileId}
    {rec : CommitRecord} {handle : CommitFile} {r : Replay W} :
    Act.ends (Step faults) (fun _ => True) (resume pk mode m base walFile scan commitFile rec handle r)
      (fun out _ s' => (∃ e, out = .error e) ∧ (∃ c, faults.fails c) ∨ ∃ epoch report, out = .ok ⟨reopened mode m base walFile commitFile rec handle r epoch,report⟩ ∧
        s'.published = s.published ++ [(reopened mode m base walFile commitFile rec handle r epoch).state]) st s := by
  have cut : (cutTail walFile r.committedEnd s).published = s.published := by
    unfold cutTail
    split <;> rfl
  have chosen : ∀ {epoch u}, Chosen faults m (tailLost walFile r.committedEnd s) (cutTail walFile r.committedEnd s) epoch u →
      u.published = s.published := by
    intro epoch u which
    cases which <;> exact cut
  refine endsResume (I := fun s' => s'.published = s.published) (fun s' _ => ⟨trivial,fun may _ => ?_⟩) (fun s' _ => ⟨trivial,fun may _ => ?_⟩)
    (fun epoch u _ s' _ => ⟨trivial,fun may _ => ?_⟩) (fun epoch u _ s' _ => ⟨trivial,fun may _ => ?_⟩)
    (fun epoch u which => ⟨?_,fun s' same => ⟨trivial,fun _ _ => same,fun w made => ⟨trivial,fun report => ?_⟩⟩⟩)
  · obtain ⟨c,fails,_⟩ := may
    exact .inl ⟨⟨_,rfl⟩,c,fails⟩
  · exact .inl ⟨⟨_,rfl⟩,_,may⟩
  · obtain ⟨c,fails,_⟩ := may
    exact .inl ⟨⟨_,rfl⟩,c,fails⟩
  · obtain ⟨c,fails,_⟩ := may
    exact .inl ⟨⟨_,rfl⟩,c,fails⟩
  · have same : u.published = s.published := chosen which
    exact same
  · subst made
    exact .inr ⟨epoch,report,rfl,congrArg (· ++ _) same⟩

/- The handle is on what the examination of the disk found; without a failing call it is refused only when that finds nothing. -/
structure Reopens (pk : Packages W) (faults : Faults W) (mode : BaseMode) (s : World W) (out : Except Stop (PersistentGraph W)) (s' : World W) :
    Prop where
  refused : (∃ pg, out = .ok pg) ∨ (∃ c, faults.fails c) ∨
    ∃ v, ∀ m base walFile scan commitFile rec handle r, ¬Examined pk mode v s m base walFile scan commitFile rec handle r
  served : ∀ pg, out = .ok pg → ∃ v m base walFile scan commitFile rec handle r epoch,
    Examined pk mode v s m base walFile scan commitFile rec handle r ∧
    pg.writer = reopened mode m base walFile commitFile rec handle r epoch ∧ s'.published = s.published ++ [pg.writer.state]

theorem openEnds [Arith W] [TotalCmp W] (present : s.disk.dir manifestName ≠ none) (create : Bool) :
    Act.ends (Step faults) (fun _ => True) (openStore pk create mode validate) (fun out _ s' => Reopens pk faults mode s out s') st s := by
  refine endsOpenStore trivial (fun absent => absurd absent present) (fun _ v => ?_) (fun absent => absurd absent present)
  refine endsOpenExisting trivial (fun bad e => ⟨.inr (bad.imp_right (fun none_found => ⟨v,none_found⟩)),fun _ bad => nomatch bad⟩)
    (fun m base walFile scan commitFile rec handle r found => Act.endsMono resumeEnds (fun out _ s' _ ended => ?_))
  rcases ended with ⟨⟨e,rfl⟩,may⟩ | ⟨epoch,report,rfl,shown⟩
  · exact ⟨.inr (.inl may),fun _ bad => nomatch bad⟩
  · refine ⟨.inl ⟨_,rfl⟩,fun pg same => ?_⟩
    cases Except.ok.inj same
    exact ⟨v,m,base,walFile,scan,commitFile,rec,handle,r,epoch,found,rfl,shown⟩

end opening

/-! There is something to find. -/
/- A MANIFEST whose checksum came out as 0 was written with 1 instead, and is refused. -/
theorem passedSum {crc32 : Bytes → UInt32} {m m' : Manifest} (passed : checkManifest crc32 (some (m.stamped crc32)) = .ok m') :
    manifestChecksum crc32 m' ≠ 0 := by
  intro zero
  rw [checkManifest] at passed
  split at passed
  · contradiction
  rename_i sound
  cases Except.ok.inj passed
  rw [stampedChecksum] at zero
  have one : (m.stamped crc32).checksum = 1 := if_pos zero
  refine sound ⟨by rw [one]; decide,?_⟩
  rw [one,stampedChecksum,zero]
  decide

theorem examinedSum {mode : BaseMode} {validate : Validation} {m : Manifest} {base : BaseGraph W} {walFile : FileId} {scan : ScanResult W}
    {commitFile : FileId} {rec : CommitRecord} {handle : CommitFile} {r : Replay W} (parses : ∀ m, pk.parse (pk.json m) = some m)
    (h : Standing loss pk ledger t k s.disk) (found : Examined pk mode validate s m base walFile scan commitFile rec handle r) :
    manifestChecksum pk.codec.crc32 m ≠ 0 := by
  obtain ⟨cells,there,passed⟩ := found.manifest
  obtain ⟨m',written,_⟩ := h.manifest.read
  cases Option.some.inj (there.symm.trans written)
  rw [manifestCells,bytesOfCells,parses] at passed
  exact passedSum passed

theorem Standing.examinable [TotalCmp W] (lawful : pk.Lawful) (h : Standing loss pk ledger t k s.disk)
    (a : Anchored pk (fun seq cid sg => Portrays pk sg (ledger seq cid)) s.disk)
    (sum : ∀ m, Reads pk s.disk m → manifestChecksum pk.codec.crc32 m ≠ 0)
    (short : ∀ cells, s.disk.read walName = some cells → cells.length ≤ usizeMax) (mode : BaseMode) (validate : Validation) :
    ∃ m base walFile scan commitFile rec handle r, Examined pk mode validate s m base walFile scan commitFile rec handle r := by
  obtain ⟨m',there,_⟩ := h.manifest.read
  have text : pk.parse (asBytes (manifestCells pk m')) = some (m'.stamped pk.codec.crc32) := by
    rw [manifestCells,bytesOfCells,lawful.parses]
  have reads : Reads pk s.disk (m'.stamped pk.codec.crc32) := ⟨_,there,text⟩
  have fits := h.fits lawful.parses reads
  obtain ⟨m,sg,same,points⟩ := readsPoints lawful.parses a reads
  obtain ⟨i,_,fixed,logs⟩ := h.log
  obtain ⟨j,_,bound,rec,slot,stamped⟩ := h.sidecar
  obtain ⟨recs,tail,shown⟩ := logs _ (.inl rfl)
  have opens : Opens pk s (m'.stamped pk.codec.crc32).snapshotFile mode validate (m'.stamped pk.codec.crc32).snapshotCrc32
      (mode.open_ sg) := by
    rw [same]
    exact ⟨sg,archivedRead points.archived,points.holds.passes validate points.crc,rfl⟩
  have scanned : scanWalBytes pk.codec (asBytes (s.disk.files i).content) =
      some (.ok ⟨recs,(frames pk.codec recs).length,decide (tail ≠ []),if tail = [] then 0 else 1⟩) := by
    have long := short (s.disk.files i).content (by rw [Disk.read,fixed.dir]; rfl)
    rw [scanReturns pk.codec (by rw [shown.bytes,bytesOfCells]; rw [shown.bytes,← cellsLength] at long; exact long),
      shown.scanned lawful.codec]
  obtain ⟨r,recovered,_⟩ := (shown.found fits stamped).recovers lawful.codec (mode.open_ sg) (h.start.trans fits.floor)
    rfl (h.foundTop fits stamped) (fits.high.trans (max_le_max_right _ stamped.lowest)) (shown.scanned lawful.codec)
  refine ⟨_,_,i,_,j,rec,_,r,⟨_,there,?_⟩,fits.version,opens,fixed.dir,scanned,⟨bound.dir,stamped.holds.opened _⟩,recovered⟩
  rw [text]
  have sound := sum _ reads
  rw [stampedChecksum] at sound
  exact stampedPasses sound

/-! Whole runs. -/
section runs
variable [Arith W] [TotalCmp W] {faults : Faults W}

/- A process stops, in a request for one of the batches at most. -/
inductive Stopped (pk : Packages W) (faults : Faults W) (asked : List (Op W) → Prop) : Store W → World W → Prop where
  | idle (s : World W) (handle : Option (Writer W)) : Stopped pk faults asked ⟨s,handle⟩ s
  | boot {b : Boot W} {s s' : World W} (cut : Cut (Step faults) (b.run pk ()) s s') : Stopped pk faults asked ⟨s,none⟩ s'
  | request {q : Request W} {w : Writer W} {s s' : World W} (within : q.Within asked) (cut : Cut (Step faults) (q.run pk w) s s') :
      Stopped pk faults asked ⟨s,some w⟩ s'
  | close {w : Writer W} {s s' : World W} (cut : Cut (Step faults) (w.close pk) s s') : Stopped pk faults asked ⟨s,some w⟩ s'

def Event.Within (asked : List (Op W) → Prop) : Event W → Prop
  | .answered q _ => q.Within asked
  | .died => False
  | .lostPower => False
  | _ => True

/- From one moment on, with no batch that is not among `asked`. With `loss` the power can fail at any time, and a process ends by
itself only while no change of the MANIFEST's name is waiting; without it the machine goes on whenever a process ends. -/
inductive Goes (pk : Packages W) (faults : Faults W) (loss : Prop) (asked : List (Op W) → Prop) (st : Store W) : Store W → Prop where
  | start : Goes pk faults loss asked st st
  | served {mid after : Store W} {e : Event W} (before : Goes pk faults loss asked st mid) (step : Lives pk faults False mid e after)
      (within : e.Within asked) : Goes pk faults loss asked st after
  | died {mid : Store W} {u : World W} (before : Goes pk faults loss asked st mid) (cut : Stopped pk faults asked mid u)
      (calm : loss → Quiet u.disk) : Goes pk faults loss asked st ⟨u,none⟩
  | lostPower {mid : Store W} {u : World W} {d : StoreDisk W} (may : loss) (before : Goes pk faults loss asked st mid)
      (cut : Stopped pk faults asked mid u) (lost : u.disk.PowerLoss d) : Goes pk faults loss asked st ⟨u.on d,none⟩

omit [Arith W] [TotalCmp W] in
theorem endsGrows {σ α : Type} {p : Io W σ α} {st : σ} : Act.ends (Step faults) s.Grows p (fun _ _ s' => s.Grows s') st s :=
  Act.endsStays (fun _ _ _ _ before step => before.trans (stepGrows step)) (.refl s)

omit [Arith W] [TotalCmp W] in
theorem Small.earlier (small : Small s') (grows : s.Grows s') : Small s :=
  fun g member => small g (grows.published.subset member)

theorem Stopped.interrupted {asked : List (Op W) → Prop} {st : Store W} {u : World W} (cut : Stopped pk faults asked st u) :
    Interrupted pk faults st u := by
  cases cut with
  | idle => exact .idle _ _
  | boot cut => exact .boot cut
  | request _ cut => exact .request cut
  | close cut => exact .close cut

theorem interruptedGrows {st : Store W} {u : World W} (cut : Interrupted pk faults st u) : st.world.Grows u := by
  cases cut with
  | idle => exact .refl _
  | @boot b s u cut => exact Act.endsCut (C := s.Grows) endsGrows cut
  | @request q w s u cut => exact Act.endsCut (C := s.Grows) endsGrows cut
  | @close w s u cut => exact Act.endsCut (C := s.Grows) endsGrows cut

theorem livesGrows {deaths : Prop} {st st' : Store W} {e : Event W} (step : Lives pk faults deaths st e st') :
    st.world.Grows st'.world := by
  cases step with
  | boot run => exact Act.endsExec endsGrows run
  | request run => exact Act.endsExec endsGrows run
  | close run => exact Act.endsExec endsGrows run
  | drop => exact .refl _
  | die may cut => exact interruptedGrows cut
  | losePower cut lost => exact (interruptedGrows cut).on _

def Stays (loss : Prop) (pk : Packages W) (D : Known W) (st : Store W) : Prop :=
  match st.handle with
  | none => Rests loss pk D st.world
  | some w => Held loss pk D w st.world

theorem Stays.kept {st : Store W} (stays : Stays loss pk D st) : Kept loss pk D st.world := by
  obtain ⟨s,handle⟩ := st
  cases handle with
  | none => exact Rests.kept stays
  | some w => exact Held.kept stays

theorem stoppedKept (lawful : pk.Lawful) (tame : Tame loss faults) {st : Store W} (stays : Stays loss pk D st) {u : World W}
    (cut : Stopped pk faults D.asked st u) (small : Small u) : Kept loss pk D u := by
  cases cut with
  | idle s handle => exact stays.kept
  | boot cut => exact Act.endsCut (C := Kept loss pk D) (bootHeld lawful stays _) cut
  | request within cut => exact Act.endsCut (C := fun s' => Small s' → Kept loss pk D s') (requestHeld tame (fun _ => stays) within) cut small
  | close cut => exact Act.endsCut (C := Kept loss pk D) (closeHeld stays) cut

omit [Arith W] [TotalCmp W] in
theorem calmAfter {d d' : StoreDisk W} (lost : d.PowerLoss d') : Quiet d' := by
  intro o binds
  rcases binds with same | ⟨x,member,_⟩
  · rw [same,Disk.dir,lost.settled]
    rfl
  · rw [lost.settled] at member
    contradiction

omit [Arith W] in
theorem Kept.powerLoss (kept : Kept loss pk D s) (may : loss) {d : StoreDisk W} (lost : s.disk.PowerLoss d) : Rests loss pk D (s.on d) := by
  obtain ⟨ledger,anchored,t,k,hi,tracks⟩ := kept
  refine ⟨ledger,anchored.powerLoss lost,t,k,hi,tracks.still (tracks.disk.powerLoss may lost),fun _ => .inl (calmAfter lost)⟩

omit [Arith W] in
theorem Kept.calm (kept : Kept loss pk D s) (calm : loss → Quiet s.disk) : Rests loss pk D s := by
  obtain ⟨ledger,anchored,t,k,hi,tracks⟩ := kept
  exact ⟨ledger,anchored,t,k,hi,tracks,fun may => .inl (calm may)⟩

theorem servedStays (lawful : pk.Lawful) (tame : Tame loss faults) {st st' : Store W} {e : Event W} (stays : Stays loss pk D st)
    (step : Lives pk faults False st e st') (within : e.Within D.asked) (small : Small st'.world) : Stays loss pk D st' := by
  cases step with
  | boot run =>
    rename_i r
    have held := Act.endsExec (bootHeld lawful stays _) run
    cases r with
    | ok pg => exact held.2 pg rfl
    | error e => exact held.1
  | request run => exact Act.endsExec (requestHeld tame (fun _ => stays) within) run small
  | close run => exact Act.endsExec (closeHeld stays) run
  | drop => exact Held.rests stays
  | die may _ => exact may.elim
  | losePower _ _ => exact within.elim

section goes
variable {asked : List (Op W) → Prop} {st st' : Store W}

theorem Goes.grows (goes : Goes pk faults loss asked st st') : st.world.Grows st'.world := by
  induction goes with
  | start => exact .refl _
  | served before step _ ih => exact ih.trans (livesGrows step)
  | died before cut _ ih => exact ih.trans (interruptedGrows cut.interrupted)
  | lostPower _ before cut _ ih => exact (ih.trans (interruptedGrows cut.interrupted)).on _

theorem Goes.stays (lawful : pk.Lawful) (tame : Tame loss faults) (goes : Goes pk faults loss D.asked st st') (stays : Stays loss pk D st)
    (small : Small st'.world) : Stays loss pk D st' := by
  induction goes with
  | start => exact stays
  | served before step within ih => exact servedStays lawful tame (ih (small.earlier (livesGrows step))) step within small
  | died before cut calm ih =>
    exact (stoppedKept lawful tame (ih (small.earlier (interruptedGrows cut.interrupted))) cut small).calm calm
  | lostPower may before cut lost ih =>
    have grows := interruptedGrows cut.interrupted
    exact (stoppedKept lawful tame (ih (small.earlier (grows.on _))) cut small).powerLoss may lost

end goes

omit [Arith W] in
theorem Kept.present (kept : Kept loss pk D s) : s.disk.dir manifestName ≠ none := by
  obtain ⟨_,_,_,_,_,tracks⟩ := kept
  exact tracks.disk.present

/- A number that the handle reports as durable is one to come back to. -/
theorem Held.reported {w : Writer W} (held : Held loss pk D w s) :
    ∃ n : Known W, w.durableSeq ≤ n.durable ∧ n.asked = D.asked ∧ Held loss pk n w s := by
  obtain ⟨ledger,steered,t,k,c⟩ := held
  have told := c.tracks.told
  have within : max D.durable w.durableSeq ≤ max k.low k.floor := Nat.max_le.mpr ⟨told.durable,c.durable⟩
  refine ⟨⟨max D.durable w.durableSeq,D.asked,s.published.length,t.view pk (max D.durable w.durableSeq - t.start)⟩,Nat.le_max_right _ _,rfl,
    ledger,steered,t,k,⟨c.tracks.disk,c.tracks.sound,?_⟩,c.own,c.durable,c.level,c.even,c.live⟩
  have none_left : ∀ {g}, g ∉ s.published.drop s.published.length := by simp
  refine ⟨told.bound,told.last,told.shown,within,fun none_asked => ?_,fun g late => absurd late none_left,fun _ _ _ => .refl _,
    fun _ _ g late => absurd late none_left⟩
  obtain ⟨top,_⟩ := told.quiet none_asked
  have bound := told.bound
  change t.top = max D.durable w.durableSeq ∧ _
  exact ⟨by omega,fun g late => absurd late none_left⟩

/- When all of it is durable, so is the graph. -/
theorem Held.pinned {w : Writer W} (held : Held loss pk D w s) (sound : w.wal.poisoned = false) (durable : w.durableSeq = w.seq)
    (asked : List (Op W) → Prop) : Held loss pk ⟨w.seq,asked,s.published.length,w.state.view pk⟩ w s := by
  obtain ⟨ledger,steered,t,k,c⟩ := held
  have live := c.live sound
  have told := c.tracks.told
  have none_left : ∀ {g}, g ∉ s.published.drop s.published.length := by simp
  refine ⟨ledger,steered,t,k,⟨c.tracks.disk,c.tracks.sound,?_⟩,c.own,c.durable,c.level,c.even,c.live⟩
  refine ⟨told.bound,?_,told.shown,durable ▸ c.durable,fun _ => ⟨live.top,fun g late => absurd late none_left⟩,
    fun g late => absurd late none_left,fun _ _ _ => ?_,fun _ _ g late => absurd late none_left⟩
  · exact ⟨w.state,live.state,rfl,.inl live.top⟩
  · change SameGraph (t.view pk (w.seq - t.start)) (w.state.view pk)
    rw [live.view,← live.top,show t.top - t.start = t.batches.length from Nat.add_sub_cancel_left ..]
    exact .refl _

/- A base that the calling code may hand over. -/
def Boot.Sound (pk : Packages W) : Boot W → Prop
  | .create g => g.Indexed ∧ (g.accessor pk.adjacency).Canonical
  | .open_ .. => True

/- The store right after a creation that returned a handle, whatever had failed or stopped before. -/
structure Created (pk : Packages W) (st : Store W) : Prop where
  ran : ∃ (early : Faults W) (s : World W) (b : Boot W) (pg : PersistentGraph W), Lived pk early True ⟨s,none⟩ ∧
    s.disk.dir manifestName = none ∧ b.Sound pk ∧ Exec (Step early) (b.run pk ()) s (.ok pg,()) st.world ∧ st.handle = some pg.writer

variable (loss) in
theorem Created.stays (lawful : pk.Lawful) {st : Store W} (created : Created pk st) (asked : List (Op W) → Prop) :
    ∃ D : Known W, D.asked = asked ∧ Stays loss pk D st := by
  obtain ⟨s',handle⟩ := st
  obtain ⟨early,s,b,pg,lived,absent,sound,run,rfl⟩ := created.ran
  have anchored : Anchored pk (fun _ _ _ => True) s.disk := livedSettled lawful.parses lived
  cases b with
  | create g => exact ⟨.begun pk g asked s.published.length,rfl,Act.endsExec (createHeld anchored sound.1 sound.2 asked) run pg rfl⟩
  | open_ c mode validate =>
    have empty : Produced pk.adjacency (emptyInner pk) := .built [] []
    have refused : ∀ e : Stop, ∀ pg : PersistentGraph W, (.error e : Except Stop (PersistentGraph W)) = .ok pg →
        Held loss pk (.begun pk (emptyInner pk) asked s.published.length) pg.writer s := fun _ _ bad => nomatch bad
    refine ⟨.begun pk (emptyInner pk) asked s.published.length,rfl,?_⟩
    change Held loss pk _ pg.writer s'
    refine Act.endsExec (C := fun _ => True) (Q := fun r _ s' => ∀ pg, r = .ok pg →
      Held loss pk (.begun pk (emptyInner pk) asked s.published.length) pg.writer s') ?_ run pg rfl
    refine endsOpenStore trivial (fun _ e => refused e) (fun there => ?_) (fun _ => createHeld anchored empty.indexed empty.canonical asked)
    rw [absent] at there
    contradiction

/-! The next open. -/
section next_open
variable {later : Faults W} {r : Except Stop (PersistentGraph W)} {c : Bool} {mode : BaseMode} {validate : Validation}

theorem Kept.opened (lawful : pk.Lawful) (kept : Kept loss pk D s) {pg : PersistentGraph W}
    (opened : Exec (Step later) ((Boot.open_ c mode validate).run pk ()) s (.ok pg,()) s') :
    D.durable ≤ pg.writer.seq ∧ Regains pk D.asked s.published pg.writer.state ∧
      (loss → pg.writer.delta.addedEdges.length ≤ 2^32 → Recalls pk D.asked s.published pg.writer.seq (pg.writer.state.view pk)) := by
  have ended : Reopens pk later mode s (.ok pg) s' := Act.endsExec (openEnds kept.present c) opened
  obtain ⟨v,m,base,walFile,scan,commitFile,rec,handle,r,epoch,found,writer,_⟩ := ended.served pg rfl
  obtain ⟨ledger,anchored,t,k,hi,tracks⟩ := kept
  have loc := tracks.disk.examined lawful anchored found
  rw [writer]
  exact ⟨loc.durable tracks mode epoch,loc.regains tracks mode epoch,fun may room => loc.recalls tracks may room mode epoch⟩

/- Without a failing call only a checksum that came out as 0 is in the way. -/
theorem Kept.opens (lawful : pk.Lawful) (kept : Kept loss pk D s) (calls : ¬∃ c, later.fails c)
    (short : ∀ cells, s.disk.read walName = some cells → cells.length ≤ usizeMax)
    (opened : Exec (Step later) ((Boot.open_ c mode validate).run pk ()) s (r,()) s') :
    (∃ pg, r = .ok pg) ↔ ∀ m, Reads pk s.disk m → manifestChecksum pk.codec.crc32 m ≠ 0 := by
  have ended : Reopens pk later mode s r s' := Act.endsExec (openEnds kept.present c) opened
  obtain ⟨ledger,anchored,t,k,hi,tracks⟩ := kept
  constructor
  · rintro ⟨pg,rfl⟩ m reads
    obtain ⟨v,m',base,walFile,scan,commitFile,rec,handle,r,epoch,found,_⟩ := ended.served pg rfl
    obtain ⟨cells,there,passed⟩ := found.manifest
    obtain ⟨cells',there',text⟩ := reads
    cases Option.some.inj (there.symm.trans there')
    cases Option.some.inj ((checkedParsed passed).symm.trans text)
    exact examinedSum lawful.parses tracks.disk found
  · intro sum
    rcases ended.refused with done | may | ⟨v,nothing⟩
    · exact done
    · exact absurd may calls
    · obtain ⟨m,base,walFile,scan,commitFile,rec,handle,r,found⟩ := tracks.disk.examinable lawful anchored sum short mode v
      exact absurd found (nothing m base walFile scan commitFile rec handle r)

/- Wherever a run is interrupted. `w` is a handle of the run at some earlier moment. -/
theorem Created.stopped (lawful : pk.Lawful) (tame : Tame loss faults) {asked : List (Op W) → Prop} {st₀ st₁ st : Store W}
    (created : Created pk st₀) (before : Goes pk faults loss asked st₀ st₁) {w : Writer W} (handle : st₁.handle = some w)
    (after : Goes pk faults loss asked st₁ st) {u : World W} (cut : Stopped pk faults asked st u) (small : Small u) :
    ∃ D : Known W, w.durableSeq ≤ D.durable ∧ D.asked = asked ∧ Kept loss pk D u := by
  have grows := interruptedGrows cut.interrupted
  obtain ⟨D,rfl,stays⟩ := created.stays loss lawful asked
  have held := before.stays lawful tame stays (small.earlier (after.grows.trans grows))
  obtain ⟨s,_⟩ := st₁
  subst handle
  obtain ⟨n,durable,same,reported⟩ := Held.reported held
  rw [← same] at after cut
  have now : Stays loss pk n ⟨s,some w⟩ := reported
  exact ⟨n,durable,same,stoppedKept lawful tame (after.stays lawful tame now (small.earlier grows)) cut small⟩

end next_open
end runs
end OrpheusGraph
