import OrpheusGraph.Anchor
import OrpheusGraph.Published
import OrpheusGraph.Lib.Versions

/-! The clients of one handle. Their calls wait for the writer lock and are served one after
another; readers load what was published last. -/
namespace OrpheusGraph
open Storage Effects
variable {W : Type} [Arith W] [TotalCmp W] {pk : Packages W} {faults : Faults W}

/-! What a compaction publishes. -/
inductive Compacts (pk : Packages W) (faults : Faults W) (w : Writer W) (s : World W) :
    Except Stop Unit → Writer W → World W → Prop where
  | idle {w' : Writer W} (nothing : w.delta.isEmpty = true) (state : w'.state = w.state) :
      Compacts pk faults w s (.ok ()) w' s
  | full (large : archive (w.state.fold pk) = none) : Compacts pk faults w s (.error .panicked) w s
  | broke {e : PersistError} {w' : Writer W} {s' : World W} (may : ∃ c, faults.fails c)
      (state : w'.state = w.state) (shown : s'.published = s.published) :
      Compacts pk faults w s (.error (.err e)) w' s'
  | folded {base : BaseGraph W} {w' : Writer W} {s' : World W} (refolds : Refolds pk w.state base)
      (state : w'.state = ⟨base,.new,w.seq,w.epoch⟩)
      (shown : s'.published = s.published ++ [⟨base,.new,w.seq,w.epoch⟩]) : Compacts pk faults w s (.ok ()) w' s'

section compaction
variable {w : Writer W} {s s' : World W}

omit [Arith W] [TotalCmp W] in
theorem replacingShown {name : String} {cells : List (Stored W)} (way : s.Replacing name cells s') :
    s'.published = s.published := by
  obtain ⟨d,_,rfl⟩ := way
  rfl

omit [Arith W] [TotalCmp W] in
theorem markingShown {file : FileId} {h : CommitFile} {rec : CommitRecord}
    (way : CommitFile.Marking file h rec s s') : s'.published = s.published := by
  cases way <;> rfl

omit [Arith W] [TotalCmp W] in
theorem loggingShown {wal : WalWriter} {frame : Bytes} (way : WalWriter.Logging wal frame s s') :
    s'.published = s.published := by
  cases way <;> rfl

/- What the reload reads is the archive just written. -/
theorem reloadRefolds {sg : SerializableGraphV2 W} (written : archive (w.fold pk) = some sg) {d : StoreDisk W}
    (kept : Archived d (w.foldManifest pk sg).snapshotFile sg) (same : s.disk = d) :
    (∃ base, w.Reloads pk s (w.foldManifest pk sg) base) ∧
      ∀ base, w.Reloads pk s (w.foldManifest pk sg) base → Refolds pk w.state base := by
  subst same
  unfold Writer.Reloads
  cases w.mode with
  | owned => exact ⟨⟨_,rfl⟩,fun base same => same ▸ .owned⟩
  | mmap =>
    refine ⟨⟨.archived sg,⟨sg,archivedRead kept,rfl,rfl⟩⟩,fun base opened => ?_⟩
    obtain ⟨sg',there,_,rfl⟩ := opened.found
    obtain rfl : sg = sg' := by simpa using (archivedRead kept).symm.trans there
    exact .archived written

theorem compactEnds (log : w.wal.file.1 = walName) (sidecar : w.commitFile.1 = commitName) (sound : w.wal.poisoned = false) :
    Act.ends (Step faults) (fun _ => True) (Writer.compactLocked pk) (Compacts pk faults w s) w s := by
  have may : ∀ {name}, faults.at name → ∃ c, faults.fails c := fun ⟨c,fails,_⟩ => ⟨c,fails⟩
  have within : ∀ {file : FileId}, (∃ c, faults.fails c ∧ c.file = some file) → ∃ c, faults.fails c :=
    fun ⟨c,fails,_⟩ => ⟨c,fails⟩
  refine Writer.endsCompact trivial (fun nothing => .idle nothing rfl) (fun _ large => .full large)
    (fun sg _ _ s' way => ⟨trivial,fun at_ _ => .broke (may at_) rfl (replacingShown way)⟩)
    (fun sg _ _ s' way => ⟨trivial,fun at_ _ => .broke (may at_) rfl ((replacingShown way).trans rfl)⟩)
    (fun sg _ written => ?_)
  have first : Archived (s.replaced (w.foldManifest pk sg).snapshotFile [.graph sg]).disk
      (w.foldManifest pk sg).snapshotFile sg := Disk.Solid.replaced rfl
  have second : Archived ((s.replaced (w.foldManifest pk sg).snapshotFile [.graph sg]).replaced manifestName
      (manifestCells pk (w.foldManifest pk sg))).disk (w.foldManifest pk sg).snapshotFile sg :=
    first.replacing .replaced (snapshotNotManifest _ _)
  have edits := logCutEdited (w.pointed (w.foldManifest pk sg)) (max w.durableSeq w.seq)
    ((s.replaced (w.foldManifest pk sg).snapshotFile [.graph sg]).replaced manifestName
      (manifestCells pk (w.foldManifest pk sg))) log sidecar
  obtain ⟨some_base,only⟩ := reloadRefolds written (second.edited edits) rfl
  refine Writer.endsSettle sound (fun s' way => ⟨trivial,fun fails _ => .broke (within fails) rfl ((markingShown way).trans rfl)⟩)
    (fun s' member => ⟨trivial,fun fails _ _ _ => .broke (within fails) rfl ?_⟩) (fun unread e => ?_)
    (fun base found s' left => ⟨trivial,.folded (only base found) rfl ?_⟩)
  · simp only [List.mem_cons,List.not_mem_nil,or_false] at member
    rcases member with rfl | rfl | rfl <;> rfl
  · rcases unread with fails | missing
    · exact .broke ⟨_,fails⟩ rfl rfl
    · obtain ⟨base,found⟩ := some_base
      exact absurd found (missing base)
  · rcases left with rfl | ⟨_,rfl⟩ <;> rfl

end compaction

/- What a compaction adds to the published states, and the state then. -/
inductive Settles (pk : Packages W) (g : GraphState W) : List (GraphState W) → GraphState W → Prop where
  | nothing : Settles pk g [] g
  | folded {base : BaseGraph W} (refolds : Refolds pk g base) :
      Settles pk g [⟨base,.new,g.seq,g.epoch⟩] ⟨base,.new,g.seq,g.epoch⟩

/-! What one call does for its client and for the readers. -/
inductive Takes (pk : Packages W) (w : Writer W) (s : World W) :
    Request W → Except Stop (Option Nat) → Writer W → World W → Prop where
  | refused {q : Request W} {e : PersistError} : Takes pk w s q (.error (.err e)) w s
  | tuned {q : Request W} {w' : Writer W} (which : q ≠ .compact ∧ q ≠ .flush) (state : w'.state = w.state)
      (poisoned : w'.wal.poisoned = w.wal.poisoned) : Takes pk w s q (.ok none) w' s
  | maintained {q : Request W} {r : Except Stop (Option Nat)} {w' : Writer W} {s' : World W} {more : List (GraphState W)}
      (which : q = .compact ∨ q = .flush) (sound : w.wal.poisoned = false) (settles : Settles pk w.state more w'.state)
      (shown : s'.published = s.published ++ more)
      (answer : r = .ok none ∨ (∃ e, r = .error (.err e)) ∨ r = .error .panicked ∧ archive (w.state.fold pk) = none) :
      Takes pk w s q r w' s'
  | failed {ops : List (Op W)} {expectedSeq : Option Nat} {k : IoKind} {w' : Writer W} {s' : World W}
      (sound : w.wal.poisoned = false) (state : w'.state = w.state) (shown : s'.published = s.published) :
      Takes pk w s (.apply ops expectedSeq) (.error (.err (.io k))) w' s'
  | batch {ops : List (Op W)} {expectedSeq : Option Nat} {d : GraphDelta W} {r : Except Stop (Option Nat)}
      {w' : Writer W} {s' : World W} {more : List (GraphState W)} (sound : w.wal.poisoned = false)
      (expected : ∀ e, expectedSeq = some e → e = w.seq) (applied : w.delta.apply (w.base.asAccessor pk) ops = .ok d)
      (settles : Settles pk ⟨w.base,d,w.seq + 1,w.epoch⟩ more w'.state)
      (shown : s'.published = s.published ++ ⟨w.base,d,w.seq + 1,w.epoch⟩ :: more)
      (answer : r = .ok (some (w.seq + 1)) ∨
        r = .error .panicked ∧ archive ((⟨w.base,d,w.seq + 1,w.epoch⟩ : GraphState W).fold pk) = none) :
      Takes pk w s (.apply ops expectedSeq) r w' s'

section calls
variable {w : Writer W} {s : World W}

theorem Compacts.settles {r : Except Stop Unit} {w' : Writer W} {s' : World W} (compacts : Compacts pk faults w s r w' s') :
    ∃ more, Settles pk w.state more w'.state ∧ s'.published = s.published ++ more ∧
      (r = .error .panicked → archive (w.state.fold pk) = none) := by
  cases compacts with
  | idle nothing state => exact ⟨[],state ▸ .nothing,(List.append_nil _).symm,fun bad => nomatch bad⟩
  | full large => exact ⟨[],.nothing,(List.append_nil _).symm,fun _ => large⟩
  | broke may state shown => exact ⟨[],state ▸ .nothing,shown.trans (List.append_nil _).symm,fun bad => nomatch bad⟩
  | folded refolds state shown => exact ⟨_,state ▸ .folded refolds,shown,fun bad => nomatch bad⟩

omit [Arith W] [TotalCmp W] in
/- What the checks of a batch have seen. -/
theorem preparedBatch {ops : List (Op W)} {expectedSeq : Option Nat} {d : GraphDelta W} {frame : Bytes}
    (prepared : w.prepare pk ops expectedSeq = .ok (d,frame)) :
    (∀ e, expectedSeq = some e → e = w.seq) ∧ w.delta.apply (w.base.asAccessor pk) ops = .ok d := by
  have sound := Writer.preparedSound prepared
  simp only [Writer.prepare,sound,Bool.false_eq_true,if_false] at prepared
  split at prepared
  · contradiction
  rename_i passed
  split at prepared
  · contradiction
  rename_i d' applied
  split at prepared
  · contradiction
  cases Except.ok.inj prepared
  refine ⟨fun e given => ?_,applied⟩
  subst given
  by_contra other
  simp [Writer.checkSeq,other] at passed

omit [Arith W] [TotalCmp W] in
theorem acceptedState (w : Writer W) (frame : Bytes) (ops : List (Op W)) (d : GraphDelta W) :
    (w.accepted frame ops d).state = ⟨w.base,d,w.seq + 1,w.epoch⟩ := by
  unfold Writer.accepted Writer.acked
  split <;> rfl

omit [Arith W] [TotalCmp W] in
theorem ackedShown (w : Writer W) (frame : Bytes) (s : World W) : (w.ackedWorld frame s).published = s.published := by
  unfold Writer.ackedWorld Writer.loggedWorld
  split <;> rfl

theorem applyTakes {ops : List (Op W)} {expectedSeq : Option Nat} (log : w.wal.file.1 = walName)
    (sidecar : w.commitFile.1 = commitName) :
    Act.ends (Step faults) (fun _ => True) (Writer.apply pk ops expectedSeq)
      (fun r w' s' => Takes pk w s (.apply ops expectedSeq) (r.map some) w' s') w s := by
  refine Writer.endsApply trivial (fun e _ => .refused)
    (fun d frame prepared s' way => ⟨trivial,fun _ _ _ _ => .failed (Writer.preparedSound prepared) rfl (loggingShown way)⟩)
    (fun d frame prepared _ s' way => ⟨trivial,fun _ _ => .failed (Writer.preparedSound prepared) ?_ ?_⟩)
    (fun d frame prepared s' same => ⟨trivial,trivial,?_⟩)
  · unfold Writer.logged
    split <;> rfl
  · refine (markingShown way).trans ?_
    unfold Writer.loggedWorld
    split <;> rfl
  subst same
  obtain ⟨expected,applied⟩ := preparedBatch prepared
  have sound := Writer.preparedSound prepared
  have state := acceptedState w frame ops d
  have shown := ackedShown w frame s
  have placed := acceptedPlaced w frame ops d
  refine Writer.endsAutoCompact (fun _ => ⟨trivial,?_⟩) (fun _ => ?_)
  · have quiet : Settles pk ⟨w.base,d,w.seq + 1,w.epoch⟩ [] (w.accepted frame ops d).state := state ▸ .nothing
    exact .batch sound expected applied quiet (congrArg (· ++ _) shown) (.inl rfl)
  · refine Act.endsMono (compactEnds (placed.log ▸ log) (placed.sidecar ▸ sidecar) (acceptedSound prepared))
      (fun r w' s' _ compacts => ?_)
    obtain ⟨more,settles,later,large⟩ := compacts.settles
    rw [state] at settles large
    have all : s'.published = s.published ++ ⟨w.base,d,w.seq + 1,w.epoch⟩ :: more := by
      rw [later,Writer.announced,shown,List.append_assoc]
      rfl
    rcases r with (_ | _) | _
    · exact .batch sound expected applied settles all (.inl rfl)
    · exact .batch sound expected applied settles all (.inr ⟨rfl,large rfl⟩)
    · exact .batch sound expected applied settles all (.inl rfl)

theorem callTakes (q : Request W) (log : w.wal.file.1 = walName) (sidecar : w.commitFile.1 = commitName) :
    Act.ends (Step faults) (fun _ => True) (q.run pk) (Takes pk w s q) w s := by
  cases q with
  | apply ops expectedSeq =>
    refine Act.endsBind (Act.endsMono (applyTakes log sidecar) (fun r w' s' _ takes => ?_))
    cases r with
    | ok n => exact ⟨trivial,takes⟩
    | error e => exact takes
  | compact =>
    refine Act.endsBind (Writer.endsCompactCall trivial (fun _ => .refused)
      (fun sound => Act.endsMono (compactEnds log sidecar sound) (fun r w' s' _ compacts => ?_)))
    obtain ⟨more,settles,shown,large⟩ := compacts.settles
    rcases r with (e | _) | _
    · exact .maintained (.inl rfl) sound settles shown (.inr (.inl ⟨e,rfl⟩))
    · exact .maintained (.inl rfl) sound settles shown (.inr (.inr ⟨rfl,large rfl⟩))
    · exact ⟨trivial,.maintained (.inl rfl) sound settles shown (.inl rfl)⟩
  | flush =>
    refine Act.endsBind (Writer.endsFlush trivial (fun _ => .refused) (fun sound => ?_))
    have failing : ∀ {k : IoKind} {w' : Writer W} {s' : World W}, w'.state = w.state → s'.published = s.published →
        Takes pk w s .flush (.error (.err (.io k))) w' s' := fun state shown =>
      .maintained (.inr rfl) sound (state ▸ .nothing) (shown.trans (List.append_nil _).symm) (.inr (.inl ⟨_,rfl⟩))
    refine Writer.endsSeal sound (fun s' member => ⟨trivial,fun _ _ => failing rfl ?_⟩)
      (fun s' way => ⟨trivial,fun _ _ => failing rfl ((markingShown way).trans rfl)⟩) ⟨trivial,?_⟩
    · rcases List.mem_pair.mp member with rfl | rfl <;> rfl
    · exact .maintained (.inr rfl) sound .nothing (List.append_nil _).symm (.inl rfl)
  | setFsyncPolicy policy => exact ⟨trivial,.tuned (by simp) rfl rfl⟩
  | setAutoCompactThreshold threshold => exact ⟨trivial,.tuned (by simp) rfl rfl⟩

end calls

/-! From one published state to the next: a batch, or a compaction. -/
inductive Advances (pk : Packages W) (g : GraphState W) : GraphState W → Prop where
  | batch {ops : List (Op W)} {d : GraphDelta W} (applied : g.delta.apply (g.base.asAccessor pk) ops = .ok d) :
      Advances pk g ⟨g.base,d,g.seq + 1,g.epoch⟩
  | folded {base : BaseGraph W} (refolds : Refolds pk g base) : Advances pk g ⟨base,.new,g.seq,g.epoch⟩

section onward
variable {g g' : GraphState W} {more : List (GraphState W)}

theorem Advances.proper (follows : Advances pk g g') (proper : Proper pk g) : Proper pk g' := by
  cases follows with
  | batch applied =>
    obtain ⟨h,reached⟩ := proper.delta
    exact ⟨proper.base,_,.batch reached applied⟩
  | folded refolds => exact ⟨refolds.presents,[],.new⟩

theorem Advances.le (follows : Advances pk g g') : g.seq ≤ g'.seq := by
  cases follows with
  | batch applied => exact Nat.le_succ _
  | folded refolds => exact Nat.le_refl _

theorem Advances.succeeds (follows : Advances pk g g') (proper : Proper pk g)
    (room : g.delta.addedEdges.length ≤ 2^32) :
    Versions.Succeeds GraphState.seq (fun a b => SameGraph (a.view pk) (b.view pk)) g g' := by
  cases follows with
  | batch applied => exact .changed rfl
  | folded refolds => exact .kept rfl (proper.refoldSame room refolds _ _).symm

theorem chainProper (chain : (g :: more).IsChain (Advances pk)) (proper : Proper pk g) :
    ∀ g' ∈ g :: more, Proper pk g' := by
  induction more generalizing g with
  | nil => exact fun g' member => List.mem_singleton.mp member ▸ proper
  | cons next more ih =>
    obtain ⟨follows,rest⟩ := List.isChain_cons_cons.mp chain
    intro g' member
    rcases List.mem_cons.mp member with rfl | later
    · exact proper
    · exact ih rest (follows.proper proper) g' later

theorem Settles.follows (settles : Settles pk g more g') : (g :: more).IsChain (Advances pk) := by
  cases settles with
  | nothing => exact .singleton g
  | folded refolds => exact .cons_cons (.folded refolds) (.singleton _)

theorem Settles.last (settles : Settles pk g more g') : (g :: more).getLast? = some g' := by
  cases settles <;> rfl

theorem Settles.seq (settles : Settles pk g more g') : g'.seq = g.seq := by
  cases settles <;> rfl

omit [Arith W] [TotalCmp W] in
theorem lastOnward {before : List (GraphState W)} (last : before.getLast? = some g) :
    (before ++ more).getLast? = (g :: more).getLast? := by
  rw [List.getLast?_append,last,List.getLast?_cons]
  cases more.getLast? <;> rfl

theorem chainOnward {before : List (GraphState W)} (chain : before.IsChain (Advances pk))
    (last : before.getLast? = some g) (rest : (g :: more).IsChain (Advances pk)) :
    (before ++ more).IsChain (Advances pk) := by
  obtain ⟨earlier,rfl⟩ := List.getLast?_eq_some_iff.mp last
  rw [List.append_assoc]
  exact List.isChain_split.mpr ⟨chain,rest⟩

end onward

/- What a call adds to the published states, and the number it hands out. -/
structure Adds (pk : Packages W) (w w' : Writer W) (r : Except Stop (Option Nat)) (more : List (GraphState W)) : Prop where
  chain : (w.state :: more).IsChain (Advances pk)
  last : (w.state :: more).getLast? = some w'.state
  panics : r = .error .panicked → ∃ g ∈ w.state :: more, archive (g.fold pk) = none
  number : r ≠ .error .panicked → r.toOption.join = none ∧ w'.seq = w.seq ∨
    r.toOption.join = some (w.seq + 1) ∧ w'.seq = w.seq + 1

theorem Takes.shows {w w' : Writer W} {s s' : World W} {q : Request W} {r : Except Stop (Option Nat)}
    (takes : Takes pk w s q r w' s') : ∃ more, s'.published = s.published ++ more ∧ Adds pk w w' r more := by
  have alone : (w.state :: []).IsChain (Advances pk) := .singleton _
  have kept : ∀ {w' : Writer W}, w'.state = w.state → ([w.state] : List (GraphState W)).getLast? = some w'.state ∧
      w'.seq = w.seq := fun state => ⟨congrArg some state.symm,congrArg GraphState.seq state⟩
  cases takes with
  | refused => exact ⟨[],(List.append_nil _).symm,alone,rfl,fun bad => (nomatch bad),fun _ => .inl ⟨rfl,rfl⟩⟩
  | tuned which state poisoned =>
    exact ⟨[],(List.append_nil _).symm,alone,(kept state).1,fun bad => (nomatch bad),fun _ => .inl ⟨rfl,(kept state).2⟩⟩
  | maintained which sound settles shown answer =>
    refine ⟨_,shown,settles.follows,settles.last,fun panicked => ?_,fun sane => .inl ⟨?_,settles.seq⟩⟩
    · rcases answer with rfl | ⟨e,rfl⟩ | ⟨_,large⟩
      · cases panicked
      · cases panicked
      · exact ⟨_,List.mem_cons_self,large⟩
    · rcases answer with rfl | ⟨e,rfl⟩ | ⟨panicked,_⟩
      · rfl
      · rfl
      · exact absurd panicked sane
  | failed sound state shown =>
    exact ⟨[],shown.trans (List.append_nil _).symm,alone,(kept state).1,fun bad => (nomatch bad),
      fun _ => .inl ⟨rfl,(kept state).2⟩⟩
  | batch sound expected applied settles shown answer =>
    refine ⟨_,shown,.cons_cons (.batch applied) settles.follows,List.getLast?_cons_cons.trans settles.last,
      fun panicked => ?_,fun sane => .inr ⟨?_,settles.seq⟩⟩
    · rcases answer with rfl | ⟨_,large⟩
      · cases panicked
      · exact ⟨_,List.mem_cons_of_mem _ List.mem_cons_self,large⟩
    · rcases answer with rfl | ⟨panicked,_⟩
      · rfl
      · exact absurd panicked sane

/-! What was published last is what the writer goes on from. -/
def Current (store : Store W) : Prop := ∀ w, store.handle = some w → store.world.published.getLast? = some w.state

theorem bootCurrent (b : Boot W) (s : World W) : Act.ends (Step faults) (fun _ => True) (b.run pk)
    (fun r _ s' => ∀ pg, r = .ok pg → s'.published.getLast? = some pg.writer.state) () s := by
  have creates : ∀ (g : OrpheusGraphInner W) s, Act.ends (Step faults) (fun _ => True) (createStore pk g)
      (fun r _ s' => ∀ pg, r = .ok pg → s'.published.getLast? = some pg.writer.state) () s := by
    intro g s
    refine endsCreateStore trivial (fun _ _ bad => nomatch bad) (fun sg _ _ s' _ => ⟨trivial,fun _ _ bad => nomatch bad⟩)
      (fun sg epoch _ _ _ u made => ⟨trivial,fun report pg same => ?_⟩)
    cases Except.ok.inj same
    exact List.getLast?_concat
  cases b with
  | create g => exact creates g s
  | open_ c mode validate =>
    refine endsOpenStore trivial (fun _ _ _ bad => nomatch bad) (fun _ v => ?_) (fun _ => creates _ s)
    refine endsOpenExisting trivial (fun _ _ _ bad => nomatch bad) (fun m base walFile scan commitFile rec handle r found => ?_)
    refine endsResume (I := fun _ => True) (fun _ _ => ⟨trivial,fun _ _ _ bad => nomatch bad⟩)
      (fun _ _ => ⟨trivial,fun _ _ _ bad => nomatch bad⟩) (fun _ _ _ _ _ => ⟨trivial,fun _ _ _ bad => nomatch bad⟩)
      (fun _ _ _ _ _ => ⟨trivial,fun _ _ _ bad => nomatch bad⟩)
      (fun epoch t _ => ⟨trivial,fun s' _ => ⟨trivial,fun _ _ => trivial,fun u made => ⟨trivial,fun report pg same => ?_⟩⟩⟩)
    cases Except.ok.inj same
    exact List.getLast?_concat

theorem livesCurrent {deaths : Prop} {store store' : Store W} {e : Event W} (settled : Settled pk store)
    (current : Current store) (step : Lives pk faults deaths store e store') : Current store' := by
  cases step with
  | boot run =>
    intro w same
    rename_i r
    cases r with
    | ok pg =>
      cases Option.some.inj same
      exact Act.endsExec (bootCurrent _ _) run pg rfl
    | error e => cases same
  | request run =>
    intro w same
    cases Option.some.inj same
    have steered : Steered pk (fun _ _ _ => True) _ _ := settled
    obtain ⟨more,shown,shows⟩ := (Act.endsExec (callTakes _ steered.log steered.sidecar) run).shows
    rw [shown,lastOnward (current _ rfl),shows.last]
  | close run => exact fun w same => nomatch same
  | drop => exact fun w same => nomatch same
  | die may cut => exact fun w same => nomatch same
  | losePower cut loss => exact fun w same => nomatch same

theorem livedCurrent (parses : ∀ m, pk.parse (pk.json m) = some m) {deaths : Prop} {store : Store W}
    (lived : Lived pk faults deaths store) : Current store := by
  induction lived with
  | empty => exact fun w same => nomatch same
  | step before step ih => exact livesCurrent (livedSettled parses before) ih step

/-! The calls of a handle's clients, with their answers, in the order of the lock. -/
inductive Session (pk : Packages W) (faults : Faults W) (w₀ : Writer W) (s₀ : World W) :
    List (Request W × Except Stop (Option Nat)) → Writer W → World W → Prop where
  | start : Session pk faults w₀ s₀ [] w₀ s₀
  | call {calls : List (Request W × Except Stop (Option Nat))} {w w' : Writer W} {s s' : World W} {q : Request W}
      {r : Except Stop (Option Nat)} (before : Session pk faults w₀ s₀ calls w s)
      (run : Exec (Step faults) (q.run pk w) s (r,w') s') : Session pk faults w₀ s₀ (calls ++ [(q,r)]) w' s'

/- The sequence numbers that batches were given. -/
def numbers (calls : List (Request W × Except Stop (Option Nat))) : List Nat :=
  calls.filterMap (fun c => c.2.toOption.join)

section session
variable {deaths : Prop} {w₀ w : Writer W} {s₀ s : World W} {calls : List (Request W × Except Stop (Option Nat))}

theorem Session.lived (lived : Lived pk faults deaths ⟨s₀,some w₀⟩) (session : Session pk faults w₀ s₀ calls w s) :
    Lived pk faults deaths ⟨s,some w⟩ := by
  induction session with
  | start => exact lived
  | call before run ih => exact .step ih (.request run)

theorem livedTakes (parses : ∀ m, pk.parse (pk.json m) = some m) (lived : Lived pk faults deaths ⟨s,some w⟩)
    {q : Request W} {r : Except Stop (Option Nat)} {w' : Writer W} {s' : World W}
    (run : Exec (Step faults) (q.run pk w) s (r,w') s') : Takes pk w s q r w' s' := by
  have steered : Steered pk (fun _ _ _ => True) w s.disk := livedSettled parses lived
  exact Act.endsExec (callTakes q steered.log steered.sidecar) run

/- What the readers have seen after some calls, and the numbers these have handed out. -/
structure Serial (pk : Packages W) (w₀ w : Writer W) (calls : List (Request W × Except Stop (Option Nat)))
    (shown : List (GraphState W)) : Prop where
  chain : (w₀.state :: shown).IsChain (Advances pk)
  last : (w₀.state :: shown).getLast? = some w.state
  numbered : (∀ g ∈ w₀.state :: shown, archive (g.fold pk) ≠ none) →
    w.seq = w₀.seq + (numbers calls).length ∧ numbers calls = List.range' (w₀.seq + 1) (numbers calls).length

theorem Serial.call {shown more : List (GraphState W)} {q : Request W} {r : Except Stop (Option Nat)} {w' : Writer W}
    (serial : Serial pk w₀ w calls shown) (shows : Adds pk w w' r more) :
    Serial pk w₀ w' (calls ++ [(q,r)]) (shown ++ more) := by
  refine ⟨?_,?_,fun fits => ?_⟩
  · exact chainOnward serial.chain serial.last shows.chain
  · exact (lastOnward serial.last).trans shows.last
  · have fits : ∀ g ∈ (w₀.state :: shown) ++ more, archive (g.fold pk) ≠ none := fits
    obtain ⟨seq,list⟩ := serial.numbered (fun g member => fits g (List.mem_append_left _ member))
    have sane : r ≠ .error .panicked := by
      intro panicked
      obtain ⟨g,member,large⟩ := shows.panics panicked
      refine fits g ?_ large
      rcases List.mem_cons.mp member with rfl | later
      · exact List.mem_append_left _ (List.mem_of_getLast? serial.last)
      · exact List.mem_append_right _ later
    have split : numbers (calls ++ [(q,r)]) = numbers calls ++ r.toOption.join.toList := by
      rw [numbers,numbers,List.filterMap_append]
      cases none_there : r.toOption.join <;> simp [none_there]
    rcases shows.number sane with ⟨none_there,same⟩ | ⟨given,next⟩
    · rw [split,none_there,Option.toList_none,List.append_nil,same]
      exact ⟨seq,list⟩
    · rw [split,given,Option.toList_some,List.length_append,List.length_singleton,next,seq]
      refine ⟨by omega,?_⟩
      rw [List.range'_concat,← list]
      congr 2
      omega

theorem Session.serial (parses : ∀ m, pk.parse (pk.json m) = some m) (lived : Lived pk faults deaths ⟨s₀,some w₀⟩)
    (session : Session pk faults w₀ s₀ calls w s) :
    ∃ shown, s.published = s₀.published ++ shown ∧ Serial pk w₀ w calls shown := by
  induction session with
  | start => exact ⟨[],(List.append_nil _).symm,.singleton _,rfl,fun _ => ⟨rfl,rfl⟩⟩
  | call before run ih =>
    obtain ⟨shown,published,serial⟩ := ih
    obtain ⟨more,added,shows⟩ := (livedTakes parses (before.lived lived) run).shows
    exact ⟨shown ++ more,by rw [added,published,List.append_assoc],serial.call shows⟩

/- What a compaction may put in the place of a published state. -/
structure Refolded (pk : Packages W) (g g' : GraphState W) : Prop where
  seq : g'.seq = g.seq
  epoch : g'.epoch = g.epoch
  same : g.delta.addedEdges.length ≤ 2^32 → SameGraph (g'.view pk) (g.view pk)

theorem Settles.compacted {g g' : GraphState W} {more : List (GraphState W)} (settles : Settles pk g more g')
    (proper : Proper pk g) : ∀ c ∈ more, Refolded pk g c := by
  cases settles with
  | nothing => exact fun c member => nomatch member
  | folded refolds =>
    intro c member
    rw [List.mem_singleton.mp member]
    exact ⟨rfl,rfl,fun room => proper.refoldSame room refolds _ _⟩

/- What clients can count on from one call. -/
structure Served (pk : Packages W) (w : Writer W) (s : World W) (q : Request W) (r : Except Stop (Option Nat))
    (w' : Writer W) (s' : World W) : Prop where
  accepted : ∀ n, r = .ok (some n) → ∃ ops expectedSeq d more, q = .apply ops expectedSeq ∧ n = w.seq + 1 ∧
    (∀ e, expectedSeq = some e → e = w.seq) ∧ w.delta.apply (w.base.asAccessor pk) ops = .ok d ∧
    s'.published = s.published ++ ⟨w.base,d,n,w.epoch⟩ :: more ∧ ∀ g ∈ more, Refolded pk ⟨w.base,d,n,w.epoch⟩ g
  maintained : q = .compact ∨ q = .flush → ∃ more, s'.published = s.published ++ more ∧
    ∀ g ∈ more, Refolded pk w.state g
  rejected : ∀ ops expectedSeq, q = .apply ops expectedSeq →
    (∃ e actual, r = .error (.err (.conflict e actual))) ∨ (∃ e, r = .error (.err (.delta e))) → w' = w ∧ s' = s
  poisoned : w.wal.poisoned = true → w'.wal.poisoned = true ∧ s'.published = s.published ∧ ∀ n, r ≠ .ok (some n)

theorem Takes.served {q : Request W} {r : Except Stop (Option Nat)} {w' : Writer W} {s' : World W}
    (takes : Takes pk w s q r w' s') (proper : Proper pk w.state) : Served pk w s q r w' s' := by
  have healthy : w.wal.poisoned = false → ∀ {p : Prop}, w.wal.poisoned = true → p := fun sound _ bad => by
    rw [sound] at bad
    contradiction
  cases takes with
  | refused => exact ⟨fun _ bad => (nomatch bad),fun _ => ⟨[],(List.append_nil _).symm,fun _ bad => nomatch bad⟩,
      fun _ _ _ _ => ⟨rfl,rfl⟩,fun bad => ⟨bad,rfl,fun _ bad => nomatch bad⟩⟩
  | tuned which state poisoned =>
    refine ⟨fun _ bad => (nomatch bad),fun _ => ⟨[],(List.append_nil _).symm,fun _ bad => nomatch bad⟩,fun _ _ _ bad => ?_,
      fun bad => ⟨poisoned.trans bad,rfl,fun _ bad => nomatch bad⟩⟩
    rcases bad with ⟨_,_,bad⟩ | ⟨_,bad⟩ <;> cases bad
  | maintained which sound settles shown answer =>
    refine ⟨fun n given => ?_,fun _ => ⟨_,shown,settles.compacted proper⟩,fun _ _ batch => ?_,healthy sound⟩
    · subst given
      rcases answer with bad | ⟨_,bad⟩ | ⟨bad,_⟩ <;> cases bad
    · subst batch
      rcases which with bad | bad <;> cases bad
  | failed sound state shown =>
    refine ⟨fun _ bad => (nomatch bad),fun which => ?_,fun _ _ _ bad => ?_,healthy sound⟩
    · rcases which with bad | bad <;> cases bad
    · rcases bad with ⟨_,_,bad⟩ | ⟨_,bad⟩ <;> cases bad
  | batch sound expected applied settles shown answer =>
    have follows : Advances pk w.state ⟨w.base,_,w.seq + 1,w.epoch⟩ := .batch applied
    refine ⟨fun n given => ?_,fun which => ?_,fun _ _ _ bad => ?_,healthy sound⟩
    · rcases answer with same | ⟨bad,_⟩
      · obtain rfl : w.seq + 1 = n := by simpa using same.symm.trans given
        exact ⟨_,_,_,_,rfl,rfl,expected,applied,shown,settles.compacted (follows.proper proper)⟩
      · cases bad.symm.trans given
    · rcases which with bad | bad <;> cases bad
    · rcases answer with rfl | ⟨rfl,_⟩ <;> rcases bad with ⟨_,_,bad⟩ | ⟨_,bad⟩ <;> cases bad

end session

/-! A handle as creation returns it. -/
structure JustCreated (g : OrpheusGraphInner W) (w : Writer W) : Prop where
  state : w.state = ⟨.owned g,.new,0,w.epoch⟩
  sound : w.wal.poisoned = false
  counted : w.deltaOps = 0

theorem createdFresh (g : OrpheusGraphInner W) (s : World W) : Act.ends (Step faults) (fun _ => True)
    (Boot.run pk (.create g)) (fun r _ _ => ∀ pg, r = .ok pg → JustCreated g pg.writer) () s := by
  refine endsCreateStore trivial (fun _ _ bad => nomatch bad) (fun sg _ _ s' _ => ⟨trivial,fun _ _ bad => nomatch bad⟩)
    (fun sg epoch _ _ _ u made => ⟨trivial,fun report pg same => ?_⟩)
  cases Except.ok.inj same
  rw [made]
  exact ⟨rfl,rfl,rfl⟩

omit [Arith W] [TotalCmp W] in
theorem JustCreated.proper {g : OrpheusGraphInner W} {w : Writer W} (fresh : JustCreated g w) (ok : g.Indexed)
    (canonical : (g.accessor pk.adjacency).Canonical) : Proper pk w.state := by
  rw [fresh.state]
  exact ⟨ownedPresents ok canonical,[],.new⟩

theorem createdHandle : ∃ (w₀ : Writer Unit) (s₀ : World Unit), Lived plainPackages noFaults False ⟨s₀,some w₀⟩ ∧
    JustCreated emptyBase w₀ := by
  have run := answersRun noFaults ((Boot.create emptyBase).run plainPackages) () World.empty
  have made : creating.1.1.toOption.isSome = true := by decide +kernel
  change Exec _ _ _ creating.1 creating.2 at run
  generalize creating = out at run made
  obtain ⟨⟨r,⟨⟩⟩,s₀⟩ := out
  cases r with
  | error e => simp [Except.toOption] at made
  | ok pg => exact ⟨pg.writer,s₀,.step .empty (.boot run),Act.endsExec (createdFresh emptyBase _) run pg rfl⟩

/-! Batches that nothing stops. -/
section unhindered
variable {w₀ w : Writer W} {s₀ s : World W} {calls : List (Request W × Except Stop (Option Nat))}

theorem batchAccepted {ops : List (Op W)} {d : GraphDelta W} {frame : Bytes}
    (prepared : w.prepare pk ops none = .ok (d,frame))
    (small : (w.accepted frame ops d).deltaOps ≤ (w.accepted frame ops d).threshold pk) :
    Act.ends (Step noFaults) (fun _ => True) ((Request.apply ops none).run pk)
      (fun _ w' _ => w' = w.accepted frame ops d) w s := by
  refine Act.endsBind (Writer.endsApply trivial (fun e refused => ?_) (fun _ _ _ _ _ => ⟨trivial,fun ⟨_,bad,_⟩ => bad.elim⟩)
    (fun _ _ _ _ _ _ => ⟨trivial,fun ⟨_,bad,_⟩ => bad.elim⟩) (fun d' frame' prepared' s' _ => ⟨trivial,trivial,?_⟩))
  · cases refused.symm.trans prepared
  · cases prepared'.symm.trans prepared
    exact Writer.endsAutoCompact (fun _ => ⟨trivial,trivial,rfl⟩) (fun fires => absurd small (Nat.not_le_of_lt fires))

theorem batchesAccepted {most : Nat} {last : GraphDelta W} (batches : List (List (Op W)))
    (session : Session pk noFaults w₀ s₀ calls w s) (sound : w.wal.poisoned = false)
    (run : GraphDelta.LegalRun (w.base.asAccessor pk) w.delta batches.flatten last)
    (encodes : ∀ ops ∈ batches, ∀ seq ≤ w.seq + batches.length, Encodable pk.codec ⟨seq,ops⟩)
    (override : w.autoCompactOverride = some most) (small : w.deltaOps + batches.flatten.length ≤ most) :
    ∃ calls' w' s', Session pk noFaults w₀ s₀ calls' w' s' ∧ w'.delta = last ∧ w'.base = w.base ∧
      w'.wal.poisoned = false := by
  induction batches generalizing w s calls with
  | nil =>
    cases run
    exact ⟨calls,w,s,session,rfl,rfl,sound⟩
  | cons ops batches ih =>
    obtain ⟨d,first,rest⟩ := GraphDelta.LegalRun.split run
    have applied := (GraphDelta.applyExact w.delta d ops).mpr first
    have encoded : encodeFrame pk.codec ⟨w.seq + 1,ops⟩ = .ok (frame pk.codec ⟨w.seq + 1,ops⟩) :=
      encodeFrameExact.mpr ⟨encodes ops List.mem_cons_self _ (by rw [List.length_cons]; omega),rfl⟩
    have prepared : w.prepare pk ops none = .ok (d,frame pk.codec ⟨w.seq + 1,ops⟩) := by
      simp [Writer.prepare,Writer.checkSeq,sound,applied,encoded]
    have fields : ∀ frame, (w.accepted frame ops d).autoCompactOverride = some most ∧
        (w.accepted frame ops d).deltaOps = w.deltaOps + ops.length := by
      intro frame
      unfold Writer.accepted Writer.acked
      refine ⟨?_,rfl⟩
      split <;> exact override
    have size : (ops :: batches).flatten.length = ops.length + batches.flatten.length := List.length_append
    have base : (w.accepted (frame pk.codec ⟨w.seq + 1,ops⟩) ops d).base = w.base :=
      congrArg GraphState.base (acceptedState w _ ops d)
    have ends := answersRun noFaults ((Request.apply ops none).run pk) w s
    have accepted := Act.endsExec (batchAccepted prepared (by
      rw [Writer.threshold,(fields _).1,(fields _).2,Option.getD_some]
      omega)) ends
    rw [← base]
    refine ih (accepted ▸ session.call ends) (acceptedSound prepared) ?_ (fun ops' member seq bound => ?_) (fields _).1 ?_
    · rw [base]
      exact rest
    · refine encodes ops' (List.mem_cons_of_mem _ member) seq ?_
      have next : (w.accepted (frame pk.codec ⟨w.seq + 1,ops⟩) ops d).seq = w.seq + 1 := rfl
      rw [List.length_cons]
      omega
    · rw [(fields _).2]
      omega

theorem compactUnhindered (log : w.wal.file.1 = walName) (sidecar : w.commitFile.1 = commitName)
    (sound : w.wal.poisoned = false) (busy : w.delta.isEmpty = false) (fits : archive (w.state.fold pk) ≠ none) :
    Act.ends (Step noFaults) (fun _ => True) (Request.compact.run pk) (fun r _ s' => r = .ok none ∧
      ∃ base, Refolds pk w.state base ∧ s'.published = s.published ++ [⟨base,.new,w.seq,w.epoch⟩]) w s := by
  refine Act.endsBind (Writer.endsCompactCall trivial (fun bad => ?_)
    (fun _ => Act.endsMono (compactEnds log sidecar sound) (fun r w' s' _ compacts => ?_)))
  · rw [sound] at bad
    contradiction
  · cases compacts with
    | idle nothing state =>
      rw [busy] at nothing
      contradiction
    | full large => exact absurd large fits
    | broke may state shown => exact may.elim (fun _ bad => bad.elim)
    | folded refolds state shown => exact ⟨trivial,rfl,_,refolds,shown⟩

end unhindered
/-! One addition too many again, now as calls of a client. -/
namespace Overflow
open GraphDelta
variable {k : Nat} (wraps : asU32 (k+1) = 0)
include wraps

theorem liveTwo : (liveNames [] (final (k+1))).Perm ["a","b"] := by
  obtain ⟨distinct,exact⟩ := Fold.pushAll [] (final (k+1)).addedNodes.keys List.nodup_nil
  refine (List.perm_ext_iff_of_nodup distinct (by decide)).mpr (fun n => ?_)
  rw [exact,(finalShape wraps).2.2.2.2]
  simp

theorem finalFits (room : k + 1 ≤ 2^32) : (foldBase .newestFirst base [] (final (k+1))).Fits := by
  obtain ⟨_,outA,outB⟩ := finalCounts wraps room
  have names := liveTwo wraps
  have short := buildShort .newestFirst (materialize base [] (final (k+1))).1 (materialize base [] (final (k+1))).2 false
  have nodes : (materialize base [] (final (k+1))).1.length ≤ 2 :=
    (List.length_filterMap_le _ _).trans_eq names.length_eq
  have edges : (materialize base [] (final (k+1))).2.length = k := by
    rw [Fold.materializeShape,edgeInputs,List.length_flatMap,(names.map _).sum_eq]
    simp [outA,outB]
  have top : u32Max = 2^32 - 1 := rfl
  exact ⟨short.1.trans (by omega),short.2.trans (by omega)⟩

omit wraps in
theorem historyLength (k : Nat) : (history k).length = k + 5 := by
  simp [history,start,last]

end Overflow

/- Those additions, 65536 to a batch. -/
def packed : List (List (Op Unit)) :=
  [Overflow.start] ++ List.replicate 65536 (List.replicate 65536 Overflow.ab) ++ [Overflow.last]

theorem packedFlat : packed.flatten = Overflow.history 4294967296 := by
  rw [packed,List.flatten_append,List.flatten_append,List.flatten_singleton,List.flatten_singleton,
    List.flatten_replicate_replicate]
  rfl

/- Far less than what a frame can hold. -/
theorem packedShort : ∀ ops ∈ packed, ops.length ≤ 65536 ∧ ∀ op ∈ ops, (opCoder.encode op).length ≤ 4000 := by
  have ab : (opCoder.encode Overflow.ab).length ≤ 4000 := by decide +kernel
  have start : ∀ op ∈ Overflow.start, (opCoder.encode op).length ≤ 4000 := by decide +kernel
  have last : ∀ op ∈ Overflow.last, (opCoder.encode op).length ≤ 4000 := by decide +kernel
  intro ops member
  rw [packed,List.mem_append,List.mem_append,List.mem_singleton,List.mem_singleton] at member
  rcases member with (rfl | many) | rfl
  · exact ⟨by decide,start⟩
  · obtain rfl := List.eq_of_mem_replicate many
    exact ⟨List.length_replicate.le,fun op same => List.eq_of_mem_replicate same ▸ ab⟩
  · exact ⟨by decide,last⟩

theorem packedEncodes : ∀ ops ∈ packed, ∀ seq ≤ 65538, Encodable plainPackages.codec ⟨seq,ops⟩ := by
  intro ops member seq bound
  obtain ⟨few,each⟩ := packedShort ops member
  have size : (recordCoder.encode ⟨seq,ops⟩).length =
      seq + 1 + (ops.length + 1 + (ops.map (fun op => (opCoder.encode op).length)).sum) := by
    simp only [recordCoder,Coding.Coder.through,Coding.Coder.pair,Coding.Coder.list,Coding.Coder.unary,List.length_append,
      List.length_replicate,List.length_singleton,List.length_flatMap]
  have total := List.sum_le_card_nsmul (ops.map (fun op => (opCoder.encode op).length)) 4000 (by simpa using each)
  rw [List.length_map,smul_eq_mul] at total
  have top : u32Max = 2^32 - 1 := rfl
  change (recordCoder.encode ⟨seq,ops⟩).length ≤ u32Max
  omega

/- The state those additions lead to shows one edge more than any base built of it. -/
theorem driftShown {k : Nat} (wraps : asU32 (k+1) = 0) (room : k + 1 ≤ 2^32) {w : Writer Unit}
    (base : w.base = .owned emptyBase) (delta : w.delta = Overflow.final (k+1)) :
    w.delta.isEmpty = false ∧ archive (w.state.fold plainPackages) ≠ none ∧
      ∀ after seq epoch, Refolds plainPackages w.state after →
        ¬ SameGraph ((⟨after,.new,seq,epoch⟩ : GraphState Unit).view plainPackages) (w.state.view plainPackages) := by
  have view : w.state.view plainPackages = deltaAccessor Overflow.base (Overflow.final (k+1)) := by
    rw [GraphState.view,Writer.state,base,delta]
    rfl
  have fold : w.state.fold plainPackages = foldBase .newestFirst Overflow.base [] (Overflow.final (k+1)) := by
    rw [GraphState.fold,Writer.state,base,delta]
    rfl
  obtain ⟨ok,_⟩ := foldSound plainPackages w.state
  refine ⟨?_,?_,fun after seq epoch refolds same => ?_⟩
  · rw [delta,GraphDelta.isEmpty,(Overflow.finalShape wraps).1]
    simp
  · obtain ⟨sg,written⟩ := archiveSome ok (fold ▸ Overflow.finalFits wraps room)
    simp [written]
  · rw [GraphState.view,emptyOverlay] at same
    have built := refolds.agrees.symm.same.trans same
    rw [view] at built
    exact Overflow.drift wraps room (sumOfNamed (OrpheusGraphInner.named .newestFirst _ ok) built)

end OrpheusGraph
