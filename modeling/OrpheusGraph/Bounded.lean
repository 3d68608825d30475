import OrpheusGraph.Anchor

/-! How much the live delta holds: the counter that starts a compaction knows the batches
of its own handle, and not what the handle replayed when it was opened. -/
namespace OrpheusGraph
open Storage Effects
variable {W : Type}

/-! An operation never leaves the delta empty. -/
namespace GraphDelta
variable {base : GraphAccessor W} {d : GraphDelta W}

theorem applyOpBusy (op : Op W) : (applyOp base d op).isEmpty = false := by
  cases op with
  | upsertNode nd =>
    rw [applyOp,upsertNodeFrame,isEmpty]
    have kept : (d.addedNodes.insert nd.name nd).isEmpty = false := by
      cases empty : (d.addedNodes.insert nd.name nd).isEmpty with
      | false => rfl
      | true =>
        have gone := IndexMap.getOfIsEmpty empty nd.name
        simp [IndexMap.getInsert] at gone
    simp [kept]
  | removeNode name =>
    rw [applyOp,removeNodeFrame,isEmpty]
    simp
  | addEdge fromName toName edge => simp [applyOp,addEdge,isEmpty]
  | removeEdge fromName toName kind =>
    rw [applyOp,removeEdgeFrame,isEmpty]
    simp

theorem replayBusy {ops : List (Op W)} (some : ops ≠ []) : (d.replay base ops).isEmpty = false := by
  obtain ⟨first,last,rfl⟩ := (List.eq_nil_or_concat ops).resolve_left some
  rw [List.concat_eq_append,replay,List.foldl_append]
  exact applyOpBusy last

end GraphDelta

/-! What a recovery replays, read off a disk. -/
def pending (pk : Packages W) (d : StoreDisk W) : List (Op W) :=
  match (d.read manifestName).bind (fun cells => pk.parse (asBytes cells)), d.read walName, d.read commitName with
  | some m, some log, some slots =>
    match scanWalBytes pk.codec (asBytes log), CommitFile.opened (pk.path commitName) (Stored.slotLayout.slotAt slots 0)
        (Stored.slotLayout.slotAt slots 1) with
    | some (.ok scan), .ok (rec,_) => replayedOps m.snapshotSeq (max rec.committedSeq m.snapshotSeq) scan.records
    | _, _ => []
  | _, _, _ => []

section life
variable [Arith W] [TotalCmp W] {faults : Faults W} {pk : Packages W} {deaths : Prop}

omit [Arith W] [TotalCmp W] in
theorem examinedPending {mode : BaseMode} {validate : Validation} {s : World W} {m : Manifest}
    {base : BaseGraph W} {walFile : FileId} {scan : ScanResult W} {commitFile : FileId} {rec : CommitRecord}
    {handle : CommitFile} {r : Replay W} (found : Examined pk mode validate s m base walFile scan commitFile rec handle r) :
    r.delta = GraphDelta.new.replay (base.asAccessor pk) (pending pk s.disk) := by
  obtain ⟨cells,there,passed⟩ := found.manifest
  have log : s.disk.read walName = some (s.disk.files walFile).content := by rw [Disk.read,found.log]; rfl
  have sidecar : s.disk.read commitName = some (s.disk.files commitFile).content := by
    rw [Disk.read,found.sidecar.bound]
    rfl
  have same : pending pk s.disk = replayedOps m.snapshotSeq (max rec.committedSeq m.snapshotSeq) scan.records := by
    simp only [pending,there,Option.bind_some,checkedParsed passed,log,sidecar,found.scanned,found.sidecar.opened]
  rw [same]
  exact recordsDelta (recoverRecords found.recovered).1

def Request.ops : Request W → List (Op W)
  | .apply ops _ => ops
  | _ => []

/- The operations in the live delta after a step, those before it being `held`: what the opening
of the handle replayed, and each batch that was accepted since, until a compaction. -/
def keptOps (w w' : Writer W) (q : Request W) (held : List (Op W)) : List (Op W) :=
  if w'.compactionId = w.compactionId then held ++ (if w'.seq = w.seq then [] else q.ops) else []

def heldAfter (pk : Packages W) (store store' : Store W) (e : Event W) (held : List (Op W)) : List (Op W) :=
  match e, store.handle, store'.handle with
  | .booted _ _, _, some _ => pending pk store.world.disk
  | .answered q _, some w, some w' => keptOps w w' q held
  | _, _, _ => []

/- Runs on which no threshold is set, with every step as `allowed`. -/
inductive Holding (pk : Packages W) (faults : Faults W) (deaths : Prop)
    (allowed : Store W → Event W → Store W → List (Op W) → Prop) : Store W → List (Op W) → Prop where
  | empty : Holding pk faults deaths allowed ⟨.empty,none⟩ []
  | step {store store' : Store W} {e : Event W} {held : List (Op W)} (before : Holding pk faults deaths allowed store held)
      (step : Lives pk faults deaths store e store') (ok : allowed store e store' held)
      (unset : ∀ threshold r, e = .answered (.setAutoCompactThreshold threshold) r → threshold = none) :
      Holding pk faults deaths allowed store' (heldAfter pk store store' e held)

/- The bound after an accepted batch. -/
def Within (pk : Packages W) (store : Store W) (e : Event W) (store' : Store W) (held : List (Op W)) : Prop :=
  ∀ ops expectedSeq seq w', e = .answered (.apply ops expectedSeq) (.ok (some seq)) → store'.handle = some w' →
    (heldAfter pk store store' e held).length ≤ autoCompactThreshold (w'.base.asAccessor pk).nodeCount

/- Before it: the handle's own count goes over the threshold, or all that is held does not. -/
def Fitting (pk : Packages W) (store : Store W) (e : Event W) (_ : Store W) (held : List (Op W)) : Prop :=
  ∀ ops expectedSeq seq w, e = .answered (.apply ops expectedSeq) (.ok (some seq)) → store.handle = some w →
    autoCompactThreshold (w.base.asAccessor pk).nodeCount < w.deltaOps + ops.length ∨
      held.length + ops.length ≤ autoCompactThreshold (w.base.asAccessor pk).nodeCount

/- What the handle knows of it. -/
structure Tallied (pk : Packages W) (w : Writer W) (held : List (Op W)) : Prop where
  unset : w.autoCompactOverride = none
  holds : w.delta = GraphDelta.new.replay (w.base.asAccessor pk) held
  counted : w.deltaOps ≤ held.length

omit [Arith W] [TotalCmp W] in
theorem Tallied.busy {w : Writer W} {held : List (Op W)} (c : Tallied pk w held) (some : held ≠ []) :
    w.delta.isEmpty = false := by
  rw [c.holds]
  exact GraphDelta.replayBusy some

/- A compaction by a handle that nothing fails. -/
inductive Compacted (w : Writer W) : Except Stop Unit → Writer W → Prop where
  | idle (empty : w.delta.isEmpty = true) : Compacted w (.ok ()) { w with deltaOps := 0 }
  | panicked : Compacted w (.error .panicked) w
  | done {w' : Writer W} (cid : w'.compactionId = w.compactionId + 1) (delta : w'.delta = .new) (ops : w'.deltaOps = 0)
      (unset : w'.autoCompactOverride = w.autoCompactOverride) : Compacted w (.ok ()) w'

theorem compactWorks {w : Writer W} {s : World W} {P : Nat → Nat → SerializableGraphV2 W → Prop} (works : ∀ c, ¬faults.fails c)
    (h : Steered pk P w s.disk) (sound : w.wal.poisoned = false) :
    Act.ends (Step faults) (fun _ => True) (Writer.compactLocked pk) (fun r w' _ => Compacted w r w') w s := by
  have never : ∀ {name}, ¬faults.at name := fun ⟨c,fails,_⟩ => works c fails
  have nothing : ∀ {file : FileId}, ¬∃ c, faults.fails c ∧ c.file = some file := fun ⟨c,fails,_⟩ => works c fails
  refine Writer.endsCompact trivial (fun empty => .idle empty) (fun _ _ => .panicked)
    (fun sg _ _ s' _ => ⟨trivial,fun bad => absurd bad never⟩) (fun sg _ _ s' _ => ⟨trivial,fun bad => absurd bad never⟩)
    (fun sg _ fits => ?_)
  have archived : Archived ((s.replaced (w.foldManifest pk sg).snapshotFile [.graph sg]).replaced manifestName
      (manifestCells pk (w.foldManifest pk sg))).disk (w.foldManifest pk sg).snapshotFile sg :=
    (show Archived (s.replaced (w.foldManifest pk sg).snapshotFile [.graph sg]).disk _ sg from
      Disk.Solid.replaced rfl).replacing .replaced (snapshotNotManifest _ _)
  refine Writer.endsSettle sound (fun s' _ => ⟨trivial,fun bad => absurd bad nothing⟩)
    (fun s' _ => ⟨trivial,fun bad => absurd bad nothing⟩) (fun bad => ?_)
    (fun base _ s' _ => ⟨trivial,.done rfl rfl rfl rfl⟩)
  exfalso
  rcases bad with fails | none
  · exact works _ fails
  have read := archivedRead (archived.edited (logCutEdited (w.pointed (w.foldManifest pk sg))
    (max w.durableSeq w.seq) ((s.replaced (w.foldManifest pk sg).snapshotFile [.graph sg]).replaced manifestName
      (manifestCells pk (w.foldManifest pk sg))) h.log h.sidecar))
  cases mode : w.mode with
  | owned => exact none (.owned (w.fold pk)) (by rw [Writer.Reloads,mode])
  | mmap =>
    refine none (.archived sg) ?_
    rw [Writer.Reloads,mode]
    exact ⟨sg,read,rfl,rfl⟩

/- How a batch ends. -/
inductive Applied (pk : Packages W) (w : Writer W) (ops held : List (Op W)) : Except Stop Nat → Writer W → Prop where
  | refused (e : PersistError) : Applied pk w ops held (.error (.err e)) w
  | kept {w' : Writer W} (small : w.deltaOps + ops.length ≤ autoCompactThreshold (w.base.asAccessor pk).nodeCount)
      (seq : w'.seq = w.seq + 1) (cid : w'.compactionId = w.compactionId) (base : w'.base = w.base)
      (tally : Tallied pk w' (held ++ ops)) : Applied pk w ops held (.ok (w.seq + 1)) w'
  | folded {w' : Writer W} (large : autoCompactThreshold (w.base.asAccessor pk).nodeCount < w.deltaOps + ops.length)
      (cid : w'.compactionId = w.compactionId + 1) (tally : Tallied pk w' []) : Applied pk w ops held (.ok (w.seq + 1)) w'
  | panicked {w' : Writer W} (seq : w'.seq = w.seq + 1) (cid : w'.compactionId = w.compactionId)
      (tally : Tallied pk w' (held ++ ops)) : Applied pk w ops held (.error .panicked) w'

omit [Arith W] [TotalCmp W] in
theorem Tallied.accepted {w : Writer W} {held ops : List (Op W)} (t : Tallied pk w held) {d : GraphDelta W} {frame : Bytes}
    {expectedSeq : Option Nat} (prepared : w.prepare pk ops expectedSeq = .ok (d,frame)) :
    Tallied pk (w.accepted frame ops d) (held ++ ops) ∧ (w.accepted frame ops d).base = w.base := by
  have made : d = (w.delta).replay (w.base.asAccessor pk) ops := by
    rw [Writer.prepare] at prepared
    split at prepared
    · contradiction
    split at prepared
    · contradiction
    split at prepared
    · contradiction
    split at prepared
    · contradiction
    cases Except.ok.inj prepared
    exact GraphDelta.applyReplay (by assumption)
  have same : (w.accepted frame ops d).base = w.base ∧
      (w.accepted frame ops d).autoCompactOverride = w.autoCompactOverride := by
    unfold Writer.accepted Writer.acked
    split <;> exact ⟨rfl,rfl⟩
  refine ⟨⟨same.2.trans t.unset,?_,?_⟩,same.1⟩
  · rw [same.1,GraphDelta.replayAppend,← t.holds]
    exact made
  · rw [List.length_append]
    exact Nat.add_le_add_right t.counted _

theorem applyTallied {w : Writer W} {s : World W} {P : Nat → Nat → SerializableGraphV2 W → Prop} (works : ∀ c, ¬faults.fails c)
    (h : Steered pk P w s.disk) {ops held : List (Op W)} {expectedSeq : Option Nat} (t : Tallied pk w held) :
    Act.ends (Step faults) (fun _ => True) (Writer.apply pk ops expectedSeq) (fun r w' _ => Applied pk w ops held r w') w s := by
  have nothing : ∀ {file : FileId}, ¬∃ c, faults.fails c ∧ c.file = some file := fun ⟨c,fails,_⟩ => works c fails
  refine Writer.endsApply trivial (fun e _ => .refused e) (fun d frame _ s' _ => ⟨trivial,fun bad => absurd bad nothing⟩)
    (fun d frame _ _ s' _ => ⟨trivial,fun bad => absurd bad nothing⟩) (fun d frame prepared s' same => ?_)
  obtain ⟨after,base⟩ := t.accepted prepared
  have cid := (acceptedPlaced w frame ops d).cid
  have limit : (w.accepted frame ops d).threshold pk = autoCompactThreshold (w.base.asAccessor pk).nodeCount := by
    rw [Writer.threshold,after.unset,base]
    rfl
  have count : (w.accepted frame ops d).deltaOps = w.deltaOps + ops.length := rfl
  have steered : Steered pk P (w.accepted frame ops d) s'.disk :=
    same ▸ (h.edited (ackedEdited s h.log h.sidecar frame)).accepted frame ops d
  refine ⟨trivial,trivial,Writer.endsAutoCompact (fun small => ⟨trivial,.kept (by omega) rfl cid base after⟩)
    (fun large => Act.endsMono (compactWorks works steered (acceptedSound prepared)) (fun r w' s' _ ended => ?_))⟩
  cases ended with
  | idle empty =>
    have some : held ++ ops ≠ [] := by
      intro none
      have counted := after.counted
      rw [none] at counted
      simp only [List.length_nil] at counted
      omega
    rw [after.busy some] at empty
    contradiction
  | panicked => exact .panicked rfl cid after
  | done more delta none unset =>
    refine .folded (by omega) (by rw [more,cid]) ⟨unset.trans after.unset,delta,?_⟩
    rw [none]
    exact Nat.zero_le _

/- What a request that nothing fails leaves of the count. -/
theorem requestTallied {w : Writer W} {s : World W} {P : Nat → Nat → SerializableGraphV2 W → Prop} (works : ∀ c, ¬faults.fails c)
    (h : Steered pk P w s.disk) {held : List (Op W)} (t : Tallied pk w held) {q : Request W}
    (unset : ∀ threshold, q = .setAutoCompactThreshold threshold → threshold = none) :
    Act.ends (Step faults) (fun _ => True) (q.run pk) (fun _ w' _ => Tallied pk w' (keptOps w w' q held)) w s := by
  have calm : ∀ {w' : Writer W}, w'.seq = w.seq → w'.compactionId = w.compactionId → Tallied pk w' held →
      Tallied pk w' (keptOps w w' q held) := by
    intro w' seq cid tally
    rw [keptOps,if_pos cid,if_pos seq,List.append_nil]
    exact tally
  have grown : ∀ {w' : Writer W}, w'.seq = w.seq + 1 → w'.compactionId = w.compactionId → Tallied pk w' (held ++ q.ops) →
      Tallied pk w' (keptOps w w' q held) := by
    intro w' seq cid tally
    rw [keptOps,if_pos cid,if_neg (by omega)]
    exact tally
  have folded : ∀ {w' : Writer W}, w'.compactionId = w.compactionId + 1 → Tallied pk w' [] →
      Tallied pk w' (keptOps w w' q held) := by
    intro w' cid tally
    rw [keptOps,if_neg (by omega)]
    exact tally
  have onward : ∀ {α : Type} (p : Io W (Writer W) α), Act.ends (Step faults) (fun _ => True) p
        (fun _ w' _ => Tallied pk w' (keptOps w w' q held)) w s →
      Act.ends (Step faults) (fun _ => True) (do let _ ← p; return none) (fun (_ : Except Stop (Option Nat)) w' _ =>
        Tallied pk w' (keptOps w w' q held)) w s := by
    intro α p ended
    refine Act.endsBind (Act.endsMono ended (fun r w' s' _ tally => ?_))
    cases r with
    | ok _ => exact ⟨trivial,tally⟩
    | error e => exact tally
  have still : Tallied pk w (keptOps w w q held) := calm rfl rfl t
  cases q with
  | apply ops expectedSeq =>
    refine Act.endsBind (Act.endsMono (applyTallied works h t) (fun r w' s' _ ended => ?_))
    cases ended with
    | refused e => exact still
    | kept small seq cid base tally => exact ⟨trivial,grown seq cid tally⟩
    | folded large cid tally => exact ⟨trivial,folded cid tally⟩
    | panicked seq cid tally => exact grown seq cid tally
  | compact =>
    refine onward _ (Writer.endsCompactCall trivial (fun _ => still)
      (fun sound => Act.endsMono (compactWorks works h sound) (fun r w' s' _ ended => ?_)))
    cases ended with
    | idle empty => exact calm rfl rfl ⟨t.unset,t.holds,Nat.zero_le _⟩
    | panicked => exact still
    | done cid delta none unset => exact folded cid ⟨unset.trans t.unset,delta,none ▸ Nat.zero_le _⟩
  | flush =>
    refine onward _ (Writer.endsFlush trivial (fun _ => still) (fun sound => Writer.endsSeal sound
      (fun s' _ => ⟨trivial,fun _ _ => calm rfl rfl ⟨t.unset,t.holds,t.counted⟩⟩)
      (fun s' _ => ⟨trivial,fun _ _ => calm rfl rfl ⟨t.unset,t.holds,t.counted⟩⟩)
      (calm rfl rfl ⟨t.unset,t.holds,t.counted⟩)))
  | setFsyncPolicy policy => exact ⟨trivial,calm rfl rfl ⟨t.unset,t.holds,t.counted⟩⟩
  | setAutoCompactThreshold threshold => exact ⟨trivial,calm rfl rfl ⟨unset threshold rfl,t.holds,t.counted⟩⟩

theorem bootTallied (b : Boot W) (s : World W) :
    Act.ends (Step faults) (fun _ => True) (b.run pk)
      (fun r _ _ => ∀ pg, r = .ok pg → Tallied pk pg.writer (pending pk s.disk)) () s := by
  have creates : ∀ (g : OrpheusGraphInner W) s, Act.ends (Step faults) (fun _ => True) (createStore pk g)
      (fun r _ _ => ∀ pg, r = .ok pg → Tallied pk pg.writer (pending pk s.disk)) () s := by
    intro g s
    refine endsCreateStore trivial (fun _ _ bad => nomatch bad) (fun sg _ _ s' _ => ⟨trivial,fun _ _ bad => nomatch bad⟩)
      (fun sg epoch _ absent _ u made => ⟨trivial,fun report pg same => ?_⟩)
    have none : pending pk s.disk = [] := by simp [pending,Disk.read,absent]
    cases Except.ok.inj same
    rw [made,none]
    exact ⟨rfl,rfl,Nat.zero_le _⟩
  cases b with
  | create g => exact creates g s
  | open_ c mode validate =>
    refine endsOpenStore trivial (fun _ _ _ bad => nomatch bad) (fun _ v => ?_) (fun _ => creates _ s)
    refine endsOpenExisting trivial (fun _ _ _ bad => nomatch bad) (fun m base walFile scan commitFile rec handle r found => ?_)
    refine endsResume (I := fun _ => True) (fun _ _ => ⟨trivial,fun _ _ _ bad => nomatch bad⟩)
      (fun _ _ => ⟨trivial,fun _ _ _ bad => nomatch bad⟩) (fun _ _ _ _ _ => ⟨trivial,fun _ _ _ bad => nomatch bad⟩)
      (fun _ _ _ _ _ => ⟨trivial,fun _ _ _ bad => nomatch bad⟩)
      (fun epoch t _ => ⟨trivial,fun s' _ => ⟨trivial,fun _ _ => trivial,fun u made => ⟨trivial,fun report pg same => ?_⟩⟩⟩)
    cases Except.ok.inj same
    rw [made]
    exact ⟨rfl,examinedPending found,Nat.zero_le _⟩

/- In every run the handle's delta is what the operations held make of its base. -/
theorem holdingTallied (parses : ∀ m, pk.parse (pk.json m) = some m) (works : ∀ c, ¬faults.fails c)
    {allowed : Store W → Event W → Store W → List (Op W) → Prop} {store : Store W} {held : List (Op W)}
    (run : Holding pk faults deaths allowed store held) :
    Settled pk store ∧ ∀ w, store.handle = some w → Tallied pk w held := by
  induction run with
  | empty => exact ⟨emptyAnchored,fun _ bad => nomatch bad⟩
  | step before step ok unset ih =>
    obtain ⟨settled,tally⟩ := ih
    refine ⟨livesSettled parses settled step,fun w handle => ?_⟩
    cases step with
    | @boot b s s' r run =>
      cases r with
      | error e => exact nomatch handle
      | ok pg =>
        cases Option.some.inj handle
        exact Act.endsExec (bootTallied b s) run pg rfl
    | @request q w₀ w' s s' r run =>
      cases Option.some.inj handle
      exact Act.endsExec (requestTallied works settled (tally w₀ rfl) (fun threshold same => unset threshold r (by rw [same]))) run
    | close run => exact nomatch handle
    | drop => exact nomatch handle
    | die may cut => exact nomatch handle
    | losePower cut loss => exact nomatch handle

theorem withinStep (parses : ∀ m, pk.parse (pk.json m) = some m) (works : ∀ c, ¬faults.fails c)
    {allowed : Store W → Event W → Store W → List (Op W) → Prop} {store store' : Store W} {e : Event W} {held : List (Op W)}
    (run : Holding pk faults deaths allowed store held) (step : Lives pk faults deaths store e store') :
    Within pk store e store' held ↔ Fitting pk store e store' held := by
  obtain ⟨settled,tally⟩ := holdingTallied parses works run
  have batch : ∀ {ops expectedSeq seq w w'}, e = .answered (.apply ops expectedSeq) (.ok (some seq)) → store.handle = some w →
      store'.handle = some w' → ((heldAfter pk store store' e held).length ≤
        autoCompactThreshold (w'.base.asAccessor pk).nodeCount ↔
      autoCompactThreshold (w.base.asAccessor pk).nodeCount < w.deltaOps + ops.length ∨
        held.length + ops.length ≤ autoCompactThreshold (w.base.asAccessor pk).nodeCount) := by
    rintro ops expectedSeq seq w w' rfl before after
    cases step with
    | @request q w₀ w₁ s s' r run =>
      cases Option.some.inj before
      cases Option.some.inj after
      have ends : Act.ends (Step faults) (fun _ => True) ((Request.apply ops expectedSeq).run pk)
          (fun r w' _ => ∀ n, r = .ok (some n) → Applied pk w ops held (.ok n) w') w s := by
        refine Act.endsBind (Act.endsMono (applyTallied works settled (tally w rfl)) (fun r w' s' _ ended => ?_))
        cases r with
        | ok n =>
          refine ⟨trivial,fun m same => ?_⟩
          cases Option.some.inj (Except.ok.inj same)
          exact ended
        | error e => exact fun _ bad => nomatch bad
      have counted := (tally w rfl).counted
      change (keptOps w w' (.apply ops expectedSeq) held).length ≤ _ ↔ _
      cases Act.endsExec ends run seq rfl with
      | kept small seq cid base tally =>
        rw [keptOps,if_pos cid,if_neg (by omega),base,List.length_append]
        change held.length + ops.length ≤ _ ↔ _
        omega
      | folded large cid tally =>
        rw [keptOps,if_neg (by omega)]
        exact ⟨fun _ => .inl large,fun _ => Nat.zero_le _⟩
  have handles : ∀ {ops expectedSeq seq}, e = .answered (.apply ops expectedSeq) (.ok (some seq)) →
      ∃ w w', store.handle = some w ∧ store'.handle = some w' := by
    rintro ops expectedSeq seq rfl
    cases step with
    | request run => exact ⟨_,_,rfl,rfl⟩
  constructor
  · intro within ops expectedSeq seq w answered before
    obtain ⟨_,w',_,after⟩ := handles answered
    exact (batch answered before after).mp (within ops expectedSeq seq w' answered after)
  · intro fitting ops expectedSeq seq w' answered after
    obtain ⟨w,_,before,_⟩ := handles answered
    exact (batch answered before after).mpr (fitting ops expectedSeq seq w answered before)

end life

/- Removals of a node that is not there: each is one more operation in the delta. -/
def removals (k : Nat) : List (Op Unit) := List.replicate k (.removeNode "")

def reopening (w : Writer Unit) (s : World Unit) : (Except Stop (PersistentGraph Unit) × Unit) × World Unit :=
  ((Boot.open_ false .mmap .crc).run plainPackages ()).run World.answers ((Writer.close plainPackages w).run World.answers s).2

theorem createdRun : Holding plainPackages noFaults True (Fitting plainPackages) ⟨creating.2,handleOf creating.1.1⟩
    (heldAfter plainPackages ⟨.empty,none⟩ ⟨creating.2,handleOf creating.1.1⟩ (.booted (.create emptyBase) creating.1.1) []) :=
  .step .empty (.boot (answersRun noFaults ((Boot.create emptyBase).run plainPackages) () .empty))
    (fun _ _ _ _ bad => nomatch bad) (fun _ _ bad => nomatch bad)

/- Some removals, a clean close, and one removal more on the next handle. -/
def crowded (k : Nat) : Bool :=
  match creating with
  | ((.ok pg,_),s₁) => match served (.apply (removals k) none) pg.writer s₁ with
    | ((_,w₂),s₂) => match reopening w₂ s₂ with
      | ((.ok pg',_),s₄) => match served (.apply (removals 1) none) pg'.writer s₄ with
        | ((.ok (some _),w₅),_) => autoCompactThreshold (w₅.base.asAccessor plainPackages).nodeCount <
            (keptOps pg'.writer w₅ (.apply (removals 1) none)
              (pending plainPackages ((Writer.close plainPackages w₂).run World.answers s₂).2.disk)).length
        | _ => false
      | _ => false
  | _ => false

def Exceeds (store store' : Store Unit) (e : Event Unit) (held : List (Op Unit)) : Prop :=
  Holding plainPackages noFaults True (fun _ _ _ _ => True) store held ∧ Lives plainPackages noFaults True store e store' ∧
    (∀ threshold r, e ≠ .answered (.setAutoCompactThreshold threshold) r) ∧ ¬Within plainPackages store e store' held

theorem crowdedExceeds {k : Nat} (all : crowded k = true) : ∃ store store' e held, Exceeds store store' e held := by
  have boots := answersRun noFaults ((Boot.create emptyBase).run plainPackages) () .empty
  change Exec _ _ _ creating.1 creating.2 at boots
  unfold crowded at all
  generalize creating = made at all boots
  obtain ⟨⟨r₁,⟨⟩⟩,s₁⟩ := made
  cases r₁ with
  | error e => simp at all
  | ok pg =>
    have fills := answersRun noFaults ((Request.apply (removals k) none).run plainPackages) pg.writer s₁
    change Exec _ _ _ (served (.apply (removals k) none) pg.writer s₁).1 (served _ pg.writer s₁).2 at fills
    simp only at all
    generalize served (.apply (removals k) none) pg.writer s₁ = filled at all fills
    obtain ⟨⟨r₂,w₂⟩,s₂⟩ := filled
    have closes := answersRun noFaults (Writer.close plainPackages) w₂ s₂
    have opens := answersRun noFaults ((Boot.open_ false .mmap .crc).run plainPackages) ()
      ((Writer.close plainPackages w₂).run World.answers s₂).2
    change Exec _ _ _ (reopening w₂ s₂).1 (reopening w₂ s₂).2 at opens
    simp only at all
    generalize reopening w₂ s₂ = opened at all opens
    obtain ⟨⟨r₃,⟨⟩⟩,s₄⟩ := opened
    cases r₃ with
    | error e => simp at all
    | ok pg' =>
      have adds := answersRun noFaults ((Request.apply (removals 1) none).run plainPackages) pg'.writer s₄
      change Exec _ _ _ (served (.apply (removals 1) none) pg'.writer s₄).1 (served _ pg'.writer s₄).2 at adds
      simp only at all
      generalize served (.apply (removals 1) none) pg'.writer s₄ = added at all adds
      obtain ⟨⟨r₅,w₅⟩,s₅⟩ := added
      have run : Holding plainPackages noFaults True (fun _ _ _ _ => True) ⟨s₄,some pg'.writer⟩ _ :=
        .step (.step (.step (.step .empty (.boot boots) trivial (fun _ _ bad => nomatch bad)) (.request fills) trivial
          (fun _ _ bad => nomatch bad)) (.close closes) trivial (fun _ _ bad => nomatch bad)) (.boot opens) trivial
          (fun _ _ bad => nomatch bad)
      match r₅ with
      | .ok (some n) =>
        refine ⟨_,_,_,_,run,.request adds,(fun _ _ bad => nomatch bad),fun within => ?_⟩
        have small := within _ _ _ w₅ rfl rfl
        simp only [decide_eq_true_eq] at all
        exact absurd small (Nat.not_le.mpr all)
      | .ok none => simp at all
      | .error e => simp at all

end OrpheusGraph
