import OrpheusGraph.Held

/-! Every request and every close keeps the timeline, whatever fails and wherever it is cut. -/
namespace OrpheusGraph
open Storage Effects
variable {W : Type} [Arith W] [TotalCmp W] {loss : Prop} {pk : Packages W} {D : Known W} {faults : Faults W} {s : World W} {w : Writer W}

/-! A compaction under a new name in the ledger. -/
def Ledger.label {W : Type} (ledger : Ledger W) (seq cid : Nat) (a : GraphAccessor W) : Ledger W :=
  fun n c => if n = seq ∧ c = cid then a else ledger n c

section label
variable {ledger : Ledger W} {t : Timeline W} {k : Marks}

omit [Arith W] [TotalCmp W] in
theorem Carries.relabel (c : Carries loss pk D ledger t k w s) {n : Ledger W}
    (agrees : ∀ seq cid, SameGraph (ledger seq cid) (t.view pk (seq - t.start)) → SameGraph (n seq cid) (t.view pk (seq - t.start))) :
    Carries loss pk D n t k w s := by
  have fits : ∀ {m}, Fits loss pk ledger t k m → Fits loss pk n t k m := fun f =>
    ⟨f.version,f.floor,f.ceil,f.ends,f.high,agrees _ _ f.graph⟩
  have disk : Standing loss pk n t k s.disk := c.tracks.disk.map c.tracks.disk.start c.tracks.disk.ceil c.tracks.disk.high
    (fun _ f => fits f) (fun _ _ _ logs => logs) (fun _ _ _ stamped => stamped)
  exact ⟨⟨disk,c.tracks.sound,c.tracks.told⟩,fits c.own,c.durable,c.level,c.even,c.live⟩

/- The archive that a compaction of the writer makes shows its graph. -/
theorem foldShown (c : Carries loss pk D ledger t k w s) (sound : w.wal.poisoned = false)
    (room : w.delta.addedEdges.length ≤ 2^32) {sg : SerializableGraphV2 W} (archived : archive (w.fold pk) = some sg) :
    Portrays pk sg (w.state.view pk) := foldPortrays ((c.live sound).proper c.tracks.sound) room archived

theorem Steered.relabel {d : StoreDisk W} (h : Steered pk (fun seq cid sg => Portrays pk sg (ledger seq cid)) w d)
    (shown : ∀ sg, archive (w.fold pk) = some sg → Portrays pk sg (w.state.view pk)) :
    Steered pk (fun seq cid sg => Portrays pk sg (ledger.label w.seq (w.compactionId + 1) (w.state.view pk) seq cid)) w d := by
  have holds : ∀ seq cid sg, Ahead pk w seq cid sg ∧ Portrays pk sg (ledger seq cid) →
      Ahead pk w seq cid sg ∧ Portrays pk sg (ledger.label w.seq (w.compactionId + 1) (w.state.view pk) seq cid) := by
    rintro seq cid sg ⟨ahead,portrays⟩
    refine ⟨ahead,?_⟩
    rw [Ledger.label]
    split
    · obtain ⟨rfl,rfl⟩ := ‹seq = w.seq ∧ cid = w.compactionId + 1›
      exact shown sg ((ahead.2 rfl).2 rfl)
    · exact portrays
  obtain ⟨sg,own⟩ := h.own
  refine ⟨h.anchored.mono holds,h.log,h.sidecar,sg,own.named,own.crc,own.archived,?_⟩
  have older : ¬(w.snapshotSeq = w.seq ∧ w.compactionId = w.compactionId + 1) := fun both => absurd both.2 (Nat.succ_ne_self _).symm
  change Portrays pk sg (ledger.label w.seq (w.compactionId + 1) (w.state.view pk) w.snapshotSeq w.compactionId)
  rw [Ledger.label,if_neg older]
  exact own.holds

end label

theorem compactHeld (tame : Tame loss faults) (h : Held loss pk D w s) (sound : w.wal.poisoned = false) (small : Small s) :
    Act.ends (Step faults) (Kept loss pk D) (Writer.compactLocked pk) (fun _ w' s' => Held loss pk D w' s') w s := by
  obtain ⟨ledger,steered,t,k,c⟩ := h
  have live := c.live sound
  have room : w.delta.addedEdges.length ≤ 2^32 := small w.state (List.mem_of_getLast? live.state)
  have label : (ledger.label w.seq (w.compactionId + 1) (w.state.view pk)) w.seq (w.compactionId + 1) = w.state.view pk :=
    if_pos ⟨rfl,rfl⟩
  have labelled := c.relabel (n := ledger.label w.seq (w.compactionId + 1) (w.state.view pk)) (fun seq cid same => by
    rw [Ledger.label]
    split
    · obtain ⟨rfl,rfl⟩ := ‹seq = w.seq ∧ cid = w.compactionId + 1›
      rw [live.view,← live.top,show t.top - t.start = t.batches.length from Nat.add_sub_cancel_left ..]
      exact .refl _
    · exact same)
  have shown : ∀ sg, archive (w.fold pk) = some sg → Portrays pk sg (w.state.view pk) := fun sg fits => foldShown c sound room fits
  obtain ⟨sg,own⟩ := steered.own
  refine Act.endsWeaken (Act.endsAnd (compactAnchored (steered.relabel shown) sound (fun sg fits => ?_))
    (compactCarries tame labelled sound room ?_ ⟨steered.log,steered.sidecar⟩ ⟨_,_,own.named⟩)) (fun s' both => ⟨_,both⟩)
    (fun _ _ _ _ both => ⟨_,both⟩)
  · rw [label]
    exact shown sg fits
  · rw [label]
    exact .refl _

theorem Held.kept (h : Held loss pk D w s) : Kept loss pk D s := by
  obtain ⟨ledger,steered,t,k,c⟩ := h
  exact ⟨ledger,steered.weaken,t,k,_,c.tracks⟩

theorem Held.tuned (h : Held loss pk D w s) (policy : FsyncPolicy) (deltaOps : Nat) (threshold : Option Nat) :
    Held loss pk D { w with
      wal := { w.wal with policy := policy }
      deltaOps := deltaOps
      autoCompactOverride := threshold } s := by
  obtain ⟨ledger,steered,t,k,c⟩ := h
  refine ⟨ledger,⟨steered.anchored,steered.log,steered.sidecar,steered.own⟩,t,k,c.tracks,c.own,c.durable,c.level,c.even,fun sound => ?_⟩
  have live := c.live sound
  exact ⟨⟨live.file,live.log,live.sidecar,live.mark⟩,live.base,live.delta,live.top,live.state⟩

theorem sealHeld (h : Held loss pk D w s) (sound : w.wal.poisoned = false) :
    Act.ends (Step faults) (Kept loss pk D) Writer.sealLog (fun _ w' s' => Held loss pk D w' s') w s := by
  obtain ⟨ledger,steered,t,k,c⟩ := h
  exact Act.endsWeaken (Act.endsAnd (sealAnchored steered sound) (sealCarries c sound)) (fun s' both => ⟨_,both⟩)
    (fun _ _ _ _ both => ⟨_,both⟩)

section batch
variable {ops : List (Op W)} {expectedSeq : Option Nat} {d : GraphDelta W} {bytes : Bytes}

/- Up to the answer, with the batch published. -/
theorem acceptedHeld (h : Held loss pk D w s) (asked : D.asked ops) (prepared : w.prepare pk ops expectedSeq = .ok (d,bytes)) :
    Kept loss pk D (w.ackedWorld bytes s) ∧
      Held loss pk D (w.accepted bytes ops d) (Writer.announced (w.ackedWorld bytes s) ⟨w.base,d,w.seq + 1,w.epoch⟩) := by
  obtain ⟨ledger,steered,t,k,c⟩ := h
  have acked : Edited s.disk (w.ackedWorld bytes s).disk := ackedEdited s steered.log steered.sidecar bytes
  have now : Steered pk _ (w.accepted bytes ops d) (w.ackedWorld bytes s).disk := (steered.edited acked).accepted bytes ops d
  obtain ⟨tracks,t',k',c'⟩ := c.accepted asked prepared
  exact ⟨⟨ledger,now.weaken,tracks⟩,ledger,now,t',k',c'⟩

theorem autoCompactHeld (tame : Tame loss faults) (h : Held loss pk D w s) (sound : w.wal.poisoned = false) :
    Act.ends (Step faults) (fun s' => Small s' → Kept loss pk D s') (Writer.autoCompact pk)
      (fun _ w' s' => Small s' → Held loss pk D w' s') w s := by
  refine Writer.endsAutoCompact (fun _ => ⟨fun _ => h.kept,fun _ => h⟩) (fun _ => ?_)
  by_cases small : Small s
  · refine Act.endsWeaken (compactHeld tame h sound small) (fun _ kept _ => kept) (fun r w' s' _ held => ?_)
    rcases r with (e | _) | _
    · exact fun _ => held.tuned w'.wal.policy 0 w'.autoCompactOverride
    · exact fun _ => held
    · exact fun _ => held
  · refine Act.endsMono (endsLarge (Q := fun _ _ _ => False) small) (fun r w' s' _ large => ?_)
    rcases r with (e | _) | _ <;> exact fun small => (large small).elim

theorem applyHeld (tame : Tame loss faults) (h : Held loss pk D w s) (asked : D.asked ops) (expectedSeq : Option Nat) :
    Act.ends (Step faults) (fun s' => Small s' → Kept loss pk D s') (Writer.apply pk ops expectedSeq)
      (fun _ w' s' => Small s' → Held loss pk D w' s') w s := by
  have held := h
  obtain ⟨ledger,steered,t,k,c⟩ := h
  refine Writer.endsApply (fun _ => held.kept) (fun e _ _ => held) (fun d bytes prepared s' way => ?_)
    (fun d bytes prepared due s' way => ?_) (fun d bytes prepared s' same => ?_)
  · have now := steered.edited (loggingEdited way steered.log)
    have tracks := c.logging prepared way
    exact ⟨fun _ => ⟨ledger,now.weaken,t,k,_,tracks⟩,fun _ _ _ _ _ => ⟨ledger,⟨now.anchored,steered.log,steered.sidecar,now.own⟩,t,k,
      .failed tracks c.own c.durable c.level rfl⟩⟩
  · have now := steered.edited ((loggedEdited s steered.log _).trans (markingEdited way steered.sidecar))
    have tracks := c.marking asked prepared due way
    refine ⟨fun _ => ⟨ledger,now.weaken,_,_,_,tracks⟩,fun _ _ _ => ⟨ledger,⟨now.anchored,?_,steered.sidecar,now.own⟩,_,_,
      .failed tracks ?_ c.durable c.level rfl⟩⟩
    · exact (loggedFile w bytes).symm ▸ steered.log
    · have even := c.even (Writer.preparedSound prepared)
      exact (c.own.grown ops even c.tracks.disk.start c.tracks.disk.ceil).wider (Nat.le_refl _) (Nat.le_refl _) (Nat.le_refl _)
  · obtain rfl := same
    obtain ⟨kept,accepted⟩ := acceptedHeld held asked prepared
    exact ⟨fun _ => kept,fun _ => accepted.kept,autoCompactHeld tame accepted (acceptedSound prepared)⟩

end batch

/- The batch of a request, if it has one, is among `asked`. -/
def Request.Within (asked : List (Op W) → Prop) : Request W → Prop
  | .apply ops _ => asked ops
  | _ => True

theorem requestHeld (tame : Tame loss faults) (h : Small s → Held loss pk D w s) {q : Request W} (asked : q.Within D.asked) :
    Act.ends (Step faults) (fun s' => Small s' → Kept loss pk D s') (q.run pk) (fun _ w' s' => Small s' → Held loss pk D w' s') w s := by
  by_cases small : Small s
  · have held := h small
    have answers : ∀ {p : Io W (Writer W) Unit}, Act.ends (Step faults) (Kept loss pk D) p (fun _ w' s' => Held loss pk D w' s') w s →
        Act.ends (Step faults) (fun s' => Small s' → Kept loss pk D s') (p >>= fun _ => pure (none : Option Nat))
          (fun _ w' s' => Small s' → Held loss pk D w' s') w s := by
      intro p ends
      refine Act.endsBind (Act.endsWeaken ends (fun _ kept _ => kept) (fun r w' s' kept held => ?_))
      cases r with
      | ok _ => exact ⟨fun _ => kept,fun _ => held⟩
      | error e => exact fun _ => held
    cases q with
    | apply ops expectedSeq =>
      refine Act.endsBind (Act.endsMono (applyHeld tame held asked expectedSeq) (fun r w' s' kept held => ?_))
      cases r with
      | ok _ => exact ⟨kept,held⟩
      | error e => exact held
    | compact => exact answers (Writer.endsCompactCall held.kept (fun _ => held) (fun sound => compactHeld tame held sound small))
    | flush => exact answers (Writer.endsFlush held.kept (fun _ => held) (fun sound => sealHeld held sound))
    | setFsyncPolicy policy => exact ⟨fun _ => held.kept,fun _ => held.tuned policy w.deltaOps w.autoCompactOverride⟩
    | setAutoCompactThreshold threshold => exact ⟨fun _ => held.kept,fun _ => held.tuned w.wal.policy w.deltaOps threshold⟩
  · exact endsLarge small

/-! A close, and what is left without a handle. -/
/- No change of the MANIFEST's name is waiting for the directory to be synced. -/
def Quiet (d : StoreDisk W) : Prop := ∀ o, d.MayBind manifestName o → o = d.dir manifestName

def Level (loss : Prop) (k : Marks) (d : StoreDisk W) : Prop := loss → Quiet d ∨ k.ceil ≤ k.floor

def Rests (loss : Prop) (pk : Packages W) (D : Known W) (s : World W) : Prop :=
  ∃ ledger, Anchored pk (fun seq cid sg => Portrays pk sg (ledger seq cid)) s.disk ∧
    ∃ t k hi, Tracks loss pk D ledger t k hi s ∧ Level loss k s.disk

omit [Arith W] in
theorem Rests.kept (h : Rests loss pk D s) : Kept loss pk D s := by
  obtain ⟨ledger,anchored,t,k,hi,tracks,_⟩ := h
  exact ⟨ledger,anchored,t,k,hi,tracks⟩

theorem Held.rests (h : Held loss pk D w s) : Rests loss pk D s := by
  obtain ⟨ledger,steered,t,k,c⟩ := h
  exact ⟨ledger,steered.weaken,t,k,_,c.tracks,fun may => .inr (c.level may)⟩

section closing
variable {ledger : Ledger W} {t : Timeline W} {k : Marks}

omit [Arith W] [TotalCmp W] in
theorem closeWithCarries (c : Carries loss pk D ledger t k w s) (clean : Bool) :
    Act.ends (Step faults) (fun s' => ∃ t k hi, Tracks loss pk D ledger t k hi s') (Writer.closeWith pk clean)
      (fun _ _ s' => ∃ t k hi, Tracks loss pk D ledger t k hi s' ∧ Level loss k s'.disk) w s := by
  have replacing : ∀ s', s.Replacing manifestName (manifestCells pk (w.buildManifest clean)) s' →
      Tracks loss pk D ledger t k w.seq s' := by
    rintro s' ⟨d,way,rfl⟩
    exact c.tracks.still (c.tracks.disk.replacing way (by decide) (by decide) (tmpNameApart (by decide)).symm
      (fun _ => ⟨_,rfl,c.own.alike rfl rfl rfl c.own.high⟩))
  exact Writer.endsCloseWith (fun s' way => ⟨⟨t,k,_,replacing s' way⟩,fun _ _ => ⟨t,k,_,replacing s' way,fun may => .inr (c.level may)⟩⟩)
    ⟨t,k,_,replacing _ ⟨_,.replaced,rfl⟩,fun may => .inr (c.level may)⟩

omit [Arith W] [TotalCmp W] in
theorem closeCarries (c : Carries loss pk D ledger t k w s) :
    Act.ends (Step faults) (fun s' => ∃ t k hi, Tracks loss pk D ledger t k hi s') (Writer.close pk)
      (fun _ _ s' => ∃ t k hi, Tracks loss pk D ledger t k hi s' ∧ Level loss k s'.disk) w s := by
  have refused : ∀ {w : Writer W} {s : World W} {t k}, Carries loss pk D ledger t k w s →
      Act.ends (Step faults) (fun s' => ∃ t k hi, Tracks loss pk D ledger t k hi s') (Writer.closeWith pk false)
        (Act.onward (Step faults) (fun s' => ∃ t k hi, Tracks loss pk D ledger t k hi s')
          (fun _ => (refuse .poisoned : Io W (Writer W) Unit))
          (fun _ _ s' => ∃ t k hi, Tracks loss pk D ledger t k hi s' ∧ Level loss k s'.disk)) w s := by
    intro w s t k c
    refine Act.endsMono (closeWithCarries c false) (fun r _ s' now ended => ?_)
    cases r with
    | ok _ => exact ⟨now,ended⟩
    | error e => exact ended
  refine Writer.endsClose (fun _ => refused c) (fun sound => Act.endsMono (sealCarries c sound) (fun r w' s' _ ended => ?_))
  obtain ⟨t',k',c'⟩ := ended
  cases r with
  | ok _ => exact closeWithCarries c' true
  | error e => exact refused c'

end closing

theorem closeHeld (h : Held loss pk D w s) :
    Act.ends (Step faults) (Kept loss pk D) (Writer.close pk) (fun _ _ s' => Rests loss pk D s') w s := by
  obtain ⟨ledger,steered,t,k,c⟩ := h
  exact Act.endsWeaken (Act.endsAnd (closeAnchored steered) (closeCarries c)) (fun s' both => ⟨_,both⟩)
    (fun _ _ _ _ both => ⟨_,both⟩)

end OrpheusGraph
