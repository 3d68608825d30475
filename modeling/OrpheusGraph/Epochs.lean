import OrpheusGraph.Lasting

/-! The clean mark of the MANIFEST. It is there only between a close that has synced everything and the
next open, which takes it away before its handle is there. -/
namespace OrpheusGraph
open Storage Effects
variable {W : Type} {loss : Prop} {pk : Packages W} {cur : Option Nat} {d d' : StoreDisk W}

/- Whatever MANIFEST may be found, if it says clean it is of the epoch `cur`. -/
def Flagged (loss : Prop) (pk : Packages W) (cur : Option Nat) (d : StoreDisk W) : Prop :=
  d.Firm loss (tmpName manifestName) manifestName
    (fun o => ∃ m, o = some (manifestCells pk m) ∧ (m.cleanShutdown = true → cur = some m.epoch))

theorem Flagged.weaken (h : Flagged loss pk none d) : Flagged loss pk cur d :=
  h.mono (fun _ found => found.imp (fun _ both => ⟨both.1,fun clean => nomatch both.2 clean⟩))

theorem Flagged.edited (h : Flagged loss pk cur d) (e : Edited d d') : Flagged loss pk cur d' := by
  induction e with
  | same => exact h
  | file f before which ih => exact Disk.Firm.setFile ih f (fileApart which _)
  | dir before ih => exact Disk.Firm.syncDir ih

theorem Flagged.unlink (h : Flagged loss pk cur d) {name : String} (other : name ≠ manifestName) :
    Flagged loss pk cur (d.change (.unlink name)) := Disk.Firm.change h (if_neg other.symm)

theorem Flagged.aside (h : Flagged loss pk cur d) {name : String} {cells : List (Stored W)}
    (way : Disk.Replacing (tmpName name) name cells d d') (other : name ≠ manifestName) : Flagged loss pk cur d' :=
  Disk.Firm.replacing h way (tmpNameApart (by decide)).symm (fun same => absurd same.symm other)

theorem Flagged.manifest (h : Flagged loss pk cur d) {m : Manifest}
    (way : Disk.Replacing (tmpName manifestName) manifestName (manifestCells pk m) d d')
    (flag : m.cleanShutdown = true → cur = some m.epoch) : Flagged loss pk cur d' :=
  Disk.Firm.replacing h way (tmpNameApart (by decide)).symm (fun _ => ⟨rfl,m,rfl,flag⟩)

theorem flaggedReplaced (d : StoreDisk W) {m : Manifest} (flag : m.cleanShutdown = true → cur = some m.epoch) :
    Flagged loss pk cur (d.replaced (tmpName manifestName) manifestName (manifestCells pk m)) :=
  Disk.firmReplaced ⟨m,rfl,flag⟩

theorem Flagged.powerLoss (h : Flagged loss pk cur d) (may : loss) (lost : d.PowerLoss d') : Flagged loss pk cur d' :=
  Disk.Firm.powerLoss h may lost

theorem Flagged.found (h : Flagged loss pk cur d) (parses : ∀ m, pk.parse (pk.json m) = some m) {m : Manifest}
    (reads : Reads pk d m) (clean : m.cleanShutdown = true) : cur = some m.epoch := by
  obtain ⟨cells,there,text⟩ := reads
  obtain ⟨m',written,flag⟩ := Disk.Firm.read h
  cases Option.some.inj (there.symm.trans written)
  rw [manifestCells,bytesOfCells,parses] at text
  cases Option.some.inj text
  exact flag clean

/-! While a handle is there. -/
section serving
variable {faults : Faults W} {s : World W} {w : Writer W}

/- The files of a writer. -/
structure Writer.Filed (w : Writer W) : Prop where
  log : w.wal.file.1 = walName
  sidecar : w.commitFile.1 = commitName
  snapshot : w.snapshotFile ≠ manifestName

theorem Held.filed [Arith W] [TotalCmp W] {D : Known W} (h : Held loss pk D w s) : w.Filed := by
  obtain ⟨_,steered,_⟩ := h
  obtain ⟨_,own⟩ := steered.own
  exact ⟨steered.log,steered.sidecar,fun same => snapshotNotManifest _ _ (own.named.symm.trans same)⟩

theorem Writer.Filed.accepted (f : w.Filed) (frame : Bytes) (ops : List (Op W)) (next : GraphDelta W) :
    (w.accepted frame ops next).Filed := by
  have placed := acceptedPlaced w frame ops next
  exact ⟨placed.log ▸ f.log,placed.sidecar ▸ f.sidecar,placed.file ▸ f.snapshot⟩

variable [Arith W]

theorem settleFlagged {u : Writer W} {m : Manifest} (sound : u.wal.poisoned = false) (log : u.wal.file.1 = walName)
    (sidecar : u.commitFile.1 = commitName) (old : w.snapshotFile ≠ manifestName) (h : Flagged loss pk cur s.disk) :
    Act.ends (Step faults) (fun v => Flagged loss pk cur v.disk) (Writer.settle pk w m) (fun _ _ v => Flagged loss pk cur v.disk) u s := by
  have stamped : Edited s.disk (u.stamped (max w.durableSeq w.seq) s).disk := markingEdited .marked sidecar
  have flat : Edited s.disk (u.logCut (u.stamped (max w.durableSeq w.seq) s)).disk := logCutEdited u _ s log sidecar
  refine Writer.endsSettle sound (fun s' way => ?_) (fun s' member => ?_) (fun _ _ => h.edited flat) (fun base _ s' left => ?_)
  · have now := h.edited (markingEdited way sidecar)
    exact ⟨now,fun _ _ => now⟩
  · have now : Flagged loss pk cur s'.disk := by
      simp only [List.mem_cons,List.not_mem_nil,or_false] at member
      rcases member with rfl | rfl | rfl
      · exact h.edited stamped
      · exact h.edited (.file _ stamped (.inl log))
      · exact h.edited flat
    exact ⟨now,fun _ _ _ _ => now⟩
  · rcases left with rfl | ⟨_,rfl⟩
    · exact ⟨h.edited flat,h.edited flat⟩
    · exact ⟨(h.edited flat).unlink old,(h.edited flat).unlink old⟩

theorem compactFlagged [TotalCmp W] (f : w.Filed) (sound : w.wal.poisoned = false) (h : Flagged loss pk cur s.disk) :
    Act.ends (Step faults) (fun v => Flagged loss pk cur v.disk) (Writer.compactLocked pk) (fun _ _ v => Flagged loss pk cur v.disk) w s := by
  have other : ∀ sg, (w.foldManifest pk sg).snapshotFile ≠ manifestName := fun sg => snapshotNotManifest _ _
  refine Writer.endsCompact h (fun _ => h) (fun _ _ => h) (fun sg _ _ s' way => ?_) (fun sg _ _ s' way => ?_) (fun sg _ _ => ?_)
  · obtain ⟨d,way,rfl⟩ := way
    exact ⟨h.aside way (other sg),fun _ _ => h.aside way (other sg)⟩
  · obtain ⟨d,way,rfl⟩ := way
    have now := (h.aside .replaced (other sg)).manifest way (fun bad => nomatch bad)
    exact ⟨now,fun _ _ => now⟩
  · exact settleFlagged sound f.log f.sidecar f.snapshot (flaggedReplaced _ (fun bad => nomatch bad))

omit [Arith W] in
theorem sealFlagged (f : w.Filed) (sound : w.wal.poisoned = false) (h : Flagged loss pk cur s.disk) :
    Act.ends (Step faults) (fun v => Flagged loss pk cur v.disk) Writer.sealLog (fun _ _ v => Flagged loss pk cur v.disk) w s := by
  have synced : Edited s.disk (w.wal.synced s).disk := .file _ .same (.inl f.log)
  refine Writer.endsSeal sound (fun s' member => ?_) (fun s' way => ?_) (h.edited (synced.trans (markingEdited .marked f.sidecar)))
  · have now : Flagged loss pk cur s'.disk := by
      rcases List.mem_pair.mp member with rfl | rfl
      · exact h
      · exact h.edited synced
    exact ⟨now,fun _ _ => now⟩
  · have now := h.edited (synced.trans (markingEdited way f.sidecar))
    exact ⟨now,fun _ _ => now⟩

theorem requestFlagged [TotalCmp W] (f : w.Filed) (h : Flagged loss pk cur s.disk) (q : Request W) :
    Act.ends (Step faults) (fun v => Flagged loss pk cur v.disk) (q.run pk) (fun _ _ v => Flagged loss pk cur v.disk) w s := by
  have answers : ∀ {α β : Type} {p : Io W (Writer W) α} {g : α → β}, Act.ends (Step faults) (fun v => Flagged loss pk cur v.disk) p
      (fun _ _ v => Flagged loss pk cur v.disk) w s → Act.ends (Step faults) (fun v => Flagged loss pk cur v.disk)
        (p >>= fun a => pure (g a)) (fun _ _ v => Flagged loss pk cur v.disk) w s := by
    intro α β p g ends
    refine Act.endsBind (Act.endsMono ends (fun r _ v now last => ?_))
    cases r with
    | ok _ => exact ⟨now,now⟩
    | error e => exact now
  cases q with
  | apply ops expectedSeq =>
    refine answers (Writer.endsApply h (fun _ _ => h) (fun _ frame _ s' way => ?_) (fun _ frame _ _ s' way => ?_)
      (fun next frame prepared s' same => ?_))
    · have now := h.edited (loggingEdited way f.log)
      exact ⟨now,fun _ _ _ _ => now⟩
    · have now := h.edited ((loggedEdited s f.log frame).trans (markingEdited way f.sidecar))
      exact ⟨now,fun _ _ => now⟩
    · subst same
      have now : Flagged loss pk cur (w.ackedWorld frame s).disk := h.edited (ackedEdited s f.log f.sidecar frame)
      refine ⟨now,now,Writer.endsAutoCompact (fun _ => ⟨now,now⟩) (fun _ => ?_)⟩
      refine Act.endsMono (compactFlagged (f.accepted frame ops next) (acceptedSound prepared) now) (fun r _ v _ last => ?_)
      rcases r with (e | _) | _ <;> exact last
  | compact => exact answers (Writer.endsCompactCall h (fun _ => h) (fun sound => compactFlagged f sound h))
  | flush => exact answers (Writer.endsFlush h (fun _ => h) (fun sound => sealFlagged f sound h))
  | setFsyncPolicy policy => exact ⟨h,h⟩
  | setAutoCompactThreshold threshold => exact ⟨h,h⟩

end serving

/- Nothing more is published. -/
structure Unshown (loss : Prop) (pk : Packages W) (cur : Option Nat) (s u : World W) : Prop where
  shown : u.published = s.published
  flags : Flagged loss pk cur u.disk

/-! A close sets it when all is durable. -/
section closing
variable [Arith W] [TotalCmp W] {faults : Faults W} {s : World W} {w : Writer W}

/- What is known of a state that is durable, as long as no batch is asked for. -/
def Known.sealed (pk : Packages W) (g : GraphState W) (since : Nat) : Known W := ⟨g.seq,fun _ => False,since,g.view pk⟩

omit [Arith W] [TotalCmp W] in
theorem sealEnds (sound : w.wal.poisoned = false) : Act.ends (Step faults) (fun u => u.published = s.published) Writer.sealLog
    (fun r w' u => u.published = s.published ∧ (r = .ok () → w' = w.sealed)) w s := by
  refine Writer.endsSeal sound (fun s' member => ?_) (fun s' way => ?_) ⟨rfl,fun _ => rfl⟩
  · have same : s'.published = s.published := by
      rcases List.mem_pair.mp member with rfl | rfl <;> rfl
    exact ⟨same,fun _ _ => ⟨same,fun bad => nomatch bad⟩⟩
  · have same : s'.published = s.published := (markingShown way).trans rfl
    exact ⟨same,fun _ _ => ⟨same,fun bad => nomatch bad⟩⟩

omit [Arith W] [TotalCmp W] in
theorem closeWithFlagged (h : Flagged loss pk cur s.disk) {clean : Bool} (flag : clean = true → cur = some w.epoch) :
    Act.ends (Step faults) (Unshown loss pk cur s) (Writer.closeWith pk clean) (fun _ _ u => Unshown loss pk cur s u) w s := by
  have left : ∀ s', s.Replacing manifestName (manifestCells pk (w.buildManifest clean)) s' → Unshown loss pk cur s s' := by
    intro s' way
    obtain ⟨d,way,rfl⟩ := way
    exact ⟨rfl,h.manifest way flag⟩
  exact Writer.endsCloseWith (fun s' way => ⟨left s' way,fun _ _ => left s' way⟩) (left _ ⟨_,.replaced,rfl⟩)

theorem closeWithHeld {D : Known W} (h : Held loss pk D w s) (clean : Bool) :
    Act.ends (Step faults) (Kept loss pk D) (Writer.closeWith pk clean) (fun _ _ u => Rests loss pk D u) w s := by
  obtain ⟨ledger,steered,t,k,c⟩ := h
  exact Act.endsWeaken (Act.endsAnd (closeWithAnchored steered) (closeWithCarries c clean)) (fun u both => ⟨_,both⟩)
    (fun _ _ _ _ both => ⟨_,both⟩)

/- The mark is not there, or all of it is durable. -/
def Shut (loss : Prop) (pk : Packages W) (still : Known W → World W → Prop) (w : Writer W) (s u : World W) : Prop :=
  Unshown loss pk none s u ∨ Unshown loss pk (some w.epoch) s u ∧ still (.sealed pk w.state s.published.length) u

theorem closeLeaves {D : Known W} (held : Held loss pk D w s) (h : Flagged loss pk none s.disk) :
    Act.ends (Step faults) (Shut loss pk (Kept loss pk) w s) (Writer.close pk) (fun _ _ u => Shut loss pk (Rests loss pk) w s u) w s := by
  have refused : ∀ {w' : Writer W} {v : World W}, Unshown loss pk none s v →
      Act.ends (Step faults) (Shut loss pk (Kept loss pk) w s) (Writer.closeWith pk false)
        (Act.onward (Step faults) (Shut loss pk (Kept loss pk) w s) (fun _ => (refuse .poisoned : Io W (Writer W) Unit))
          (fun _ _ u => Shut loss pk (Rests loss pk) w s u)) w' v := by
    intro w' v before
    have onward : ∀ {u}, Unshown loss pk none v u → Unshown loss pk none s u := fun u => ⟨u.shown.trans before.shown,u.flags⟩
    refine Act.endsWeaken (closeWithFlagged before.flags (fun bad => nomatch bad)) (fun u left => .inl (onward left)) (fun r _ u left _ => ?_)
    cases r with
    | ok _ => exact ⟨.inl (onward left),.inl (onward left)⟩
    | error e => exact .inl (onward left)
  refine Writer.endsClose (fun _ => refused ⟨rfl,h⟩) (fun sound => ?_)
  refine Act.endsWeaken (Act.endsAnd (sealFlagged held.filed sound h) (Act.endsAnd (sealHeld held sound) (sealEnds sound)))
    (fun u all => .inl ⟨all.2.2,all.1⟩) (fun r w' u _ all => ?_)
  obtain ⟨flags,held',shown,sealed⟩ := all
  cases r with
  | error e => exact refused ⟨shown,flags⟩
  | ok _ =>
    cases sealed rfl
    have pinned : Held loss pk (.sealed pk w.state u.published.length) w.sealed u := Held.pinned held' sound rfl _
    rw [shown] at pinned
    have onward : ∀ {v}, Unshown loss pk (some w.epoch) u v → Unshown loss pk (some w.epoch) s v := fun v => ⟨v.shown.trans shown,v.flags⟩
    exact Act.endsWeaken (Act.endsAnd (closeWithFlagged flags.weaken (fun _ => rfl)) (closeWithHeld pinned true))
      (fun v both => .inr ⟨onward both.1,both.2⟩) (fun _ _ v _ both => .inr ⟨onward both.1,both.2⟩)

end closing

/-! A boot takes the mark away. -/
section boots
variable {faults : Faults W} {s u : World W}

/- The state of the new handle is, under an epoch that a clean MANIFEST had or one that was not there before. -/
structure Shown (loss : Prop) (pk : Packages W) (faults : Faults W) (cur : Option Nat) (s : World W) (g : GraphState W) (u : World W) : Prop where
  shown : u.published = s.published ++ [g]
  proper : Proper pk g
  flags : Flagged loss pk none u.disk
  epoch : cur = some g.epoch ∨ (faults.fresh → g.epoch ∉ s.minted) ∧ g.epoch ∈ u.minted

def leftBy (loss : Prop) (pk : Packages W) (faults : Faults W) (cur : Option Nat) (s : World W) :
    Except Stop (PersistentGraph W) → World W → Prop
  | .ok pg, u => Shown loss pk faults cur s pg.writer.state u
  | .error _, u => Unshown loss pk cur s u

variable {σ : Type} {st : σ} {mode : BaseMode} {validate : Validation}

theorem resumeLeaves [TotalCmp W] (parses : ∀ m, pk.parse (pk.json m) = some m) {P : Nat → Nat → SerializableGraphV2 W → Prop}
    (a : Anchored pk P s.disk) (h : Flagged loss pk cur s.disk) {m : Manifest} {base : BaseGraph W} {walFile : FileId}
    {scan : ScanResult W} {commitFile : FileId} {rec : CommitRecord} {handle : CommitFile} {r : Replay W}
    (found : Examined pk mode validate s m base walFile scan commitFile rec handle r)
    (proper : ∀ epoch, Proper pk (reopened mode m base walFile commitFile rec handle r epoch).state) :
    Act.ends (Step faults) (fun u => Unshown loss pk cur s u ∨ ∃ g, Shown loss pk faults cur s g u)
      (resume pk mode m base walFile scan commitFile rec handle r) (fun out _ u => leftBy loss pk faults cur s out u) st s := by
  have log : walFile.1 = walName := a.log walFile (found.log ▸ Disk.mayBindDir s.disk walName)
  have sidecar : commitFile.1 = commitName := a.sidecar commitFile (found.sidecar.bound ▸ Disk.mayBindDir s.disk commitName)
  obtain ⟨cells,there,passed⟩ := found.manifest
  have clean : m.cleanShutdown = true → cur = some m.epoch := h.found parses ⟨cells,there,checkedParsed passed⟩
  have cut : Edited s.disk (cutTail walFile r.committedEnd s).disk ∧ (cutTail walFile r.committedEnd s).published = s.published ∧
      (cutTail walFile r.committedEnd s).minted = s.minted := by
    unfold cutTail
    split
    · exact ⟨trimmingEdited .trimmed log,rfl,rfl⟩
    · exact ⟨.same,rfl,rfl⟩
  have chosen : ∀ {epoch v}, Chosen faults m (tailLost walFile r.committedEnd s) (cutTail walFile r.committedEnd s) epoch v →
      Unshown loss pk cur s v ∧ (cur = some epoch ∨ (faults.fresh → epoch ∉ s.minted) ∧ epoch ∈ v.minted) := by
    intro epoch v which
    cases which with
    | kept whole marked => exact ⟨⟨cut.2.1,h.edited cut.1⟩,.inl (clean marked)⟩
    | minted lost fresh => exact ⟨⟨cut.2.1,h.edited cut.1⟩,.inr ⟨cut.2.2 ▸ fresh,List.mem_cons_self⟩⟩
  refine endsResumeUnder (I := fun epoch v => v.published = s.published ∧ Flagged loss pk none v.disk ∧
      (cur = some epoch ∨ (faults.fresh → epoch ∉ s.minted) ∧ epoch ∈ v.minted))
    (fun v way => ?_) (fun v left => ?_) (fun epoch v which s' way => ?_) (fun epoch v which s' way => ?_)
    (fun epoch v which => ?_)
  · have left : Unshown loss pk cur s v := by
      rcases way with rfl | ⟨_,way⟩
      · exact ⟨rfl,h⟩
      · exact ⟨by cases way <;> rfl,h.edited (trimmingEdited way log)⟩
    exact ⟨.inl left,fun _ _ => left⟩
  · have left : Unshown loss pk cur s v := by
      rcases left with rfl | ⟨epoch,which⟩
      · exact ⟨cut.2.1,h.edited cut.1⟩
      · exact (chosen which).1
    exact ⟨.inl left,fun _ _ => left⟩
  · obtain ⟨before,_⟩ := chosen which
    have left : Unshown loss pk cur s s' := ⟨(markingShown way).trans before.shown,before.flags.edited (markingEdited way sidecar)⟩
    exact ⟨.inl left,fun _ _ => left⟩
  · obtain ⟨before,_⟩ := chosen which
    obtain ⟨d,way,rfl⟩ := way
    have left : Unshown loss pk cur s ((restamped commitFile handle epoch (max rec.committedSeq m.snapshotSeq) v).on d) :=
      ⟨before.shown,(before.flags.edited (markingEdited .marked sidecar)).manifest way (fun bad => nomatch bad)⟩
    exact ⟨.inl left,fun _ _ => left⟩
  · obtain ⟨before,under⟩ := chosen which
    refine ⟨⟨before.shown,flaggedReplaced _ (fun bad => nomatch bad),under⟩,fun v' known => ⟨.inl ⟨known.1,known.2.1.weaken⟩,
      fun name strayed => ⟨known.1,known.2.1.unlink (orphanApart strayed).2,known.2.2⟩,fun w made => ?_⟩⟩
    subst made
    have shown : Shown loss pk faults cur s (reopened mode m base walFile commitFile rec handle r epoch).state
        (Writer.announced v' (reopened mode m base walFile commitFile rec handle r epoch).state) :=
      ⟨congrArg (· ++ _) known.1,proper epoch,known.2.1,known.2.2⟩
    exact ⟨.inr ⟨_,shown⟩,fun _ => shown⟩

theorem bootLeaves [Arith W] [TotalCmp W] (parses : ∀ m, pk.parse (pk.json m) = some m) {P : Nat → Nat → SerializableGraphV2 W → Prop}
    (a : Anchored pk P s.disk) (h : Flagged loss pk cur s.disk) (present : s.disk.dir manifestName ≠ none)
    (proper : ∀ {mode validate m base walFile scan commitFile rec handle r},
      Examined pk mode validate s m base walFile scan commitFile rec handle r →
        ∀ epoch, Proper pk (reopened mode m base walFile commitFile rec handle r epoch).state) (b : Boot W) :
    Act.ends (Step faults) (fun u => Unshown loss pk cur s u ∨ ∃ g, Shown loss pk faults cur s g u) (b.run pk)
      (fun out _ u => leftBy loss pk faults cur s out u) () s := by
  have still : Unshown loss pk cur s s ∨ ∃ g, Shown loss pk faults cur s g s := .inl ⟨rfl,h⟩
  have refused : ∀ e, leftBy loss pk faults cur s (.error e) s := fun _ => ⟨rfl,h⟩
  cases b with
  | create g =>
    exact endsCreateStore (C := fun u => Unshown loss pk cur s u ∨ ∃ g, Shown loss pk faults cur s g u)
      (Q := fun out _ u => leftBy loss pk faults cur s out u) still refused (fun _ _ absent => absurd absent present)
      (fun _ _ _ absent => absurd absent present)
  | open_ c mode validate =>
    refine endsOpenStore still (fun absent => absurd absent present) (fun _ v => ?_) (fun absent => absurd absent present)
    exact endsOpenExisting still (fun _ => refused) (fun m base walFile scan commitFile rec handle r found =>
      resumeLeaves parses a h found (proper found))

end boots

/-! Whole runs. -/
section names
variable {early late : List (GraphState W)} {s u : World W} {g : GraphState W} {current : Option (GraphState W)}

theorem viewEquivalence (pk : Packages W) : Equivalence (fun a b : GraphState W => SameGraph (a.view pk) (b.view pk)) :=
  ⟨fun _ => .refl _,SameGraph.symm,SameGraph.trans⟩

/- An epoch and a number name a graph among what was published; `current` is what may go on under its epoch. -/
abbrev ByEpoch (pk : Packages W) : List (GraphState W) → List Nat → Option (GraphState W) → Prop :=
  Versions.Names GraphState.seq GraphState.epoch (fun a b => SameGraph (a.view pk) (b.view pk))

/- What a handle adds that goes on with `current` or begins anew. -/
theorem Shown.names {faults : Faults W} (shown : Shown True pk faults (current.map GraphState.epoch) s g u) (fresh : faults.fresh)
    (names : ByEpoch pk late s.minted current) (grows : s.Grows u)
    (again : ∀ c, current = some c → g.seq = c.seq ∧ SameGraph (g.view pk) (c.view pk)) : ByEpoch pk (late ++ [g]) u.minted (some g) := by
  rcases shown.epoch with kept | ⟨new,own⟩
  · obtain ⟨c,now,epoch⟩ := Option.map_eq_some_iff.mp kept
    obtain ⟨seq,same⟩ := again c now
    subst now
    exact (names.grow grows.minted.subset).onward (viewEquivalence pk) (.kept seq same.symm) epoch.symm
  · exact names.anew (viewEquivalence pk) (new fresh) grows.minted.subset own

/- Under a state that is durable another one is the same. -/
theorem Kept.again [Arith W] [TotalCmp W] {c : GraphState W} {since : Nat} (kept : Kept True pk (.sealed pk c since) u) (small : Small u)
    (shown : u.published = s.published ++ [g]) (inside : since ≤ s.published.length) : g.seq = c.seq ∧ SameGraph (g.view pk) (c.view pk) := by
  obtain ⟨_,_,t,k,hi,tracks⟩ := kept
  have late : g ∈ u.published.drop since := by
    rw [shown,List.drop_append_of_le_length inside]
    exact List.mem_append_right _ List.mem_cons_self
  have seq := (tracks.told.quiet (fun _ bad => bad)).2 g late
  exact ⟨seq,tracks.told.pinned trivial small g late seq⟩

theorem Advances.epoch [Arith W] [TotalCmp W] {g' : GraphState W} (follows : Advances pk g g') : g'.epoch = g.epoch := by
  cases follows <;> rfl

/- What a request that may be cut has published. -/
theorem Takes.upto [Arith W] [TotalCmp W] {w w' : Writer W} {t : World W} {q : Request W} {r : Except Stop (Option Nat)}
    (takes : Takes pk w s q r w' t) (shown : s.published <+: u.published) (ahead : u.published <+: t.published) :
    ∃ more, u.published = s.published ++ more ∧ (w.state :: more).IsChain (Advances pk) := by
  obtain ⟨all,added,adds⟩ := takes.shows
  obtain ⟨more,same⟩ := shown
  obtain ⟨rest,whole⟩ := ahead
  have parts : more ++ rest = all := by
    rw [← same,added,List.append_assoc] at whole
    exact List.append_cancel_left whole
  have chain := adds.chain
  rw [← parts,← List.cons_append] at chain
  exact ⟨more,same.symm,chain.left_of_append⟩

end names

section runs
variable [Arith W] [TotalCmp W] {faults : Faults W} {early late : List (GraphState W)} {D : Known W} {s u : World W} {w : Writer W}

/- Without a handle. Whatever may go on under its epoch is durable. -/
def Unheld (pk : Packages W) (early : List (GraphState W)) (still : Known W → World W → Prop) (u : World W) : Prop :=
  ∃ late current, u.published = early ++ late ∧ (∀ g ∈ late, Proper pk g) ∧ ByEpoch pk late u.minted current ∧
    Flagged True pk (current.map GraphState.epoch) u.disk ∧
    ∀ c, current = some c → ∃ since ≤ u.published.length, still (.sealed pk c since) u

/- With one. -/
structure Heads (pk : Packages W) (early : List (GraphState W)) (w : Writer W) (s : World W) : Prop where
  names : ∃ late, s.published = early ++ late ∧ (∀ g ∈ late, Proper pk g) ∧ ByEpoch pk late s.minted (some w.state)
  proper : Proper pk w.state
  last : s.published.getLast? = some w.state
  flags : Flagged True pk none s.disk

def Labelled (pk : Packages W) (early : List (GraphState W)) (st : Store W) : Prop :=
  match st.handle with
  | none => Unheld pk early (Rests True pk) st.world
  | some w => Heads pk early w st.world

omit [Arith W] [TotalCmp W] in
/- Without a mark it is enough that the names are there. -/
theorem ByEpoch.unheld {current : Option (GraphState W)} (names : ByEpoch pk late u.minted current) (shown : u.published = early ++ late)
    (proper : ∀ g ∈ late, Proper pk g) (flags : Flagged True pk none u.disk) (still : Known W → World W → Prop) : Unheld pk early still u :=
  ⟨late,none,shown,proper,names.forget,flags,fun _ bad => nomatch bad⟩

omit [Arith W] [TotalCmp W] in
theorem Unheld.weaken {still still' : Known W → World W → Prop} (h : Unheld pk early still u) (imp : ∀ D, still D u → still' D u) :
    Unheld pk early still' u := by
  obtain ⟨late,current,shown,proper,names,flags,durable⟩ := h
  refine ⟨late,current,shown,proper,names,flags,fun c now => ?_⟩
  obtain ⟨since,inside,held⟩ := durable c now
  exact ⟨since,inside,imp _ held⟩

omit [Arith W] in
theorem Unheld.powerLoss (h : Unheld pk early (Kept True pk) u) {d : StoreDisk W} (lost : u.disk.PowerLoss d) :
    Unheld pk early (Rests True pk) (u.on d) := by
  obtain ⟨late,current,shown,proper,names,flags,durable⟩ := h
  refine ⟨late,current,shown,proper,names,flags.powerLoss trivial lost,fun c now => ?_⟩
  obtain ⟨since,inside,kept⟩ := durable c now
  exact ⟨since,inside,kept.powerLoss trivial lost⟩

/- Along what a request publishes. -/
theorem Heads.chain (heads : Heads pk early w s) (grows : s.Grows u) (small : Small u) {more : List (GraphState W)}
    (shown : u.published = s.published ++ more) (chain : (w.state :: more).IsChain (Advances pk)) {g : GraphState W}
    (last : (w.state :: more).getLast? = some g) : Proper pk g ∧
    ∃ late, u.published = early ++ late ∧ (∀ x ∈ late, Proper pk x) ∧ ByEpoch pk late u.minted (some g) := by
  obtain ⟨late,before,proper,names⟩ := heads.names
  have all := chainProper chain heads.proper
  have there : ∀ a ∈ w.state :: more, a ∈ u.published := by
    intro a member
    rw [shown]
    rcases List.mem_cons.mp member with rfl | later
    · exact List.mem_append_left _ (List.mem_of_getLast? heads.last)
    · exact List.mem_append_right _ later
  have steps := chain.imp_of_mem_imp (fun a b member _ (follows : Advances pk a b) =>
    (⟨follows.succeeds (all a member) (small a (there a member)),follows.epoch⟩ : _ ∧ b.epoch = a.epoch))
  refine ⟨all g (List.mem_of_getLast? last),late ++ more,by rw [shown,before,List.append_assoc],fun x member => ?_,
    (names.grow grows.minted.subset).chain (viewEquivalence pk) steps last⟩
  rcases List.mem_append.mp member with old | new
  · exact proper x old
  · exact all x (List.mem_cons_of_mem _ new)

theorem requestHeads (files : w.Filed) (heads : Heads pk early w s) (q : Request W) :
    Act.ends (Step faults) (fun u => Small u → Unheld pk early (Kept True pk) u) (q.run pk)
      (fun _ w' u => Small u → Heads pk early w' u) w s := by
  have takes : Act.ends (Step faults) (fun _ => True) (q.run pk) (Takes pk w s q) w s := callTakes q files.log files.sidecar
  have answers : ∀ (e : Call W) (s : World W), ∃ r s', Step faults e s r s' := fun e s => ⟨_,_,answersAllowed faults e s⟩
  have ahead := Act.endsAhead World.Grows.refl (fun _ _ _ _ _ step later => (stepGrows step).trans later) answers takes
  refine Act.endsWeaken (Act.endsAnd (Act.endsAnd (requestFlagged files heads.flags q) endsGrows) ahead)
    (fun u known small => ?_) (fun r w' u _ known small => ?_)
  · obtain ⟨⟨flags,grows⟩,r,w',t,takes,later⟩ := known
    obtain ⟨more,shown,chain⟩ := takes.upto grows.published later.published
    obtain ⟨_,late,now,proper,names⟩ := heads.chain grows small shown chain (List.getLast?_eq_some_getLast (List.cons_ne_nil _ _))
    exact names.unheld now proper flags _
  · obtain ⟨⟨flags,grows⟩,takes⟩ := known
    obtain ⟨more,shown,adds⟩ := takes.shows
    obtain ⟨proper,names⟩ := heads.chain grows small shown adds.chain adds.last
    exact ⟨names,proper,shown ▸ (lastOnward heads.last).trans adds.last,flags⟩

theorem closeUnheld (held : Held True pk D w s) (heads : Heads pk early w s) :
    Act.ends (Step faults) (Unheld pk early (Kept True pk)) (Writer.close pk) (fun _ _ u => Unheld pk early (Rests True pk) u) w s := by
  obtain ⟨late,before,proper,names⟩ := heads.names
  have left : ∀ {still : Known W → World W → Prop} {u}, Shut True pk still w s u → s.Grows u → Unheld pk early still u := by
    intro still u shut grows
    have now := names.grow grows.minted.subset
    rcases shut with same | ⟨same,durable⟩
    · exact ByEpoch.unheld now (same.shown.trans before) proper same.flags still
    · refine ⟨late,some w.state,same.shown.trans before,proper,now,same.flags,fun c which => ?_⟩
      cases Option.some.inj which
      exact ⟨_,same.shown ▸ Nat.le_refl _,durable⟩
  exact Act.endsWeaken (Act.endsAnd (closeLeaves held heads.flags) endsGrows) (fun _ both => left both.1 both.2)
    (fun _ _ _ _ both => left both.1 both.2)

theorem bootLabelled (lawful : pk.Lawful) (fresh : faults.fresh) (rests : Rests True pk D s) (left : Unheld pk early (Rests True pk) s) (b : Boot W) :
    Act.ends (Step faults) (fun u => Small u → Unheld pk early (Kept True pk) u) (b.run pk)
      (fun r _ u => Small u → Labelled pk early ⟨u,handleOf r⟩) () s := by
  obtain ⟨ledger,anchored,t,k,hi,tracks,_⟩ := rests
  obtain ⟨late,current,before,proper,names,flags,durable⟩ := left
  have located : ∀ {mode validate m base walFile scan commitFile rec handle r},
      Examined pk mode validate s m base walFile scan commitFile rec handle r →
        ∀ epoch, Proper pk (reopened mode m base walFile commitFile rec handle r epoch).state := fun found epoch =>
    (tracks.disk.examined lawful anchored found).proper tracks _ epoch
  have still : Act.ends (Step faults) (fun u => ∀ c, current = some c → ∃ since ≤ s.published.length, Kept True pk (.sealed pk c since) u)
      (b.run pk) (fun r _ u => r.toOption.isNone = true → ∀ c, current = some c → ∃ since ≤ s.published.length, Rests True pk (.sealed pk c since) u) () s := by
    cases current with
    | none => exact Act.endsWeaken endsGrows (fun _ _ _ bad => nomatch bad) (fun _ _ _ _ _ _ _ bad => nomatch bad)
    | some c =>
      obtain ⟨since,inside,rests⟩ := durable c rfl
      refine Act.endsWeaken (bootHeld lawful rests b) (fun u kept c' same => ?_) (fun r _ u _ held _ c' same => ?_)
      · cases Option.some.inj same
        exact ⟨since,inside,kept⟩
      · cases Option.some.inj same
        exact ⟨since,inside,held.1⟩
  have shownNames : ∀ {g u}, Shown True pk faults (current.map GraphState.epoch) s g u → s.Grows u → Small u →
      (∀ c, current = some c → ∃ since ≤ s.published.length, Kept True pk (.sealed pk c since) u) →
      u.published = early ++ (late ++ [g]) ∧ (∀ x ∈ late ++ [g], Proper pk x) ∧ ByEpoch pk (late ++ [g]) u.minted (some g) := by
    intro g u shown grows small kept
    refine ⟨by rw [shown.shown,before,List.append_assoc],fun x member => ?_,shown.names fresh names grows (fun c now => ?_)⟩
    · rcases List.mem_append.mp member with old | new
      · exact proper x old
      · exact List.mem_singleton.mp new ▸ shown.proper
    · obtain ⟨since,inside,kept⟩ := kept c now
      exact kept.again small shown.shown inside
  have unshown : ∀ {holds : Known W → World W → Prop} {u}, Unshown True pk (current.map GraphState.epoch) s u → s.Grows u →
      (∀ c, current = some c → ∃ since ≤ s.published.length, holds (.sealed pk c since) u) → Unheld pk early holds u := by
    intro holds u same grows kept
    exact ⟨late,current,same.shown.trans before,proper,names.grow grows.minted.subset,same.flags,same.shown ▸ kept⟩
  refine Act.endsWeaken (Act.endsAnd (bootLeaves lawful.parses anchored flags tracks.disk.present located b) (Act.endsAnd still endsGrows))
    (fun u known small => ?_) (fun r _ u way known small => ?_)
  · obtain ⟨which,kept,grows⟩ := known
    rcases which with same | ⟨g,shown⟩
    · exact unshown same grows kept
    · obtain ⟨now,proper,names⟩ := shownNames shown grows small kept
      exact names.unheld now proper shown.flags _
  · obtain ⟨which,held,grows⟩ := known
    cases r with
    | error e => exact unshown which grows (held rfl)
    | ok pg =>
      obtain ⟨now,names⟩ := shownNames which grows small way.2.1
      exact ⟨⟨_,now,names⟩,which.proper,which.shown ▸ List.getLast?_concat,which.flags⟩

theorem stoppedUnheld (lawful : pk.Lawful) (fresh : faults.fresh) {asked : List (Op W) → Prop} {st : Store W} (stays : Stays True pk D st)
    (labelled : Labelled pk early st) (cut : Stopped pk faults asked st u) (small : Small u) : Unheld pk early (Kept True pk) u := by
  cases cut with
  | idle s handle =>
    cases handle with
    | none => exact Unheld.weaken labelled (fun _ => Rests.kept)
    | some w =>
      obtain ⟨late,shown,proper,names⟩ := Heads.names labelled
      exact names.unheld shown proper (Heads.flags labelled) _
  | boot cut => exact Act.endsCut (C := fun u => Small u → Unheld pk early (Kept True pk) u) (bootLabelled lawful fresh stays labelled _) cut small
  | request _ cut =>
    exact Act.endsCut (C := fun u => Small u → Unheld pk early (Kept True pk) u) (requestHeads (Held.filed stays) labelled _) cut small
  | close cut => exact Act.endsCut (C := Unheld pk early (Kept True pk)) (closeUnheld stays labelled) cut

theorem servedLabelled (lawful : pk.Lawful) (fresh : faults.fresh) {st st' : Store W} {e : Event W} {asked : List (Op W) → Prop}
    (stays : Stays True pk D st) (labelled : Labelled pk early st) (step : Lives pk faults False st e st') (within : e.Within asked)
    (small : Small st'.world) : Labelled pk early st' := by
  cases step with
  | boot run => exact Act.endsExec (bootLabelled lawful fresh stays labelled _) run small
  | request run => exact Act.endsExec (requestHeads (Held.filed stays) labelled _) run small
  | close run => exact Act.endsExec (closeUnheld stays labelled) run
  | drop =>
    obtain ⟨late,shown,proper,names⟩ := Heads.names labelled
    exact names.unheld shown proper (Heads.flags labelled) _
  | die may _ => exact may.elim
  | losePower _ _ => exact within.elim

omit [Arith W] in
theorem Unheld.calm (h : Unheld pk early (Kept True pk) u) (calm : Quiet u.disk) : Unheld pk early (Rests True pk) u :=
  h.weaken (fun _ kept => kept.calm (fun _ => calm))

theorem Goes.labelled (lawful : pk.Lawful) (tame : Tame True faults) (fresh : faults.fresh) {st st' : Store W}
    (goes : Goes pk faults True D.asked st st') (stays : Stays True pk D st) (labelled : Labelled pk early st) (small : Small st'.world) :
    Labelled pk early st' := by
  induction goes with
  | start => exact labelled
  | served before step within ih =>
    have earlier := small.earlier (livesGrows step)
    exact servedLabelled lawful fresh (before.stays lawful tame stays earlier) (ih earlier) step within small
  | died before cut calm ih =>
    have earlier := small.earlier (interruptedGrows cut.interrupted)
    exact (stoppedUnheld lawful fresh (before.stays lawful tame stays earlier) (ih earlier) cut small).calm (calm trivial)
  | lostPower _ before cut lost ih =>
    have earlier := small.earlier ((interruptedGrows cut.interrupted).on _)
    exact (stoppedUnheld lawful fresh (before.stays lawful tame stays earlier) (ih earlier) cut small).powerLoss lost

omit [Arith W] in
/- A creation publishes the first state. -/
theorem createdLabelled {g : OrpheusGraphInner W} {σ : Type} {st : σ} (ok : g.Indexed) (canonical : (g.accessor pk.adjacency).Canonical) :
    Act.ends (Step faults) (fun _ => True) (createStore pk g) (fun r _ u => ∀ pg, r = .ok pg →
      Labelled pk s.published ⟨u,some pg.writer⟩ ∧ u.published = s.published ++ [pg.writer.state]) st s := by
  refine endsCreateStore trivial (fun _ _ bad => nomatch bad) (fun _ _ _ _ _ => ⟨trivial,fun _ _ bad => nomatch bad⟩)
    (fun sg epoch _ _ _ w made => ⟨trivial,fun report pg same => ?_⟩)
  subst made
  cases Except.ok.inj same
  have proper : ∀ {number epoch}, Proper pk ⟨.owned g,.new,number,epoch⟩ := ⟨ownedPresents ok canonical,[],.new⟩
  have nothing : ByEpoch pk [] (epoch :: s.minted) none :=
    ⟨fun _ bad => (nomatch bad),fun _ bad => (nomatch bad),fun _ bad => (nomatch bad),fun _ bad => nomatch bad⟩
  refine ⟨⟨⟨_,rfl,fun x member => ?_,?_⟩,proper,List.getLast?_concat,flaggedReplaced _ (fun bad => nomatch bad)⟩,rfl⟩
  · exact List.mem_singleton.mp member ▸ proper
  · exact nothing.adding (viewEquivalence pk) List.mem_cons_self (fun _ bad => nomatch bad)

theorem Created.labelled {st : Store W} (created : Created pk st) : Labelled pk st.world.published.dropLast st := by
  obtain ⟨s',handle⟩ := st
  obtain ⟨early,s,b,pg,_,absent,sound,run,rfl⟩ := created.ran
  have labelled : Labelled pk s.published ⟨s',some pg.writer⟩ ∧ s'.published = s.published ++ [pg.writer.state] := by
    cases b with
    | create g => exact Act.endsExec (createdLabelled sound.1 sound.2) run pg rfl
    | open_ c mode validate =>
      have empty : Produced pk.adjacency (emptyInner pk) := .built [] []
      refine Act.endsExec (C := fun _ => True) (Q := fun r _ u => ∀ pg, r = .ok pg →
        Labelled pk s.published ⟨u,some pg.writer⟩ ∧ u.published = s.published ++ [pg.writer.state]) ?_ run pg rfl
      refine endsOpenStore trivial (fun _ _ _ bad => nomatch bad) (fun there => ?_) (fun _ => createdLabelled empty.indexed empty.canonical)
      rw [absent] at there
      contradiction
  obtain ⟨labelled,shown⟩ := labelled
  change Labelled pk s'.published.dropLast _
  rw [shown,List.dropLast_concat]
  exact labelled

omit [Arith W] in
theorem Labelled.names {st : Store W} (labelled : Labelled pk early st) : ∃ late current, st.world.published = early ++ late ∧
    (∀ g ∈ late, Proper pk g) ∧ ByEpoch pk late st.world.minted current := by
  obtain ⟨s,handle⟩ := st
  cases handle with
  | none =>
    obtain ⟨late,current,shown,proper,names,_⟩ := labelled
    exact ⟨late,current,shown,proper,names⟩
  | some w =>
    obtain ⟨late,shown,proper,names⟩ := Heads.names labelled
    exact ⟨late,_,shown,proper,names⟩

theorem publishedNames (lawful : pk.Lawful) (tame : Tame True faults) (fresh : faults.fresh) {asked : List (Op W) → Prop} {st₀ st : Store W}
    (created : Created pk st₀) (goes : Goes pk faults True asked st₀ st) (small : Small st.world) :
    ∃ current, (∀ g ∈ st.world.published.drop (st₀.world.published.length - 1), Proper pk g) ∧
      ByEpoch pk (st.world.published.drop (st₀.world.published.length - 1)) st.world.minted current := by
  obtain ⟨D,rfl,stays⟩ := created.stays True lawful asked
  obtain ⟨late,current,shown,proper,names⟩ := (goes.labelled lawful tame fresh stays created.labelled small).names
  rw [shown,← List.length_dropLast,List.drop_left]
  exact ⟨current,proper,names⟩

end runs

set_option maxRecDepth 100000 in
/- One state was published before the first request. -/
theorem listedSince {st : Store Unit} {g : GraphState Unit} {i : Nat} (listed : st.world.published[i]? = some g) :
    g ∈ st.world.published.drop ((servedStore []).world.published.length - 1) := by
  have first : (servedStore []).world.published.length = 1 := by decide +kernel
  rw [first]
  exact List.mem_of_getElem? listed

def otherBatch : Request Unit := .apply [.upsertNode (sampleNode "b")] none

end OrpheusGraph
