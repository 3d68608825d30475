import OrpheusGraph.Serving

/-! How a handle comes about: a recovery reads the timeline back and goes on with it, a creation
begins one. -/
namespace OrpheusGraph
open Storage Effects
variable {W : Type} {loss : Prop} {pk : Packages W} {D : Known W} {ledger : Ledger W} {t : Timeline W} {k : Marks} {hi : Nat}
  {s s' : World W} {d : StoreDisk W}

/-! The stretch of a timeline between two marks, on another base. -/
namespace Timeline

def between (t : Timeline W) (base : BaseGraph W) (lo hi : Nat) : Timeline W := t.resumed base (lo - t.start) (hi - t.start)

section between
variable (base : BaseGraph W) {lo : Nat}

theorem betweenStart (hi : Nat) (start : t.start ≤ lo) : (t.between base lo hi).start = lo := by
  change t.start + (lo - t.start) = lo
  omega

variable (start : t.start ≤ lo) (ordered : lo ≤ hi) (top : hi ≤ t.top)
include start ordered top

theorem betweenTop : (t.between base lo hi).top = hi := by
  unfold Timeline.top at top ⊢
  rw [betweenStart base hi start]
  change lo + ((t.batches.take (hi - t.start)).drop (lo - t.start)).length = hi
  rw [List.length_drop,List.length_take]
  omega

theorem betweenRecords : window lo hi t.records = (t.between base lo hi).records := by
  unfold Timeline.top at top
  have low : t.start + (lo - t.start) = lo := by omega
  have high : t.start + (hi - t.start) = hi := by omega
  have inside : hi - t.start ≤ t.batches.length := by omega
  have parts := windowFollowing (n := t.start) (j := lo - t.start) (by omega) inside
  rw [low,high] at parts
  rw [records,parts,records,betweenStart base _ start]
  rfl

theorem betweenWindow : window lo hi (t.between base lo hi).records = (t.between base lo hi).records := by
  rw [← betweenRecords base start ordered top,windowNarrow (Nat.le_refl _) (Nat.le_refl _)]

end between
end Timeline

/-! What is read. -/
theorem Standing.fits (h : Standing loss pk ledger t k d) (parses : ∀ m, pk.parse (pk.json m) = some m) {m : Manifest}
    (reads : Reads pk d m) : Fits loss pk ledger t k m := by
  obtain ⟨cells,there,text⟩ := reads
  obtain ⟨m',written,fits⟩ := h.manifest.read
  cases Option.some.inj (there.symm.trans written)
  rw [manifestCells,bytesOfCells,parses] at text
  cases Option.some.inj text
  exact fits.alike rfl rfl rfl fits.high

theorem Standing.opened (h : Standing loss pk ledger t k s.disk) {file : FileId} {rec : CommitRecord} {handle : CommitFile}
    (side : Sidecar pk s file rec handle) :
    ∃ slot, Stamped loss k (s.disk.files file) rec slot ∧ handle = ⟨1 - slot,rec.gen + 1⟩ := by
  obtain ⟨rec',slot,stamped⟩ := h.stamped side.bound
  have same := side.opened.symm.trans (stamped.holds.opened _)
  simp only [Except.ok.injEq,Prod.mk.injEq] at same
  obtain ⟨rfl,rfl⟩ := same
  exact ⟨slot,stamped,rfl⟩

/- With the MANIFEST and the mark that are found, these are the marks that count. -/
def Marks.found (k : Marks) (m : Manifest) (rec : CommitRecord) : Marks :=
  ⟨m.snapshotSeq,m.snapshotSeq,k.low,max rec.committedSeq m.snapshotSeq⟩

/- And these once the mark is stamped again. -/
def Marks.stamped (k : Marks) : Marks := { k with low := k.high }

section focus
variable {m : Manifest} {rec : CommitRecord} {slot : Nat} {f : File (Stored W)}

theorem Standing.foundTop (h : Standing loss pk ledger t k d) (fits : Fits loss pk ledger t k m) (stamped : Stamped loss k f rec slot) :
    max rec.committedSeq m.snapshotSeq ≤ t.top :=
  Nat.max_le.mpr ⟨stamped.high.trans h.high,fits.ceil.trans h.ceil⟩

theorem Logs.found {cells : List (Stored W)} {recs : List (WalRecord W)} {tail : Bytes} (logs : Logs pk t k cells recs tail)
    (fits : Fits loss pk ledger t k m) (stamped : Stamped loss k f rec slot) : Logs pk t (k.found m rec) cells recs tail := by
  refine logs.narrow fits.floor ?_
  have high := stamped.high
  change max rec.committedSeq m.snapshotSeq ≤ k.high ∨ max rec.committedSeq m.snapshotSeq ≤ m.snapshotSeq
  omega

theorem Fits.found {n : Manifest} (fits : Fits loss pk ledger t k n) (rec : CommitRecord) (same : n.snapshotSeq = m.snapshotSeq) :
    Fits loss pk ledger t (k.found m rec) n := ⟨fits.version,same.ge,same.le,fits.ends,fits.high,fits.graph⟩

theorem Standing.focus (h : Standing loss pk ledger t k d) (parses : ∀ m, pk.parse (pk.json m) = some m) (level : Level loss k d)
    (reads : Reads pk d m) {j : FileId} (bound : d.dir commitName = some j) (stamped : Stamped loss k (d.files j) rec slot) :
    Standing loss pk ledger t (k.found m rec) d := by
  have fits := h.fits parses reads
  obtain ⟨i,which,fixed,logs⟩ := h.log
  obtain ⟨j',side,other,_⟩ := h.sidecar
  cases Option.some.inj (bound.symm.trans other.dir)
  refine ⟨h.start.trans fits.floor,fits.ceil.trans h.ceil,h.foundTop fits stamped,fun o seen => ?_,
    ⟨i,which,fixed,fun cells left => ?_⟩,⟨j,side,other,rec,slot,stamped.higher (Nat.le_refl _) (Nat.le_max_left _ _)⟩⟩
  · have only : o = d.dir manifestName ∨ k.ceil ≤ k.floor := by
      rcases seen with same | ⟨may,binds⟩
      · exact .inl same
      · exact (level may).imp_left (fun only => only o binds)
    have backed := h.manifest o seen
    cases backed with
    | nothing holds =>
      obtain ⟨_,bad,_⟩ := holds
      contradiction
    | @file n cells born settled holds =>
      obtain ⟨m',same,fits'⟩ := holds
      refine .file born settled ⟨m',same,fits'.found rec ?_⟩
      rcases only with there | level
      · obtain ⟨cells',read,text⟩ := reads
        have content : (d.files (tmpName manifestName,n)).content = cells := by
          rw [settled]
          rfl
        rw [Disk.read,← there,Option.map_some,content] at read
        cases Option.some.inj read
        cases Option.some.inj same
        rw [manifestCells,bytesOfCells,parses] at text
        cases Option.some.inj text
        rfl
      · have below := fits'.ceil
        have above := fits'.floor
        have ceil := fits.ceil
        have floor := fits.floor
        omega
  · obtain ⟨recs,tail,shown⟩ := logs cells left
    exact ⟨recs,tail,shown.found fits stamped⟩

theorem Tracks.focus (h : Tracks loss pk D ledger t k hi s) (parses : ∀ m, pk.parse (pk.json m) = some m) (level : Level loss k s.disk)
    (reads : Reads pk s.disk m) {j : FileId} (bound : s.disk.dir commitName = some j) (stamped : Stamped loss k (s.disk.files j) rec slot) :
    Tracks loss pk D ledger t (k.found m rec) hi s := by
  have fits := h.disk.fits parses reads
  have low : max k.low k.floor ≤ max k.low m.snapshotSeq := max_le_max_left _ fits.floor
  refine ⟨h.disk.focus parses level reads bound stamped,h.sound,h.told.narrow low ?_⟩
  exact (max_le_max_right _ stamped.lowest).trans (h.disk.foundTop fits stamped)

end focus

/-! What is replayed. -/
section replay
variable {result : ScanResult W} {recs : List (WalRecord W)} {cells : List (Stored W)}
  {tail : Bytes} {committedSeq highSeq : Nat}

theorem Logs.scanned (lawful : pk.codec.Lawful) (logs : Logs pk t k cells recs tail) :
    scan pk.codec (asBytes cells) = .ok ⟨recs,(frames pk.codec recs).length,decide (tail ≠ []),if tail = [] then 0 else 1⟩ := by
  rw [logs.bytes,bytesOfCells]
  exact scanWhole (framesOfRecords lawful.decodes logs.fits) logs.torn

theorem Logs.recovers (lawful : pk.codec.Lawful) (logs : Logs pk t k cells recs tail) (base : BaseGraph W) (start : t.start ≤ k.floor)
    (mark : max committedSeq k.floor = k.high) (top : k.high ≤ t.top) (covered : highSeq ≤ k.high)
    (found : scan pk.codec (asBytes cells) = .ok result) :
    ∃ r, recover pk.codec (base.asAccessor pk) k.floor committedSeq highSeq result = .ok r ∧
      r.delta = (t.between base k.floor k.high).delta pk (t.between base k.floor k.high).batches.length ∧
      r.lastApplied = k.high ∧ r.committedEnd = (frames pk.codec (committed k.high recs)).length := by
  have ordered : k.floor ≤ k.high := mark ▸ Nat.le_max_right _ _
  cases Except.ok.inj (found.symm.trans (logs.scanned lawful))
  have reaches : k.floor + (t.between base k.floor k.high).batches.length = k.high := by
    have top := Timeline.betweenTop base start ordered top
    rwa [Timeline.top,Timeline.betweenStart base _ start] at top
  have right : window k.floor k.high recs = following k.floor (t.between base k.floor k.high).batches := by
    rw [logs.right,Timeline.betweenRecords base start ordered top,Timeline.records,Timeline.betweenStart base _ start]
  have returns : ∃ r, recover pk.codec (base.asAccessor pk) k.floor committedSeq highSeq
      ⟨recs,(frames pk.codec recs).length,decide (tail ≠ []),if tail = [] then 0 else 1⟩ = .ok r ∧ _ :=
    recoverReturns lawful logs.fits logs.increasing (mark ▸ right) (mark ▸ reaches) (mark ▸ covered) rfl rfl
  obtain ⟨r,ok,delta,last,end_⟩ := returns
  rw [mark] at delta last end_
  refine ⟨r,ok,?_,last,end_⟩
  rw [delta,Timeline.delta,Timeline.opsWhole]
  rfl

end replay

/-! The log is cut behind the mark. -/
section cuts
variable {base : BaseGraph W} {recs : List (WalRecord W)} {cells : List (Stored W)} {tail : Bytes}

theorem Logs.front (logs : Logs pk t k cells recs tail) :
    ∃ rest, cells = asCells (frames pk.codec (committed k.high recs)) ++ rest := by
  obtain ⟨later,split,_⟩ := committedPrefix k.high logs.increasing
  refine ⟨asCells (frames pk.codec later ++ tail),?_⟩
  rw [logs.bytes,← cellsAppend,← List.append_assoc,← framesJoin,← split]

theorem windowCommitted (lo hi : Nat) (recs : List (WalRecord W)) : window lo hi (committed hi recs) = window lo hi recs := by
  rw [window,window,committed,List.filter_filter]
  refine List.filter_congr (fun rec _ => ?_)
  rw [← Bool.decide_and,decide_eq_decide]
  omega

theorem Logs.cut (logs : Logs pk t k cells recs tail) :
    Logs pk t k (asCells (frames pk.codec (committed k.high recs))) (committed k.high recs) [] := by
  refine ⟨by rw [List.append_nil],tornNothing _,fun rec member => logs.fits rec (List.mem_of_mem_filter member),
    logs.increasing.filter _,?_⟩
  rw [windowCommitted,logs.right]

/- It has the stretch up to the mark then, and nothing above. -/
theorem Logs.exactly (logs : Logs pk t k cells recs tail) (start : t.start ≤ k.floor) (ordered : k.floor ≤ k.high) (top : k.high ≤ t.top) :
    Exactly pk (t.between base k.floor k.high) k.floor (asCells (frames pk.codec (committed k.high recs))) (committed k.high recs) := by
  have last := Timeline.betweenTop base start ordered top
  refine ⟨rfl,logs.cut.fits,logs.cut.increasing,fun rec member => ?_,?_⟩
  · rw [last]
    exact of_decide_eq_true (List.mem_filter.mp member).2
  · rw [last,windowCommitted,logs.right,Timeline.betweenWindow base start ordered top,Timeline.betweenRecords base start ordered top]

theorem cellsLength (bytes : Bytes) : bytes.length = (asCells bytes : List (Stored W)).length := (List.length_map _).symm

theorem resizeFront {xs ys : List (Stored W)} : resize xs.length (xs ++ ys) = xs := by
  rw [resize,List.take_left,List.length_append,show xs.length - (xs.length + ys.length) = 0 by omega,List.replicate_zero,List.append_nil]

variable {i : FileId}

theorem Standing.trimming (h : Standing loss pk ledger t k s.disk) (bound : s.disk.dir walName = some i)
    (logs : Logs pk t k (s.disk.files i).content recs tail)
    (way : Trimming i (frames pk.codec (committed k.high recs)).length s s') : Standing loss pk ledger t k s'.disk := by
  obtain ⟨rest,split⟩ := logs.front
  have size := cellsLength (W := W) (frames pk.codec (committed k.high recs))
  have short : ∀ w : Write (Stored W), w = .setLen (frames pk.codec (committed k.high recs)).length →
      w.apply (s.disk.files i).content = asCells (frames pk.codec (committed k.high recs)) := by
    rintro w rfl
    rw [split,Write.apply,size]
    exact resizeFront
  have cut : Standing loss pk ledger t k (s.disk.write i (.setLen (frames pk.codec (committed k.high recs)).length)) := by
    refine h.relog bound ⟨rfl,rfl,rfl⟩ (Nat.le_refl _) h.high (fun cells left => ?_)
    rcases leftPush left with old | rfl | ⟨_,_,_,put,_⟩
    · exact h.logged bound old
    · exact ⟨_,_,(short _ rfl).symm ▸ logs.cut⟩
    · contradiction
  have flat : Standing loss pk ledger t k ((s.disk.write i (.setLen (frames pk.codec (committed k.high recs)).length)).sync i) := by
    refine cut.relog bound ⟨rfl,rfl,rfl⟩ (Nat.le_refl _) h.high (fun cells left => ?_)
    rw [leftFlushed left,Disk.write,Disk.setFileSame,contentPush,short _ rfl]
    exact ⟨_,_,logs.cut⟩
  cases way with
  | before => exact h
  | cut => exact cut
  | synced => exact flat
  | trimmed => exact flat.syncDir

/- After it, whether there was anything to cut or not. -/
theorem Logs.trimmed (logs : Logs pk t k (s.disk.files i).content recs tail) :
    ((cutTail i (frames pk.codec (committed k.high recs)).length s).disk.files i).content =
      asCells (frames pk.codec (committed k.high recs)) := by
  obtain ⟨rest,split⟩ := logs.front
  have size := cellsLength (W := W) (frames pk.codec (committed k.high recs))
  unfold cutTail
  split
  · change ((Disk.setFile (Disk.setFile _ i _) i (File.flushed ((Disk.setFile _ i _).files i))).files i).content = _
    rw [Disk.setFileSame,Disk.setFileSame,contentFlushed,contentPush,split,Write.apply,size]
    exact resizeFront
  · rename_i whole
    have long : (s.disk.files i).content.length ≤ (frames pk.codec (committed k.high recs)).length := by
      simpa [tailLost] using whole
    rw [split,List.length_append,size] at long
    have none_left : rest = [] := List.length_eq_zero_iff.mp (by omega)
    rw [split,none_left,List.append_nil]

theorem cutTailKept {j : FileId} {n : Nat} (apart : j ≠ i) : (cutTail i n s).disk.files j = s.disk.files j ∧
    (∀ name, (cutTail i n s).disk.dir name = s.disk.dir name) ∧ (cutTail i n s).published = s.published := by
  unfold cutTail
  split
  · refine ⟨?_,fun _ => rfl,rfl⟩
    change (Disk.setFile (Disk.setFile _ i _) i _).files j = _
    rw [Disk.setFileOther _ apart,Disk.setFileOther _ apart]
  · exact ⟨rfl,fun _ => rfl,rfl⟩

end cuts

/-! What a recovery has found, in terms of the timeline. -/
structure Located (loss : Prop) (pk : Packages W) (ledger : Ledger W) (t : Timeline W) (k : Marks) (s : World W) (m : Manifest)
    (base : BaseGraph W) (walFile commitFile : FileId) (rec : CommitRecord) (handle : CommitFile) (r : Replay W) : Prop where
  reads : Reads pk s.disk m
  fits : Fits loss pk ledger t k m
  presents : Presents pk base
  shows : SameGraph (base.asAccessor pk) (t.view pk (m.snapshotSeq - t.start))
  file : s.disk.dir walName = some walFile
  log : ∃ recs tail, Logs pk t (k.found m rec) (s.disk.files walFile).content recs tail ∧
    r.committedEnd = (frames pk.codec (committed (k.found m rec).high recs)).length
  sidecar : s.disk.dir commitName = some commitFile
  mark : ∃ slot, Stamped loss k (s.disk.files commitFile) rec slot ∧ handle = ⟨1 - slot,rec.gen + 1⟩
  delta : r.delta = (t.between base (k.found m rec).floor (k.found m rec).high).delta pk
    (t.between base (k.found m rec).floor (k.found m rec).high).batches.length
  applied : r.lastApplied = (k.found m rec).high

section located
variable {m : Manifest} {base : BaseGraph W} {walFile commitFile : FileId} {rec : CommitRecord} {handle : CommitFile}
  {r : Replay W} {mode : BaseMode} {validate : Validation} {scan : ScanResult W}

theorem Standing.examined [TotalCmp W] (lawful : pk.Lawful) (h : Standing loss pk ledger t k s.disk)
    (a : Anchored pk (fun seq cid sg => Portrays pk sg (ledger seq cid)) s.disk)
    (found : Examined pk mode validate s m base walFile scan commitFile rec handle r) :
    Located loss pk ledger t k s m base walFile commitFile rec handle r := by
  obtain ⟨cells,there,passed⟩ := found.manifest
  have reads : Reads pk s.disk m := ⟨cells,there,checkedParsed passed⟩
  have fits := h.fits lawful.parses reads
  obtain ⟨m',sg,rfl,points⟩ := readsPoints lawful.parses a reads
  obtain ⟨sg',archived,_,opened⟩ := found.snapshot.found
  obtain rfl : sg' = sg := by simpa using archived.symm.trans (archivedRead points.archived)
  obtain ⟨slot,stamped,at_⟩ := h.opened found.sidecar
  obtain ⟨recs,tail,logs⟩ := h.logged found.log (.inl rfl)
  have narrow := logs.found fits stamped
  have shown := points.holds.opened mode
  have base_ : base = mode.open_ sg' := opened
  obtain ⟨r',ok,delta,applied,end_⟩ := narrow.recovers lawful.codec base (h.start.trans fits.floor)
    rfl (h.foundTop fits stamped) (fits.high.trans (max_le_max_right _ stamped.lowest)) (scanAgrees found.scanned).symm
  cases Except.ok.inj (ok.symm.trans found.recovered)
  exact ⟨reads,fits,base_ ▸ shown.1,base_ ▸ shown.2.trans fits.graph,found.log,⟨recs,tail,narrow,end_⟩,found.sidecar.bound,
    ⟨slot,stamped,at_⟩,delta,applied⟩

theorem Located.low (loc : Located loss pk ledger t k s m base walFile commitFile rec handle r) : k.low ≤ (k.found m rec).high := by
  obtain ⟨slot,stamped,_⟩ := loc.mark
  exact stamped.lowest.trans (Nat.le_max_left _ _)

/- When the power may fail no MANIFEST is between two batches, and no edge returns. -/
theorem Located.agrees (loc : Located loss pk ledger t k s m base walFile commitFile rec handle r) (sound : t.Sound pk)
    (start : t.start ≤ m.snapshotSeq) (top : (k.found m rec).high ≤ t.top) (may : loss) (room : r.delta.addedEdges.length ≤ 2^32) {n : Nat}
    (low : m.snapshotSeq ≤ n) (high : n ≤ (k.found m rec).high) :
    SameGraph ((t.between base m.snapshotSeq (k.found m rec).high).view pk (n - m.snapshotSeq)) (t.view pk (n - t.start)) := by
  have below : m.snapshotSeq - t.start ≤ n - t.start := Nat.sub_le_sub_right low _
  have above : n - t.start ≤ (k.found m rec).high - t.start := Nat.sub_le_sub_right high _
  have part := Timeline.resumedPart pk t base below above
  rw [Nat.sub_sub_sub_cancel_right start] at part
  rw [Timeline.between,part]
  refine Timeline.resumedAgain sound loc.presents loc.shows below ?_
  rcases loc.fits.ends may with first | last
  · have zero : m.snapshotSeq - t.start = 0 := by omega
    refine .inl ⟨zero,?_⟩
    have again := (Timeline.resumedSound sound loc.presents loc.shows (below.trans above)).reached
      (t.resumed base (m.snapshotSeq - t.start) ((k.found m rec).high - t.start)).batches.length
    have whole : r.delta.addedEdges.length = edgeAdds (t.ops ((k.found m rec).high - t.start)) := by
      rw [loc.delta,Timeline.opsSplit t (below.trans above),zero]
      refine again.represents.count.trans (congrArg edgeAdds ?_)
      rw [Timeline.opsWhole,zero]
      rfl
    rw [(sound.reached _).represents.count]
    refine Nat.le_trans ?_ (whole ▸ room)
    rw [Timeline.opsSplit t above,edgeAdds,edgeAdds,List.countP_append]
    exact Nat.le_add_right _ _
  · exact .inr (by omega)

/- With the stamp and the MANIFEST of the recovery in place, its handle is at the end of the timeline that it goes on with. -/
theorem Located.carries (loc : Located loss pk ledger t k s m base walFile commitFile rec handle r) (sound : t.Sound pk)
    (start : t.start ≤ m.snapshotSeq) {lo : Nat} (told : Told loss pk D t lo hi s'.published) (above : lo ≤ (k.found m rec).high)
    (mode : BaseMode) (epoch : Nat)
    (disk : Standing loss pk ledger t (k.found m rec).stamped s'.disk)
    (attached : Attached loss pk (t.between base m.snapshotSeq (k.found m rec).high) (k.found m rec).stamped
      (reopened mode m base walFile commitFile rec handle r epoch) s'.disk) :
    Carries loss pk D ledger (t.between base m.snapshotSeq (k.found m rec).high) (k.found m rec).stamped
      (reopened mode m base walFile commitFile rec handle r epoch)
      (Writer.announced s' (reopened mode m base walFile commitFile rec handle r epoch).state) := by
  have ordered : m.snapshotSeq ≤ (k.found m rec).high := Nat.le_max_right _ _
  have mark : max (k.found m rec).high m.snapshotSeq = (k.found m rec).high := Nat.max_eq_left ordered
  have first := Timeline.betweenStart base (k.found m rec).high start
  have last := Timeline.betweenTop base start ordered disk.high
  have zero : (t.between base m.snapshotSeq (k.found m rec).high).view pk
      (m.snapshotSeq - (t.between base m.snapshotSeq (k.found m rec).high).start) = base.asAccessor pk := by
    rw [first,Nat.sub_self,Timeline.viewStart]
    rfl
  have fits : ∀ {n : Manifest}, Fits loss pk ledger t (k.found m rec).stamped n →
      Fits loss pk ledger (t.between base m.snapshotSeq (k.found m rec).high) (k.found m rec).stamped n := by
    intro n fits
    have seq : n.snapshotSeq = m.snapshotSeq := Nat.le_antisymm fits.ceil fits.floor
    have graph := fits.graph
    rw [seq] at graph
    refine ⟨fits.version,fits.floor,fits.ceil,fun _ => .inl (seq.trans first.symm),fits.high,?_⟩
    rw [seq,zero]
    exact graph.trans loc.shows.symm
  have own : Fits loss pk ledger t (k.found m rec).stamped ((reopened mode m base walFile commitFile rec handle r epoch).buildManifest true) :=
    ((loc.fits.found rec rfl).wider (l := (k.found m rec).stamped) (Nat.le_refl _) (Nat.le_refl _) loc.low).alike rfl rfl rfl
      (Nat.le_max_left _ _)
  have state : SameGraph ((reopened mode m base walFile commitFile rec handle r epoch).state.view pk)
      ((t.between base m.snapshotSeq (k.found m rec).high).view pk (t.between base m.snapshotSeq (k.found m rec).high).batches.length) := by
    rw [Timeline.view]
    change SameGraph (deltaAccessor (base.asAccessor pk) r.delta) _
    rw [loc.delta]
    exact .refl _
  have seq : (reopened mode m base walFile commitFile rec handle r epoch).seq = (t.between base m.snapshotSeq (k.found m rec).high).top :=
    loc.applied.trans last.symm
  have told : Told loss pk D (t.between base m.snapshotSeq (k.found m rec).high) (t.between base m.snapshotSeq (k.found m rec).high).top
      (t.between base m.snapshotSeq (k.found m rec).high).top
      (s'.published ++ [(reopened mode m base walFile commitFile rec handle r epoch).state]) := by
    refine told.onto seq (above.trans last.ge) (last.le.trans disk.high) state (fun may slim inside => ⟨start.trans first.ge,?_⟩)
    have room : r.delta.addedEdges.length ≤ 2^32 := slim _ (List.mem_append_right _ (List.mem_singleton_self _))
    rw [first] at inside ⊢
    exact loc.agrees sound start disk.high may room inside (told.durable.trans above)
  refine ⟨⟨disk.map first.le (ordered.trans last.ge) last.ge (fun n f => fits f) (fun cells recs tail logs => ?_) (fun _ _ _ stamped => stamped),
    Timeline.resumedSound sound loc.presents loc.shows (Nat.sub_le_sub_right ordered _),?_⟩,fits own,
    (Nat.le_max_left (k.found m rec).high m.snapshotSeq),fun _ => Nat.le_refl _,fun _ _ => first.ge,
    fun _ => ⟨attached,rfl,loc.delta,seq.symm,List.getLast?_concat⟩⟩
  · refine ⟨logs.bytes,logs.torn,logs.fits,logs.increasing,logs.right.trans ?_⟩
    exact (Timeline.betweenRecords base start ordered disk.high).trans (Timeline.betweenWindow base start ordered disk.high).symm
  · change Told loss pk D _ (max (k.found m rec).high m.snapshotSeq) _ _
    rw [mark,seq]
    rw [last] at told ⊢
    exact told

/- The disk after the stamp. -/
theorem Located.stamped (loc : Located loss pk ledger t k s m base walFile commitFile rec handle r) (mode : BaseMode)
    (start : t.start ≤ m.snapshotSeq) {u : World W} (disk : Standing loss pk ledger t (k.found m rec) u.disk)
    (cut : u.disk = (cutTail walFile r.committedEnd s).disk) (apart : commitFile ≠ walFile) (epoch : Nat) :
    Standing loss pk ledger t (k.found m rec).stamped (restamped commitFile handle epoch (k.found m rec).high u).disk ∧
      Attached loss pk (t.between base m.snapshotSeq (k.found m rec).high) (k.found m rec).stamped
        (reopened mode m base walFile commitFile rec handle r epoch)
        (restamped commitFile handle epoch (k.found m rec).high u).disk := by
  obtain ⟨recs,tail,logs,end_⟩ := loc.log
  obtain ⟨slot,stamped,rfl⟩ := loc.mark
  obtain ⟨kept,dir,_⟩ := cutTailKept (s := s) (n := r.committedEnd) apart
  have sidecar : u.disk.dir commitName = some commitFile := by rw [cut,dir]; exact loc.sidecar
  have now : Stamped loss (k.found m rec) (u.disk.files commitFile) rec slot := by
    rw [cut,kept]
    exact stamped.higher (Nat.le_refl _) (Nat.le_max_left _ _)
  have log : (u.disk.files walFile).content = asCells (frames pk.codec (committed (k.found m rec).high recs)) := by
    rw [cut,end_]
    exact logs.trimmed
  obtain ⟨marked,next⟩ := disk.marked epoch sidecar now loc.low (Nat.le_refl _)
  refine ⟨marked,?_,⟨committed (k.found m rec).high recs,?_⟩,sidecar,⟨_,_,next,rfl⟩⟩
  · change u.disk.dir walName = some walFile
    rw [cut,dir]
    exact loc.file
  · change Exactly pk _ _ ((CommitFile.marked commitFile _ _ u).disk.files walFile).content _
    rw [markedOther apart.symm,log]
    exact logs.exactly start (Nat.le_max_right _ _) disk.high

end located

theorem orphanSpares {keep name : String} (strayed : orphan keep name = true) :
    name ≠ manifestName ∧ name ≠ walName ∧ name ≠ commitName := by
  refine ⟨(orphanApart strayed).2,?_,?_⟩ <;>
  · rintro rfl
    rw [orphan,Bool.and_eq_true] at strayed
    exact absurd strayed.2 (by decide +kernel)

section resuming
variable {σ : Type} {st : σ} {faults : Faults W} {m : Manifest} {base : BaseGraph W} {walFile commitFile : FileId} {rec : CommitRecord}
  {handle : CommitFile} {r : Replay W} {mode : BaseMode} {scan : ScanResult W}

theorem Located.resumes (loc : Located loss pk ledger t k s m base walFile commitFile rec handle r)
    (tracks : Tracks loss pk D ledger t (k.found m rec) hi s) :
    Act.ends (Step faults) (fun s' => ∃ t k hi, Tracks loss pk D ledger t k hi s')
      (resume pk mode m base walFile scan commitFile rec handle r)
      (fun r _ s' => (∃ t k hi, Tracks loss pk D ledger t k hi s' ∧ Level loss k s'.disk) ∧
        ∀ pg, r = .ok pg → ∃ t k, Carries loss pk D ledger t k pg.writer s') st s := by
  have start : t.start ≤ m.snapshotSeq := tracks.disk.start
  have ordered : m.snapshotSeq ≤ (k.found m rec).high := Nat.le_max_right _ _
  have apart : commitFile ≠ walFile := tracks.disk.apart loc.file loc.sidecar
  obtain ⟨recs,tail,logs,end_⟩ := loc.log
  obtain ⟨slot,stamped,handled⟩ := loc.mark
  obtain ⟨kept,dir,shown⟩ := cutTailKept (s := s) (n := r.committedEnd) apart
  obtain ⟨log,sidecar⟩ := tracks.disk.named loc.file loc.sidecar
  -- what is left when it stops on the way
  have stops : ∀ {l : Marks} {s'}, Tracks loss pk D ledger t l hi s' → l.ceil ≤ l.floor →
      (∃ t k hi, Tracks loss pk D ledger t k hi s') ∧ ∀ Why : Prop, Why → ∀ k : IoKind,
        (∃ t k hi, Tracks loss pk D ledger t k hi s' ∧ Level loss k s'.disk) ∧
          ∀ pg, (.error (.err (.io k)) : Except Stop (PersistentGraph W)) = .ok pg → ∃ t k, Carries loss pk D ledger t k pg.writer s' :=
    fun now level => ⟨⟨_,_,_,now⟩,fun _ _ _ => ⟨⟨_,_,_,now,fun _ => .inr level⟩,fun _ bad => nomatch bad⟩⟩
  have trims : ∀ {s'}, Trimming walFile r.committedEnd s s' → Tracks loss pk D ledger t (k.found m rec) hi s' := by
    intro s' way
    refine tracks.on (tracks.disk.trimming loc.file logs (end_ ▸ way)) ?_ (Nat.le_refl _) tracks.told.bound
    cases way <;> rfl
  have cut : Tracks loss pk D ledger t (k.found m rec) hi (cutTail walFile r.committedEnd s) := by
    unfold cutTail
    split
    · exact trims .trimmed
    · exact tracks
  have chosen : ∀ {epoch u}, Chosen faults m (tailLost walFile r.committedEnd s) (cutTail walFile r.committedEnd s) epoch u →
      u.disk = (cutTail walFile r.committedEnd s).disk ∧ u.published = s.published := by
    intro epoch u which
    cases which with
    | kept whole clean => exact ⟨rfl,shown⟩
    | minted lost fresh => exact ⟨rfl,shown⟩
  have chose : ∀ {epoch u}, Chosen faults m (tailLost walFile r.committedEnd s) (cutTail walFile r.committedEnd s) epoch u →
      Tracks loss pk D ledger t (k.found m rec) hi u := fun which =>
    tracks.on ((chosen which).1 ▸ cut.disk) (chosen which).2 (Nat.le_refl _) tracks.told.bound
  have low : max k.low m.snapshotSeq ≤ max (k.found m rec).high m.snapshotSeq := max_le_max_right _ loc.low
  have bound : max (k.found m rec).high m.snapshotSeq ≤ t.top := Nat.max_le.mpr ⟨tracks.disk.high,ordered.trans tracks.disk.high⟩
  have fits : ∀ epoch, Fits loss pk ledger t (k.found m rec).stamped (resumed m epoch (k.found m rec).high) := fun epoch =>
    ((loc.fits.found rec rfl).wider (l := (k.found m rec).stamped) (Nat.le_refl _) (Nat.le_refl _) loc.low).alike rfl rfl rfl
      (Nat.le_max_left _ _)
  refine endsResume (I := fun s' => Standing loss pk ledger t (k.found m rec).stamped s'.disk ∧
      Attached loss pk (t.between base m.snapshotSeq (k.found m rec).high) (k.found m rec).stamped
        (reopened mode m base walFile commitFile rec handle r 0) s'.disk ∧ s'.published = s.published)
    (fun s' left => ?_) (fun s' left => ?_) (fun epoch u which s' way => ?_) (fun epoch u which s' way => ?_)
    (fun epoch u which => ⟨?_,fun s' known => ⟨?_,fun name strayed => ?_,fun w made => ?_⟩⟩)
  · rcases left with rfl | ⟨_,way⟩
    · exact ⟨(stops tracks (Nat.le_refl _)).1,(stops tracks (Nat.le_refl _)).2 _⟩
    · exact ⟨(stops (trims way) (Nat.le_refl _)).1,(stops (trims way) (Nat.le_refl _)).2 _⟩
  · rcases left with rfl | ⟨epoch,which⟩
    · exact ⟨(stops cut (Nat.le_refl _)).1,(stops cut (Nat.le_refl _)).2 _⟩
    · exact ⟨(stops (chose which) (Nat.le_refl _)).1,(stops (chose which) (Nat.le_refl _)).2 _⟩
  · have now := chose which
    have there : u.disk.dir commitName = some commitFile := by
      rw [(chosen which).1,dir]
      exact loc.sidecar
    have mark : Stamped loss (k.found m rec) (u.disk.files commitFile) rec slot := by
      rw [(chosen which).1,kept]
      exact stamped.higher (Nat.le_refl _) (Nat.le_max_left _ _)
    subst handled
    have marking : Tracks loss pk D ledger t (k.found m rec) hi s' :=
      now.on (now.disk.stamping there mark way) (by cases way <;> rfl) (Nat.le_refl _) tracks.told.bound
    exact ⟨(stops marking (Nat.le_refl _)).1,(stops marking (Nat.le_refl _)).2 _⟩
  · obtain ⟨d,way,rfl⟩ := way
    have disk := (loc.stamped mode start (chose which).disk (chosen which).1 apart epoch).1
    have replacing : Tracks loss pk D ledger t (k.found m rec).stamped hi
        ((restamped commitFile handle epoch (k.found m rec).high u).on d) := by
      refine tracks.on ?_ (chosen which).2 low bound
      exact disk.replacing way (by decide) (by decide) (tmpNameApart (by decide)).symm (fun _ => ⟨_,rfl,fits epoch⟩)
    exact ⟨(stops replacing (Nat.le_refl _)).1,(stops replacing (Nat.le_refl _)).2 _⟩
  · obtain ⟨disk,attached⟩ := loc.stamped mode start (chose which).disk (chosen which).1 apart epoch
    refine ⟨?_,?_,(chosen which).2⟩
    · exact disk.replacing .replaced (by decide) (by decide) (tmpNameApart (by decide)).symm (fun _ => ⟨_,rfl,fits epoch⟩)
    · exact Attached.same (attached.replacing .replaced ⟨log,sidecar⟩ (by decide) (by decide)) rfl rfl rfl
  · exact ⟨_,_,_,tracks.on known.1 known.2.2 low bound⟩
  · obtain ⟨manifest,log,sidecar⟩ := orphanSpares strayed
    exact ⟨known.1.unlink manifest log sidecar,known.2.1.unlink log sidecar,known.2.2⟩
  · subst made
    have held := loc.carries tracks.sound start (known.2.2 ▸ tracks.told) (low.trans (Nat.max_le.mpr ⟨Nat.le_refl _,ordered⟩)) mode epoch
      known.1 (known.2.1.same rfl rfl rfl)
    refine ⟨⟨_,_,_,held.tracks⟩,fun report => ⟨⟨_,_,_,held.tracks,fun _ => .inr (Nat.le_refl _)⟩,fun pg same => ?_⟩⟩
    cases Except.ok.inj same
    exact ⟨_,_,held⟩

end resuming

/-! Opening a store that is there. -/
theorem Standing.present (h : Standing loss pk ledger t k d) : d.dir manifestName ≠ none := by
  intro absent
  obtain ⟨m,there,_⟩ := h.manifest.read
  rw [Disk.read,absent] at there
  contradiction

section boots
variable [Arith W] [TotalCmp W] {σ : Type} {st : σ} {faults : Faults W}

theorem resumeHeld (lawful : pk.Lawful) (h : Rests loss pk D s) {mode : BaseMode} {validate : Validation} {m : Manifest}
    {base : BaseGraph W} {walFile : FileId} {scan : ScanResult W} {commitFile : FileId} {rec : CommitRecord} {handle : CommitFile}
    {r : Replay W} (found : Examined pk mode validate s m base walFile scan commitFile rec handle r) :
    Act.ends (Step faults) (Kept loss pk D) (resume pk mode m base walFile scan commitFile rec handle r)
      (fun r _ s' => Rests loss pk D s' ∧ ∀ pg, r = .ok pg → Held loss pk D pg.writer s') st s := by
  obtain ⟨ledger,anchored,t,k,hi,tracks,level⟩ := h
  have loc := tracks.disk.examined lawful anchored found
  obtain ⟨slot,stamped,_⟩ := loc.mark
  refine Act.endsWeaken (Act.endsAnd (resumeAnchored lawful.parses anchored found)
    (loc.resumes (tracks.focus lawful.parses level loc.reads loc.sidecar stamped))) (fun s' both => ⟨_,both⟩) (fun r _ s' _ both => ?_)
  obtain ⟨⟨rests,steered⟩,left,carries⟩ := both
  exact ⟨⟨_,rests,left⟩,fun pg same => ⟨_,steered pg same,carries pg same⟩⟩

theorem bootHeld (lawful : pk.Lawful) (h : Rests loss pk D s) (b : Boot W) :
    Act.ends (Step faults) (Kept loss pk D) (b.run pk)
      (fun r _ s' => Rests loss pk D s' ∧ ∀ pg, r = .ok pg → Held loss pk D pg.writer s') () s := by
  have present : s.disk.dir manifestName ≠ none := by
    obtain ⟨_,_,_,_,_,tracks,_⟩ := h
    exact tracks.disk.present
  have refused : ∀ e, Rests loss pk D s ∧ ∀ pg : PersistentGraph W, (.error e : Except Stop (PersistentGraph W)) = .ok pg →
      Held loss pk D pg.writer s := fun e => ⟨h,fun _ bad => nomatch bad⟩
  have creates : ∀ g, Act.ends (Step faults) (Kept loss pk D) (createStore pk g)
      (fun r _ s' => Rests loss pk D s' ∧ ∀ pg, r = .ok pg → Held loss pk D pg.writer s') () s := fun g =>
    endsCreateStore h.kept refused (fun _ _ absent => absurd absent present) (fun _ _ _ absent => absurd absent present)
  cases b with
  | create g => exact creates g
  | open_ c mode validate =>
    refine endsOpenStore h.kept (fun absent => absurd absent present) (fun _ v => ?_) (fun absent => absurd absent present)
    exact endsOpenExisting h.kept (fun _ e => refused e) (fun m base walFile scan commitFile rec handle r found => resumeHeld lawful h found)

end boots

/-! A store that is created begins a timeline. -/
section creation
variable {g : OrpheusGraphInner W} {sg : SerializableGraphV2 W} {epoch : Nat}

def Timeline.begun (g : OrpheusGraphInner W) : Timeline W := ⟨.owned g,0,[]⟩

def Marks.begun : Marks := ⟨0,0,0,0⟩

/- The base is known from then on. -/
def Known.begun (pk : Packages W) (g : OrpheusGraphInner W) (asked : List (Op W) → Prop) (since : Nat) : Known W :=
  ⟨0,asked,since,g.accessor pk.adjacency⟩

theorem laidLog (sg : SerializableGraphV2 W) (epoch : Nat) (s : World W) :
    (commitLaid sg epoch s).disk.dir walName = some ((snapshotLaid sg s).newest walName) ∧
      (commitLaid sg epoch s).disk.files ((snapshotLaid sg s).newest walName) = ⟨[],[]⟩ := by
  have names : walName ≠ commitName := by decide
  have apart : (snapshotLaid sg s).newest walName ≠ (logLaid sg s).disk.spare commitName := fun same => names (congrArg Prod.fst same)
  constructor
  · change ((logLaid sg s).disk.create commitName).dir walName = _
    rw [Disk.createDir,if_neg names]
    change ((snapshotLaid sg s).disk.create walName).dir walName = _
    rw [Disk.createDir,if_pos rfl]
    rfl
  · have way : Disk.Replacing commitName commitName [.slot (firstRecord epoch)] (logLaid sg s).disk
        (commitSynced epoch ((logLaid sg s).minting epoch)).disk := .synced
    have kept : (commitLaid sg epoch s).disk.files ((snapshotLaid sg s).newest walName) =
        (logLaid sg s).disk.files ((snapshotLaid sg s).newest walName) := Disk.replacingFiles way apart
    rw [kept]
    change (Disk.setFile _ ((snapshotLaid sg s).newest walName) _).files _ = _
    rw [Disk.setFileSame]
    simp [Disk.create,World.newest,World.created,World.on,File.flushed,File.content]

theorem laidSidecar (sg : SerializableGraphV2 W) (epoch : Nat) (s : World W) :
    (commitLaid sg epoch s).disk.dir commitName = some (((logLaid sg s).minting epoch).newest commitName) ∧
      (commitLaid sg epoch s).disk.files (((logLaid sg s).minting epoch).newest commitName) = ⟨[.slot (firstRecord epoch)],[]⟩ := by
  constructor
  · change ((logLaid sg s).disk.create commitName).dir commitName = _
    rw [Disk.createDir,if_pos rfl]
    rfl
  · exact Disk.syncedFile (logLaid sg s).disk commitName _

theorem toldFirst (asked : List (Op W) → Prop) (published : List (GraphState W)) {state : GraphState W} (seq : state.seq = 0)
    (shows : SameGraph (state.view pk) (g.accessor pk.adjacency)) :
    Told loss pk (.begun pk g asked published.length) (.begun g) 0 0 (published ++ [state]) := by
  have view : (Timeline.begun g).view pk 0 = g.accessor pk.adjacency := Timeline.viewStart pk _
  have only : ∀ {x}, x ∈ (published ++ [state]).drop (Known.begun pk g asked published.length).since → x = state := by
    intro x late
    change x ∈ (published ++ [state]).drop published.length at late
    rw [List.drop_left] at late
    exact List.mem_singleton.mp late
  refine ⟨Nat.le_refl _,⟨state,List.getLast?_concat,seq,.inl rfl⟩,fun n _ below => ⟨state,?_,?_⟩,Nat.le_refl _,fun _ => ⟨rfl,fun x late => ?_⟩,
    fun _ _ => Nat.zero_le _,fun _ _ _ => ?_,fun _ _ x late _ => ?_⟩
  · rw [latestAppend,if_pos (seq.trans (Nat.le_zero.mp below).symm)]
  · rw [Nat.le_zero.mp below]
    exact view.symm ▸ shows
  · exact only late ▸ seq
  · exact view.symm ▸ .refl _
  · exact only late ▸ shows

section founded
variable (same : SameGraph (ledger 0 0) (g.accessor pk.adjacency))
include same

theorem firstFits (sg : SerializableGraphV2 W) (epoch : Nat) : Fits loss pk ledger (.begun g) .begun (firstManifest pk sg epoch) := by
  refine ⟨rfl,Nat.le_refl _,Nat.le_refl _,fun _ => .inl rfl,Nat.le_refl _,?_⟩
  change SameGraph (ledger 0 0) ((Timeline.begun g).view pk 0)
  rw [Timeline.viewStart]
  exact same

theorem foundedCarries (ok : g.Indexed) (canonical : (g.accessor pk.adjacency).Canonical) (asked : List (Op W) → Prop) :
    Carries loss pk (.begun pk g asked s.published.length) ledger (.begun g) .begun
      (firstWriter pk g sg ((snapshotLaid sg s).newest walName) (((logLaid sg s).minting epoch).newest commitName) epoch)
      (Writer.announced (founded pk sg epoch s)
        (firstWriter pk g sg ((snapshotLaid sg s).newest walName) (((logLaid sg s).minting epoch).newest commitName) epoch).state) := by
  have way : Disk.Replacing (tmpName manifestName) manifestName (manifestCells pk (firstManifest pk sg epoch)) (commitLaid sg epoch s).disk
      (founded pk sg epoch s).disk := .replaced
  obtain ⟨logDir,logFile⟩ := laidLog sg epoch s
  obtain ⟨sideDir,sideFile⟩ := laidSidecar sg epoch s
  have log : (founded pk sg epoch s).disk.files ((snapshotLaid sg s).newest walName) = ⟨[],[]⟩ :=
    (Disk.replacingFiles way (fun same => fileApart (.inl rfl) _ (congrArg Prod.fst same))).trans logFile
  have sidecar : (founded pk sg epoch s).disk.files (((logLaid sg s).minting epoch).newest commitName) =
      ⟨[.slot (firstRecord epoch)],[]⟩ :=
    (Disk.replacingFiles way (fun same => fileApart (.inr rfl) _ (congrArg Prod.fst same))).trans sideFile
  have logFixed : (founded pk sg epoch s).disk.Fixed loss walName ((snapshotLaid sg s).newest walName) :=
    (Disk.fixedSyncDir logDir).replacing way (tmpNameApart (by decide)).symm (by decide)
  have sideFixed : (founded pk sg epoch s).disk.Fixed loss commitName (((logLaid sg s).minting epoch).newest commitName) :=
    (Disk.fixedSyncDir sideDir).replacing way (tmpNameApart (by decide)).symm (by decide)
  have exact_ : Exactly pk (.begun g) Marks.begun.floor ([] : List (Stored W)) [] := exactlyEmpty pk (Nat.le_refl _)
  have stamped : Stamped loss .begun (⟨[.slot (firstRecord epoch)],[]⟩ : File (Stored W)) (firstRecord epoch) 0 := by
    refine stampedFlushed (f := ⟨[.slot (firstRecord epoch)],[]⟩) ⟨by decide,rfl,fun other found => ?_⟩ (Nat.le_refl _) (Nat.le_refl _)
    exact nomatch (show (none : Option CommitRecord) = some other from found)
  have disk : Standing loss pk ledger (.begun g) .begun (founded pk sg epoch s).disk := by
    refine ⟨Nat.le_refl _,Nat.le_refl _,Nat.le_refl _,Disk.firmReplaced ⟨_,rfl,firstFits same sg epoch⟩,⟨_,rfl,logFixed,fun cells left => ?_⟩,
      ⟨_,rfl,sideFixed,firstRecord epoch,0,sidecar.symm ▸ stamped⟩⟩
    rw [log] at left
    rw [leftFlushed (f := ⟨[],[]⟩) left]
    exact ⟨[],[],exact_.logs (Nat.le_refl _)⟩
  have presents : Presents pk (Timeline.begun g).base := ownedPresents ok canonical
  have shows : SameGraph ((firstWriter pk g sg ((snapshotLaid sg s).newest walName)
      (((logLaid sg s).minting epoch).newest commitName) epoch).state.view pk) (g.accessor pk.adjacency) := by
    change SameGraph (deltaAccessor (g.accessor pk.adjacency) .new) _
    rw [emptyOverlay]
    exact .refl _
  refine ⟨⟨disk,⟨presents,.done _⟩,toldFirst asked s.published rfl shows⟩,
    (firstFits same sg epoch).alike rfl rfl rfl (Nat.le_refl _),Nat.le_refl _,fun _ => Nat.le_refl _,
    fun _ _ => Nat.le_refl _,fun _ => ⟨⟨logFixed.dir,⟨[],?_⟩,sideFixed.dir,⟨firstRecord epoch,0,?_,rfl⟩⟩,rfl,rfl,rfl,List.getLast?_concat⟩⟩
  · change Exactly pk _ _ ((founded pk sg epoch s).disk.files ((snapshotLaid sg s).newest walName)).content []
    rw [log]
    exact exact_
  · change Stamped loss .begun ((founded pk sg epoch s).disk.files (((logLaid sg s).minting epoch).newest commitName)) _ 0
    rw [sidecar]
    exact stamped

end founded
end creation

theorem createHeld [Arith W] [TotalCmp W] {σ : Type} {st : σ} {faults : Faults W} {P : Nat → Nat → SerializableGraphV2 W → Prop}
    {g : OrpheusGraphInner W} (a : Anchored pk P s.disk) (ok : g.Indexed) (canonical : (g.accessor pk.adjacency).Canonical)
    (asked : List (Op W) → Prop) :
    Act.ends (Step faults) (fun _ => True) (createStore pk g)
      (fun r _ s' => ∀ pg, r = .ok pg → Held loss pk (.begun pk g asked s.published.length) pg.writer s') st s := by
  refine endsCreateStore trivial (fun _ _ bad => nomatch bad) (fun _ _ _ _ _ => ⟨trivial,fun _ _ bad => nomatch bad⟩)
    (fun sg epoch archived absent _ w made => ⟨trivial,fun report pg same => ?_⟩)
  subst made
  cases Except.ok.inj same
  have shown : Portrays pk sg (g.accessor pk.adjacency) := ⟨g,ok,canonical,archived,.refl _⟩
  exact ⟨fun _ _ => g.accessor pk.adjacency,foundedSteered (a.unfounded absent) shown epoch,_,_,foundedCarries (.refl _) ok canonical asked⟩

end OrpheusGraph
