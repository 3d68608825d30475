import OrpheusGraph.Clients
import OrpheusGraph.Standing

/-! What was published and what the writer holds, against the timeline: every request keeps it,
in whatever state it is interrupted. -/
namespace OrpheusGraph
open Storage Effects
variable {W : Type}

/-! What readers were shown last under a number. -/
def latest (n : Nat) (published : List (GraphState W)) : Option (GraphState W) :=
  published.reverse.find? (fun g => g.seq = n)

theorem latestAppend (n : Nat) (published : List (GraphState W)) (g : GraphState W) :
    latest n (published ++ [g]) = if g.seq = n then some g else latest n published := by
  rw [latest,List.reverse_append,List.reverse_singleton,List.singleton_append,List.find?_cons]
  by_cases same : g.seq = n <;> simp [same,latest]

/-! What clients can hold the store to: a number that was reported as durable, the batches that were
asked for, and how much was published when the number meant `graph`. -/
structure Known (W : Type) where
  durable : Nat
  asked : List (Op W) → Prop
  since : Nat
  graph : GraphAccessor W

/- A graph that one more batch makes of `g`, one that was asked for and accepted. -/
def Onward (pk : Packages W) (asked : List (Op W) → Prop) (g : GraphState W) (a : GraphAccessor W) : Prop :=
  ∃ ops next, asked ops ∧ g.delta.apply (g.base.asAccessor pk) ops = .ok next ∧
    SameGraph a (deltaAccessor (g.base.asAccessor pk) next)

/- The range of the delta's positions. -/
def Slim (published : List (GraphState W)) : Prop := ∀ g ∈ published, g.delta.addedEdges.length ≤ 2^32

/- From `lo` to `hi` the timeline was published. Beyond that there is at most a batch that was written
and not answered. -/
structure Told (loss : Prop) (pk : Packages W) (D : Known W) (t : Timeline W) (lo hi : Nat) (published : List (GraphState W)) : Prop where
  bound : lo ≤ t.top
  last : ∃ g, published.getLast? = some g ∧ g.seq = hi ∧
    (t.top = hi ∨ t.top = hi + 1 ∧ Onward pk D.asked g (t.view pk t.batches.length))
  shown : ∀ n, lo ≤ n → n ≤ hi → ∃ g, latest n published = some g ∧ SameGraph (g.view pk) (t.view pk (n - t.start))
  durable : D.durable ≤ lo
  quiet : (∀ ops, ¬D.asked ops) → t.top = D.durable ∧ ∀ g ∈ published.drop D.since, g.seq = D.durable
  later : ∀ g ∈ published.drop D.since, D.durable ≤ g.seq
  graph : loss → Slim published → t.start ≤ D.durable → SameGraph (t.view pk (D.durable - t.start)) D.graph
  pinned : loss → Slim published → ∀ g ∈ published.drop D.since, g.seq = D.durable → SameGraph (g.view pk) D.graph

section told
variable {loss : Prop} {pk : Packages W} {D : Known W} {t : Timeline W} {lo hi : Nat} {published : List (GraphState W)}

theorem Slim.front {g : GraphState W} (slim : Slim (published ++ [g])) : Slim published :=
  fun x member => slim x (List.mem_append_left _ member)

theorem dropLast {n : Nat} {g x : GraphState W} (member : x ∈ (published ++ [g]).drop n) : x ∈ published.drop n ∨ x = g := by
  rw [List.drop_append,List.mem_append] at member
  exact member.imp_right (fun late => List.mem_singleton.mp (List.mem_of_mem_drop late))

theorem Told.narrow (h : Told loss pk D t lo hi published) {lo' : Nat} (low : lo ≤ lo') (bound : lo' ≤ t.top) :
    Told loss pk D t lo' hi published :=
  ⟨bound,h.last,fun n above below => h.shown n (low.trans above) below,h.durable.trans low,h.quiet,h.later,h.graph,h.pinned⟩

theorem Timeline.insideStart {n : Nat} (below : n ≤ t.top) : n - t.start ≤ t.batches.length := by
  unfold Timeline.top at below
  omega

/- Another timeline with the same end goes on from a state that was published there. -/
theorem Told.onto (h : Told loss pk D t lo hi published) {t' : Timeline W} {g : GraphState W} (seq : g.seq = t'.top)
    (above : lo ≤ t'.top) (below : t'.top ≤ t.top) (same : SameGraph (g.view pk) (t'.view pk t'.batches.length))
    (graph : loss → Slim (published ++ [g]) → t'.start ≤ D.durable → t.start ≤ t'.start ∧
      SameGraph (t'.view pk (D.durable - t'.start)) (t.view pk (D.durable - t.start))) :
    Told loss pk D t' t'.top t'.top (published ++ [g]) := by
  have whole : t'.top - t'.start = t'.batches.length := Nat.add_sub_cancel_left ..
  have pinned : loss → Slim (published ++ [g]) → t'.start ≤ D.durable → SameGraph (t'.view pk (D.durable - t'.start)) D.graph := by
    intro may slim inside
    obtain ⟨start,agrees⟩ := graph may slim inside
    exact agrees.trans (h.graph may slim.front (start.trans inside))
  refine ⟨Nat.le_refl _,⟨g,List.getLast?_concat,seq,.inl rfl⟩,fun n low high => ⟨g,?_,?_⟩,h.durable.trans above,fun none_asked => ?_,
    fun x member => ?_,pinned,fun may slim x member number => ?_⟩
  · obtain rfl : n = t'.top := Nat.le_antisymm high low
    rw [latestAppend,if_pos seq]
  · obtain rfl : n = t'.top := Nat.le_antisymm high low
    rw [whole]
    exact same
  · obtain ⟨top,before⟩ := h.quiet none_asked
    have end_ : t'.top = D.durable := Nat.le_antisymm (top ▸ below) (h.durable.trans above)
    refine ⟨end_,fun x member => ?_⟩
    rcases dropLast member with old | rfl
    · exact before x old
    · exact seq.trans end_
  · rcases dropLast member with old | rfl
    · exact h.later x old
    · exact seq ▸ h.durable.trans above
  · rcases dropLast member with old | rfl
    · exact h.pinned may slim.front x old number
    · have end_ : D.durable = t'.top := number.symm.trans seq
      have agrees := pinned may slim (end_ ▸ Nat.le_add_right _ _)
      rw [end_,whole] at agrees
      exact same.trans agrees

/- A batch is written after the last state. -/
theorem Told.inFlight (h : Told loss pk D t lo hi published) (top : t.top = hi) {ops : List (Op W)} (asked : D.asked ops)
    {next : GraphDelta W} {g : GraphState W} (last : published.getLast? = some g) (base : g.base = t.base)
    (delta : g.delta = t.delta pk t.batches.length) (accepted : g.delta.apply (g.base.asAccessor pk) ops = .ok next) :
    Told loss pk D (t.grown ops) lo hi published := by
  have view : ∀ {n}, n ≤ t.top → (t.grown ops).view pk (n - (t.grown ops).start) = t.view pk (n - t.start) := fun below =>
    Timeline.grownView t ops (Timeline.insideStart below)
  refine ⟨h.bound.trans ((Timeline.grownTop t ops).symm ▸ Nat.le_succ _),?_,fun n above below => ?_,h.durable,
    fun none_asked => absurd asked (none_asked ops),h.later,fun may slim inside => ?_,h.pinned⟩
  · obtain ⟨g',last',seq,_⟩ := h.last
    cases Option.some.inj (last.symm.trans last')
    refine ⟨g,last,seq,.inr ⟨by rw [Timeline.grownTop,top],ops,next,asked,accepted,?_⟩⟩
    rw [base,delta] at accepted
    rw [Timeline.view,Timeline.grownDelta t accepted,base]
    exact .refl _
  · obtain ⟨g',found,same⟩ := h.shown n above below
    exact ⟨g',found,(view (below.trans top.ge)).symm ▸ same⟩
  · exact (view (h.durable.trans h.bound)).symm ▸ h.graph may slim inside

/- And then published. -/
theorem Told.announced (h : Told loss pk D t lo hi published) (top : t.top = hi) {ops : List (Op W)} (asked : D.asked ops)
    {g : GraphState W} (seq : g.seq = hi + 1) (same : SameGraph (g.view pk) ((t.grown ops).view pk (t.grown ops).batches.length))
    {lo' : Nat} (low : lo ≤ lo') (bound : lo' ≤ hi + 1) :
    Told loss pk D (t.grown ops) lo' (hi + 1) (published ++ [g]) := by
  have top' : (t.grown ops).top = hi + 1 := by rw [Timeline.grownTop,top]
  have view : ∀ {n}, n ≤ t.top → (t.grown ops).view pk (n - (t.grown ops).start) = t.view pk (n - t.start) := fun below =>
    Timeline.grownView t ops (Timeline.insideStart below)
  have early : D.durable ≤ hi := top ▸ h.durable.trans h.bound
  refine ⟨top'.symm ▸ bound,⟨g,List.getLast?_concat,seq,.inl top'⟩,fun n above below => ?_,h.durable.trans low,
    fun none_asked => absurd asked (none_asked ops),fun x member => ?_,fun may slim inside => ?_,fun may slim x member number => ?_⟩
  · rw [latestAppend,seq]
    rcases Nat.lt_or_ge hi n with new | old
    · obtain rfl : n = hi + 1 := by omega
      refine ⟨g,if_pos rfl,?_⟩
      rw [← top',show (t.grown ops).top - (t.grown ops).start = (t.grown ops).batches.length from Nat.add_sub_cancel_left ..]
      exact same
    · obtain ⟨g',found,shown⟩ := h.shown n (low.trans above) old
      exact ⟨g',by rw [if_neg (by omega),found],(view (old.trans top.ge)).symm ▸ shown⟩
  · rcases dropLast member with old | rfl
    · exact h.later x old
    · exact seq ▸ early.trans (Nat.le_succ _)
  · exact (view (h.durable.trans h.bound)).symm ▸ h.graph may slim.front inside
  · rcases dropLast member with old | rfl
    · exact h.pinned may slim.front x old number
    · omega

end told

/-! The store with its timeline. -/
section invariant
variable (loss : Prop) (pk : Packages W) (D : Known W) (ledger : Ledger W)

structure Tracks (t : Timeline W) (k : Marks) (hi : Nat) (s : World W) : Prop where
  disk : Standing loss pk ledger t k s.disk
  sound : t.Sound pk
  told : Told loss pk D t (max k.low k.floor) hi s.published

/- The files of a writer that is not poisoned. -/
structure Attached (t : Timeline W) (k : Marks) (w : Writer W) (d : StoreDisk W) : Prop where
  file : d.dir walName = some w.wal.file
  log : ∃ recs, Exactly pk t k.floor (d.files w.wal.file).content recs
  sidecar : d.dir commitName = some w.commitFile
  mark : ∃ rec slot, Stamped loss k (d.files w.commitFile) rec slot ∧ w.commit = ⟨1 - slot,rec.gen + 1⟩

/- It is at the end of the timeline. -/
structure Live (t : Timeline W) (k : Marks) (w : Writer W) (s : World W) : Prop extends Attached loss pk t k w s.disk where
  base : w.base = t.base
  delta : w.delta = t.delta pk t.batches.length
  top : t.top = w.seq
  state : s.published.getLast? = some w.state

structure Carries (t : Timeline W) (k : Marks) (w : Writer W) (s : World W) : Prop where
  tracks : Tracks loss pk D ledger t k w.seq s
  own : Fits loss pk ledger t k (w.buildManifest true)
  durable : w.durableSeq ≤ max k.low k.floor
  level : loss → k.ceil ≤ k.floor
  even : w.wal.poisoned = false → loss → k.ceil ≤ t.start
  live : w.wal.poisoned = false → Live loss pk t k w s

end invariant

section keeps
variable [Arith W] [TotalCmp W] (loss : Prop) (pk : Packages W) (D : Known W)

/- In any state that is reached on the way. -/
def Kept (s : World W) : Prop :=
  ∃ ledger, Anchored pk (fun seq cid sg => Portrays pk sg (ledger seq cid)) s.disk ∧ ∃ t k hi, Tracks loss pk D ledger t k hi s

def Held (w : Writer W) (s : World W) : Prop :=
  ∃ ledger, Steered pk (fun seq cid sg => Portrays pk sg (ledger seq cid)) w s.disk ∧ ∃ t k, Carries loss pk D ledger t k w s

end keeps

/- With `loss` only the sync of the log or the sidecar can fail. -/
def Tame (loss : Prop) (faults : Faults W) : Prop :=
  loss → ∀ c, faults.fails c → ∃ f, c = .syncAll f ∧ (f.1 = walName ∨ f.1 = commitName)

theorem Tame.at_ {loss : Prop} {faults : Faults W} (tame : Tame loss faults) {name : String} (may : faults.at (tmpName name)) : ¬loss := by
  intro lossy
  obtain ⟨c,fails,apart⟩ := may
  obtain ⟨f,rfl,which⟩ := tame lossy c fails
  exact fileApart which name (apart f rfl)

def Small (s : World W) : Prop := Slim s.published

/- What no call takes back. -/
structure World.Grows (s s' : World W) : Prop where
  published : s.published <+: s'.published
  minted : s.minted <:+ s'.minted

theorem World.Grows.refl (s : World W) : s.Grows s := ⟨List.prefix_refl _,List.suffix_refl _⟩

theorem World.Grows.trans {s s' s'' : World W} (first : s.Grows s') (second : s'.Grows s'') : s.Grows s'' :=
  ⟨first.published.trans second.published,first.minted.trans second.minted⟩

theorem World.Grows.on {s s' : World W} (grows : s.Grows s') (d : StoreDisk W) : s.Grows (s'.on d) := ⟨grows.published,grows.minted⟩

theorem stepGrows {faults : Faults W} {e : Call W} {s s' : World W} {r : Answer e} (step : Step faults e s r s') : s.Grows s' := by
  have still : ∀ d, s.Grows (s.on d) := (World.Grows.refl s).on
  cases e with
  | exists_ name =>
    obtain ⟨_,rfl⟩ := step
    exact .refl _
  | publish g =>
    cases show s' = { s with published := s.published ++ [g] } from step
    exact ⟨List.prefix_append _ _,List.suffix_refl _⟩
  | io c =>
    have works : ∀ {r s'}, c.works faults s r s' → s.Grows s' := by
      intro r s' worked
      cases c with
      | readDir =>
        obtain ⟨_,_,_,rfl⟩ := worked
        exact .refl _
      | mintEpoch =>
        obtain ⟨_,_,_,rfl⟩ := worked
        exact ⟨List.prefix_refl _,List.suffix_cons _ _⟩
      | rename src dst =>
        rw [IoCall.works] at worked
        split at worked <;> exact worked.2 ▸ still _
      | removeFile name =>
        rw [IoCall.works] at worked
        split at worked <;> exact worked.2 ▸ still _
      | _ =>
        obtain ⟨_,rfl⟩ := worked
        exact still _
    rcases step with worked | ⟨_,_,rfl | ⟨v,worked⟩ | part⟩
    · exact works worked
    · exact .refl _
    · exact works worked
    · cases c with
      | append f cells =>
        obtain ⟨_,_,rfl⟩ := part
        exact still _
      | writeAt f off cells =>
        obtain ⟨_,_,rfl⟩ := part
        exact still _
      | _ => exact part.elim

theorem endsLarge {σ α : Type} {faults : Faults W} {p : Io W σ α} {st : σ} {s : World W} (large : ¬Small s) {C : World W → Prop}
    {Q : Except Stop α → σ → World W → Prop} :
    Act.ends (Step faults) (fun s' => Small s' → C s') p (fun r st s' => Small s' → Q r st s') st s := by
  refine Act.endsWeaken (Act.endsStays (C := fun s' => ¬Small s') (fun e s r s' large step small => large (fun g member => ?_)) large)
    (fun _ large small => absurd small large) (fun _ _ _ large _ small => absurd small large)
  exact small g ((stepGrows step).published.subset member)

section moves
variable {loss : Prop} {pk : Packages W} {D : Known W} {ledger : Ledger W} {t : Timeline W} {k : Marks} {hi : Nat} {s s' : World W}
  {d : StoreDisk W} {w : Writer W}

theorem Tracks.moved (h : Tracks loss pk D ledger t k hi s) {l : Marks} (disk : Standing loss pk ledger t l d)
    (low : max k.low k.floor ≤ max l.low l.floor) (bound : max l.low l.floor ≤ t.top) :
    Tracks loss pk D ledger t l hi (s.on d) :=
  ⟨disk,h.sound,h.told.narrow low bound⟩

theorem Tracks.still (h : Tracks loss pk D ledger t k hi s) (disk : Standing loss pk ledger t k d) :
    Tracks loss pk D ledger t k hi (s.on d) := h.moved disk (Nat.le_refl _) h.told.bound

/-! The log is synced as a whole. -/
theorem Standing.sealed (h : Standing loss pk ledger t k d) {i : FileId} (bound : d.dir walName = some i) {recs : List (WalRecord W)}
    (e : Exactly pk t k.floor (d.files i).content recs) : Standing loss pk ledger t { k with high := t.top } (d.sync i) := by
  refine h.relog (l := { k with high := t.top }) bound ⟨rfl,rfl,rfl⟩ h.high (Nat.le_refl _) (fun cells left => ?_)
  rw [leftFlushed left]
  exact ⟨recs,[],Exactly.logs (k := { k with high := t.top }) e (Nat.le_refl _)⟩

/- And cut, when nothing in it is above the floor. -/
theorem Standing.cut (h : Standing loss pk ledger t k d) {i : FileId} (bound : d.dir walName = some i) (top : t.top ≤ k.floor) :
    Standing loss pk ledger t k (d.write i (.setLen 0)) ∧ Standing loss pk ledger t k ((d.write i (.setLen 0)).sync i) := by
  have empty : ∀ xs : List (Stored W), (Write.setLen 0).apply xs = [] := fun xs => by simp [Write.apply,resize]
  have none_left : ∃ recs tail, Logs pk t k [] recs tail := ⟨_,_,(exactlyEmpty pk top).logs h.high⟩
  have short : Standing loss pk ledger t k (d.write i (.setLen 0)) := by
    refine h.relog bound ⟨rfl,rfl,rfl⟩ (Nat.le_refl _) h.high (fun cells left => ?_)
    rcases leftPush left with old | rfl | ⟨_,_,_,put,_⟩
    · exact h.logged bound old
    · exact empty _ ▸ none_left
    · contradiction
  refine ⟨short,short.relog bound ⟨rfl,rfl,rfl⟩ (Nat.le_refl _) h.high (fun cells left => ?_)⟩
  rw [leftFlushed left,Disk.write,Disk.setFileSame,contentPush,empty]
  exact none_left

/-! The timeline begins anew on a base that shows its end. -/
section restart
variable {base : BaseGraph W}

def Timeline.anew (t : Timeline W) (base : BaseGraph W) : Timeline W := ⟨base,t.top,[]⟩

theorem anewView (pk : Packages W) (t : Timeline W) (base : BaseGraph W) : (t.anew base).view pk 0 = base.asAccessor pk :=
  Timeline.viewStart pk _

theorem Fits.anew {m : Manifest} (fits : Fits loss pk ledger t k m) (floor : k.floor = t.top) (ceil : k.ceil ≤ t.top)
    (same : SameGraph (base.asAccessor pk) (t.view pk t.batches.length)) : Fits loss pk ledger (t.anew base) k m := by
  have seq : m.snapshotSeq = t.top := Nat.le_antisymm (fits.ceil.trans ceil) (floor ▸ fits.floor)
  refine ⟨fits.version,fits.floor,fits.ceil,fun _ => .inl seq,fits.high,fits.graph.trans ?_⟩
  rw [seq,show t.top - (t.anew base).start = 0 from Nat.sub_self _,anewView,
    show t.top - t.start = t.batches.length from Nat.add_sub_cancel_left ..]
  exact same.symm

theorem Exactly.anew {floor : Nat} {cells : List (Stored W)} {recs : List (WalRecord W)} (e : Exactly pk t floor cells recs)
    (top : t.top ≤ floor) : Exactly pk (t.anew base) floor cells recs := by
  refine ⟨e.bytes,e.fits,e.increasing,e.below,?_⟩
  have top' : (t.anew base).top ≤ floor := top
  rw [windowNone (fun rec _ => by omega),windowNone (fun rec _ => by omega)]

theorem Tracks.anew (h : Tracks loss pk D ledger t k t.top s) (floor : k.floor = t.top) (presents : Presents pk base)
    (same : SameGraph (base.asAccessor pk) (t.view pk t.batches.length)) (epoch : Nat) :
    Tracks loss pk D ledger (t.anew base) k t.top (Writer.announced s ⟨base,.new,t.top,epoch⟩) := by
  have lo : max k.low k.floor = t.top := Nat.le_antisymm h.told.bound (floor.symm.le.trans (Nat.le_max_right _ _))
  have shown : SameGraph ((⟨base,.new,t.top,epoch⟩ : GraphState W).view pk) ((t.anew base).view pk 0) := by
    rw [anewView,GraphState.view,emptyOverlay]
    exact .refl _
  refine ⟨h.disk.map floor.ge h.disk.ceil h.disk.high (fun m fits => fits.anew floor h.disk.ceil same) (fun cells recs tail logs => ?_)
    (fun _ _ _ stamped => stamped),⟨presents,.done _⟩,?_⟩
  · refine ⟨logs.bytes,logs.torn,logs.fits,logs.increasing,?_⟩
    have high := h.disk.high
    rw [windowNone (fun rec _ => by omega),windowNone (fun rec _ => by omega)]
  · rw [lo]
    have seq : (⟨base,.new,t.top,epoch⟩ : GraphState W).seq = (t.anew base).top := rfl
    refine h.told.onto seq lo.le (Nat.le_refl _) shown (fun _ _ inside => ⟨Nat.le_add_right _ _,?_⟩)
    have durable : D.durable = t.top := Nat.le_antisymm (lo ▸ h.told.durable) inside
    rw [durable,show t.top - (t.anew base).start = 0 from Nat.sub_self _,anewView,
      show t.top - t.start = t.batches.length from Nat.add_sub_cancel_left ..]
    exact same

end restart

/-! The sidecar is stamped with the highest mark. -/
section stamping
variable {j : FileId} {rec : CommitRecord} {slot epoch : Nat}

theorem Stamped.lowest {f : File (Stored W)} (stamped : Stamped loss k f rec slot) : k.low ≤ rec.committedSeq := by
  obtain ⟨rec',slot',holds,low,below⟩ := stamped.left _ (.inl rfl)
  exact low.trans below

/- The stamp that a handle on the file writes. -/
def CommitRecord.next (rec : CommitRecord) (epoch mark : Nat) : CommitRecord := ⟨epoch,mark,rec.gen + 1⟩

theorem Standing.wrote (h : Standing loss pk ledger t k s.disk) (bound : s.disk.dir commitName = some j)
    (stamped : Stamped loss k (s.disk.files j) rec slot) {part : List (Stored W)} (tears : Part [.slot (rec.next epoch k.high)] part) :
    Standing loss pk ledger t k (s.disk.write j (.put (1 - slot) part)) := by
  obtain ⟨rec',slot',next⟩ := stamped.put rfl stamped.high (Nat.le_refl k.high) tears
  exact h.remark bound ⟨rfl,rfl,rfl⟩ (Nat.le_refl _) next

/- Once it is synced no lower one can be found. -/
theorem Standing.marked (h : Standing loss pk ledger t k s.disk) (epoch : Nat) (bound : s.disk.dir commitName = some j)
    (stamped : Stamped loss k (s.disk.files j) rec slot) {low : Nat} (above : k.low ≤ low) (below : low ≤ k.high) :
    Standing loss pk ledger t { k with low := low }
      (CommitFile.marked j ⟨1 - slot,rec.gen + 1⟩ (rec.next epoch k.high) s).disk ∧
    Stamped loss { k with low := low } ((CommitFile.marked j ⟨1 - slot,rec.gen + 1⟩ (rec.next epoch k.high) s).disk.files j)
      (rec.next epoch k.high) (1 - slot) := by
  have whole := stamped.holds.replaced (c := Stored.slot (rec.next epoch k.high)) storedLawful rfl rfl
  have next : Stamped loss { k with low := low }
      ((s.disk.write j (.put (1 - slot) [.slot (rec.next epoch k.high)])).files j).flushed (rec.next epoch k.high) (1 - slot) := by
    refine stampedFlushed ?_ below (Nat.le_refl k.high)
    rw [Disk.write,Disk.setFileSame,contentPush]
    exact whole
  refine ⟨(h.wrote bound stamped (partWhole _)).remark (l := { k with low := low }) bound ⟨rfl,rfl,rfl⟩ above next,?_⟩
  change Stamped loss _ ((Disk.setFile _ j _).files j) _ _
  rw [Disk.setFileSame]
  exact next

theorem Standing.stamping (h : Standing loss pk ledger t k s.disk) (bound : s.disk.dir commitName = some j)
    (stamped : Stamped loss k (s.disk.files j) rec slot)
    (way : CommitFile.Marking j ⟨1 - slot,rec.gen + 1⟩ (rec.next epoch k.high) s s') : Standing loss pk ledger t k s'.disk := by
  cases way with
  | before => exact h
  | wrote tears => exact h.wrote bound stamped tears
  | marked => exact (h.marked epoch bound stamped (Nat.le_refl _) (stamped.lowest.trans stamped.high)).1

end stamping

theorem markedOther {i j : FileId} {handle : CommitFile} {rec : CommitRecord} (apart : i ≠ j) :
    (CommitFile.marked j handle rec s).disk.files i = s.disk.files i := by
  change (Disk.setFile (Disk.setFile _ j _) j _).files i = _
  rw [Disk.setFileOther _ apart,Disk.setFileOther _ apart]

theorem Standing.named (h : Standing loss pk ledger t k d) {i j : FileId} (log : d.dir walName = some i)
    (sidecar : d.dir commitName = some j) : i.1 = walName ∧ j.1 = commitName := by
  obtain ⟨i',which,fixed,_⟩ := h.log
  obtain ⟨j',side,bound,_⟩ := h.sidecar
  cases Option.some.inj (log.symm.trans fixed.dir)
  cases Option.some.inj (sidecar.symm.trans bound.dir)
  exact ⟨which,side⟩

theorem Standing.apart (h : Standing loss pk ledger t k d) {i j : FileId} (log : d.dir walName = some i)
    (sidecar : d.dir commitName = some j) : j ≠ i := by
  obtain ⟨which,side⟩ := h.named log sidecar
  exact fun same => absurd (side.symm.trans ((congrArg Prod.fst same).trans which)) (by decide)

/- A MANIFEST of the same snapshot. -/
theorem Fits.alike {m n : Manifest} (fits : Fits loss pk ledger t k m) (version : n.formatVersion = m.formatVersion)
    (seq : n.snapshotSeq = m.snapshotSeq) (cid : n.compactionId = m.compactionId) (high : n.highSeq ≤ max k.low m.snapshotSeq) :
    Fits loss pk ledger t k n := by
  refine ⟨version.trans fits.version,?_,?_,?_,?_,?_⟩
  · exact seq ▸ fits.floor
  · exact seq ▸ fits.ceil
  · exact seq ▸ fits.ends
  · exact seq ▸ high
  · rw [seq,cid]
    exact fits.graph

theorem Carries.failed (tracks : Tracks loss pk D ledger t k w.seq s) (own : Fits loss pk ledger t k (w.buildManifest true))
    (durable : w.durableSeq ≤ max k.low k.floor) (level : loss → k.ceil ≤ k.floor) (poisoned : w.wal.poisoned = true) :
    Carries loss pk D ledger t k w s :=
  ⟨tracks,own,durable,level,fun sound => absurd (poisoned.symm.trans sound) (by decide),
    fun sound => absurd (poisoned.symm.trans sound) (by decide)⟩

end moves

section requests
variable {loss : Prop} {pk : Packages W} {D : Known W} {ledger : Ledger W} {t : Timeline W} {k : Marks}
  {s s' : World W} {w : Writer W} {faults : Faults W}

/-! What a writer does to its files, one after another. -/
theorem Attached.sync (a : Attached loss pk t k w s.disk) (disk : Standing loss pk ledger t k s.disk) :
    Standing loss pk ledger t { k with high := t.top } (w.wal.synced s).disk ∧
      Attached loss pk t { k with high := t.top } w.flushed (w.wal.synced s).disk := by
  obtain ⟨recs,e⟩ := a.log
  obtain ⟨rec,slot,stamped,handle⟩ := a.mark
  refine ⟨disk.sealed a.file e,a.file,⟨recs,?_⟩,a.sidecar,⟨rec,slot,?_,handle⟩⟩
  · change Exactly pk t k.floor ((Disk.setFile _ w.wal.file _).files w.wal.file).content recs
    rw [Disk.setFileSame]
    exact e
  · change Stamped loss _ ((Disk.setFile _ w.wal.file _).files w.commitFile) rec slot
    rw [Disk.setFileOther _ (disk.apart a.file a.sidecar)]
    exact stamped.higher (Nat.le_refl _) (stamped.high.trans disk.high)

theorem Attached.stamping (a : Attached loss pk t k w s.disk) (disk : Standing loss pk ledger t k s.disk) (way : w.Stamping k.high s s') :
    Standing loss pk ledger t k s'.disk ∧ s'.published = s.published := by
  obtain ⟨rec,slot,stamped,handle⟩ := a.mark
  rw [Writer.Stamping,handle] at way
  exact ⟨disk.stamping a.sidecar stamped way,by cases way <;> rfl⟩

theorem Attached.low (a : Attached loss pk t k w s.disk) : k.low ≤ k.high := by
  obtain ⟨rec,slot,stamped,_⟩ := a.mark
  exact stamped.lowest.trans stamped.high

theorem Attached.stamp (a : Attached loss pk t k w s.disk) (disk : Standing loss pk ledger t k s.disk) :
    Standing loss pk ledger t { k with low := k.high } (w.stamped k.high s).disk ∧
      Attached loss pk t { k with low := k.high } (w.marked k.high) (w.stamped k.high s).disk := by
  obtain ⟨recs,e⟩ := a.log
  obtain ⟨rec,slot,stamped,handle⟩ := a.mark
  have world : w.stamped k.high s = CommitFile.marked w.commitFile ⟨1 - slot,rec.gen + 1⟩ (rec.next w.epoch k.high) s := by
    rw [Writer.stamped,handle]
    rfl
  obtain ⟨next,marked⟩ := disk.marked w.epoch a.sidecar stamped a.low (Nat.le_refl _)
  rw [world]
  refine ⟨next,a.file,⟨recs,?_⟩,a.sidecar,⟨_,_,marked,?_⟩⟩
  · change Exactly pk t k.floor ((CommitFile.marked w.commitFile _ _ _).disk.files w.wal.file).content recs
    rw [markedOther (disk.apart a.file a.sidecar).symm]
    exact e
  · rw [show (w.marked k.high).commit = CommitFile.advanced w.commit from rfl,handle]
    rfl

theorem Attached.cut (a : Attached loss pk t k w s.disk) (disk : Standing loss pk ledger t k s.disk) (top : t.top ≤ k.floor) :
    Standing loss pk ledger t k (w.wal.cut s).disk ∧ Standing loss pk ledger t k (w.logCut s).disk ∧
      Attached loss pk t k w.cut (w.logCut s).disk := by
  obtain ⟨rec,slot,stamped,handle⟩ := a.mark
  obtain ⟨cut,flat⟩ := disk.cut a.file top
  refine ⟨cut,flat,a.file,⟨[],?_⟩,a.sidecar,⟨rec,slot,?_,handle⟩⟩
  · have empty : ((w.logCut s).disk.files w.cut.wal.file).content = [] := by
      change ((Disk.setFile _ w.wal.file (File.flushed ((Disk.setFile _ w.wal.file _).files w.wal.file))).files w.wal.file).content = _
      rw [Disk.setFileSame,Disk.setFileSame,contentFlushed,contentPush]
      simp [Write.apply,resize]
    rw [empty]
    exact exactlyEmpty pk top
  · change Stamped loss k ((Disk.setFile (Disk.setFile _ w.wal.file _) w.wal.file _).files w.commitFile) rec slot
    have apart := disk.apart a.file a.sidecar
    rw [Disk.setFileOther _ apart,Disk.setFileOther _ apart]
    exact stamped

theorem Attached.unlink (a : Attached loss pk t k w s.disk) {name : String} (log : name ≠ walName) (sidecar : name ≠ commitName) :
    Attached loss pk t k w (s.unlinked name).disk := by
  have kept : ∀ {other : String}, name ≠ other → (s.unlinked name).disk.dir other = s.disk.dir other := by
    intro other apart
    change (s.disk.change (.unlink name)).dir other = _
    rw [Disk.changeDir,Entry.sets,if_neg apart.symm]
    rfl
  exact ⟨(kept log).trans a.file,a.log,(kept sidecar).trans a.sidecar,a.mark⟩

theorem Attached.replacing (a : Attached loss pk t k w s.disk) {name : String} {cells : List (Stored W)} {d : StoreDisk W}
    (way : Disk.Replacing (tmpName name) name cells s.disk d) (files : w.wal.file.1 = walName ∧ w.commitFile.1 = commitName)
    (log : name ≠ walName) (sidecar : name ≠ commitName) : Attached loss pk t k w d := by
  have dir : ∀ {other : String}, other ≠ tmpName name → name ≠ other → d.dir other = s.disk.dir other := fun tmp apart =>
    (Disk.replacingDir way tmp).resolve_right (fun h => apart h.1.symm)
  have file : ∀ {f : FileId}, f.1 = walName ∨ f.1 = commitName → d.files f = s.disk.files f := fun which =>
    Disk.replacingFiles way (fun same => fileApart which name (by rw [same]; rfl))
  obtain ⟨recs,e⟩ := a.log
  obtain ⟨rec,slot,stamped,handle⟩ := a.mark
  refine ⟨(dir (tmpNameApart (by decide)).symm log).trans a.file,⟨recs,?_⟩,
    (dir (tmpNameApart (by decide)).symm sidecar).trans a.sidecar,⟨rec,slot,?_,handle⟩⟩
  · rw [file (.inl files.1)]
    exact e
  · rw [file (.inr files.2)]
    exact stamped

theorem Attached.ceiled (a : Attached loss pk t k w s.disk) (ceil : Nat) : Attached loss pk t { k with ceil := ceil } w s.disk := by
  obtain ⟨rec,slot,stamped,handle⟩ := a.mark
  exact ⟨a.file,a.log,a.sidecar,⟨rec,slot,stamped.higher (Nat.le_refl _) stamped.high,handle⟩⟩

/- Nothing is looked for below the end of the timeline any more. -/
theorem Attached.raised (a : Attached loss pk t k w s.disk) (floor : k.floor ≤ t.top) (high : k.high ≤ t.top) :
    Attached loss pk t ⟨t.top,t.top,k.low,t.top⟩ w s.disk := by
  obtain ⟨recs,e⟩ := a.log
  obtain ⟨rec,slot,stamped,handle⟩ := a.mark
  refine ⟨a.file,⟨recs,e.bytes,e.fits,e.increasing,e.below,?_⟩,a.sidecar,
    ⟨rec,slot,stamped.higher (Nat.le_refl _) (stamped.high.trans high),handle⟩⟩
  rw [← windowNarrow floor (Nat.le_refl t.top),e.right,windowNarrow floor (Nat.le_refl _)]

theorem Attached.same (a : Attached loss pk t k w s.disk) {u : Writer W} (wal : u.wal.file = w.wal.file)
    (sidecar : u.commitFile = w.commitFile) (commit : u.commit = w.commit) : Attached loss pk t k u s.disk :=
  ⟨wal ▸ a.file,wal.symm ▸ a.log,sidecar ▸ a.sidecar,by rw [sidecar,commit]; exact a.mark⟩

section batch
variable {ops : List (Op W)}

theorem Attached.logging (a : Attached loss pk t k w s.disk) (disk : Standing loss pk ledger t k s.disk)
    (fits : Encodable pk.codec ⟨t.top + 1,ops⟩) (way : WalWriter.Logging w.wal (frame pk.codec ⟨t.top + 1,ops⟩) s s') :
    Standing loss pk ledger t k s'.disk ∧ s'.published = s.published := by
  obtain ⟨recs,e⟩ := a.log
  have wrote : ∀ {part : List (Stored W)}, Part (asCells (frame pk.codec ⟨t.top + 1,ops⟩)) part →
      Standing loss pk ledger t k (w.wal.wrote s part).disk := fun tears =>
    disk.relog a.file ⟨rfl,rfl,rfl⟩ (Nat.le_refl _) disk.high
      (fun cells left => e.leftPut fits disk.high (fun cells old => disk.logged a.file old) tears left)
  cases way with
  | before => exact ⟨disk,rfl⟩
  | wrote tears => exact ⟨wrote tears,rfl⟩
  | synced =>
    refine ⟨(wrote (partWhole _)).relog a.file ⟨rfl,rfl,rfl⟩ (Nat.le_refl _) disk.high (fun cells left => ?_),rfl⟩
    rw [leftFlushed left,WalWriter.wrote,World.on,Disk.write,Disk.setFileSame,contentPush,putEnd]
    exact e.torn fits disk.high (List.append_nil _).symm

/- The whole frame, on the timeline with the batch. -/
theorem Attached.append (a : Attached loss pk t k w s.disk) (disk : Standing loss pk ledger t k s.disk)
    (fits : Encodable pk.codec ⟨t.top + 1,ops⟩) (even : loss → k.ceil ≤ t.start) :
    Standing loss pk ledger (t.grown ops) k (w.wal.wrote s (asCells (frame pk.codec ⟨t.top + 1,ops⟩))).disk ∧
      Attached loss pk (t.grown ops) k w (w.wal.wrote s (asCells (frame pk.codec ⟨t.top + 1,ops⟩))).disk := by
  obtain ⟨recs,e⟩ := a.log
  obtain ⟨rec,slot,stamped,handle⟩ := a.mark
  refine ⟨(a.logging disk fits (.wrote (partWhole _))).1.grown ops even,a.file,⟨recs ++ [⟨t.top + 1,ops⟩],?_⟩,a.sidecar,
    ⟨rec,slot,?_,handle⟩⟩
  · change Exactly pk (t.grown ops) k.floor ((Disk.setFile _ w.wal.file _).files w.wal.file).content _
    rw [Disk.setFileSame,contentPush]
    exact e.put fits
  · change Stamped loss k ((Disk.setFile _ w.wal.file _).files w.commitFile) rec slot
    rw [Disk.setFileOther _ (disk.apart a.file a.sidecar)]
    exact stamped

end batch

theorem Live.view (live : Live loss pk t k w s) : w.state.view pk = t.view pk t.batches.length := by
  rw [GraphState.view,Timeline.view]
  change deltaAccessor (w.base.asAccessor pk) w.delta = _
  rw [live.base,live.delta]

theorem Live.proper (live : Live loss pk t k w s) (sound : t.Sound pk) : Proper pk w.state := by
  refine ⟨?_,t.ops t.batches.length,?_⟩
  · change Presents pk w.base
    rw [live.base]
    exact sound.base
  · change Reached (w.base.asAccessor pk) _ w.delta
    rw [live.base,live.delta]
    exact sound.reached _

theorem Tracks.on {hi : Nat} (h : Tracks loss pk D ledger t k hi s) {l : Marks} (disk : Standing loss pk ledger t l s'.disk)
    (same : s'.published = s.published) (low : max k.low k.floor ≤ max l.low l.floor) (bound : max l.low l.floor ≤ t.top) :
    Tracks loss pk D ledger t l hi s' := ⟨disk,h.sound,same ▸ h.told.narrow low bound⟩

/-! A flush. -/
theorem sealCarries (c : Carries loss pk D ledger t k w s) (sound : w.wal.poisoned = false) :
    Act.ends (Step faults) (fun s' => ∃ t k hi, Tracks loss pk D ledger t k hi s') Writer.sealLog
      (fun _ w' s' => ∃ t k, Carries loss pk D ledger t k w' s') w s := by
  have live := c.live sound
  obtain ⟨synced,flushed⟩ := live.toAttached.sync c.tracks.disk
  obtain ⟨stamped,marked⟩ := flushed.stamp synced
  have inside : k.floor ≤ t.top := c.own.floor.trans (c.own.ceil.trans c.tracks.disk.ceil)
  have low : k.low ≤ t.top := live.low.trans c.tracks.disk.high
  have first : Tracks loss pk D ledger t { k with high := t.top } w.seq (w.wal.synced s) :=
    c.tracks.on synced rfl (Nat.le_refl _) c.tracks.told.bound
  have own : Fits loss pk ledger t { k with high := t.top } (w.buildManifest true) :=
    c.own.wider (Nat.le_refl _) (Nat.le_refl _) (Nat.le_refl _)
  refine Writer.endsSeal sound (fun s' member => ?_) (fun s' way => ?_) ?_
  · rcases List.mem_pair.mp member with rfl | rfl
    · exact ⟨⟨t,k,_,c.tracks⟩,fun _ _ => ⟨t,k,.failed c.tracks c.own c.durable c.level rfl⟩⟩
    · exact ⟨⟨t,_,_,first⟩,fun _ _ => ⟨t,_,.failed first own c.durable c.level rfl⟩⟩
  · rw [← live.top] at way
    obtain ⟨disk,same⟩ := flushed.stamping synced way
    have tracks := first.on disk same (Nat.le_refl _) c.tracks.told.bound
    exact ⟨⟨t,_,_,tracks⟩,fun _ _ => ⟨t,_,.failed tracks own c.durable c.level rfl⟩⟩
  · have top : max t.top k.floor ≤ t.top := Nat.max_le.mpr ⟨Nat.le_refl _,inside⟩
    rw [Writer.sealedWorld,Writer.sealed,← live.top]
    refine ⟨t,_,first.on stamped rfl (max_le_max_right _ low) top,?_,Nat.le_max_left _ _,c.level,fun _ => c.even sound,
      fun _ => ⟨marked,live.base,live.delta,live.top,live.state⟩⟩
    exact (own.wider (l := ⟨k.floor,k.ceil,t.top,t.top⟩) (Nat.le_refl _) (Nat.le_refl _) low).alike rfl rfl rfl (Nat.le_max_left _ _)

/-! A compaction. -/
section compaction
variable [Arith W] [TotalCmp W]

/- `w` is the writer before, and the MANIFEST is in place. -/
theorem settleCarries (tame : Tame loss faults) {low : Nat} {sg : SerializableGraphV2 W} {m : Manifest} (made : m = w.foldManifest pk sg)
    (tracks : Tracks loss pk D ledger t ⟨t.top,t.top,low,t.top⟩ w.seq s)
    (live : Live loss pk t ⟨t.top,t.top,low,t.top⟩ (w.pointed m) s)
    (own : Fits loss pk ledger t ⟨t.top,t.top,low,t.top⟩ ((w.pointed m).buildManifest true)) (sound : w.wal.poisoned = false)
    (durable : w.durableSeq ≤ w.seq) (archived : Archived s.disk m.snapshotFile sg) (fits : archive (w.fold pk) = some sg)
    (room : w.delta.addedEdges.length ≤ 2^32) (log : w.wal.file.1 = walName) (sidecar : w.commitFile.1 = commitName)
    (old : w.snapshotFile ≠ manifestName ∧ w.snapshotFile ≠ walName ∧ w.snapshotFile ≠ commitName) :
    Act.ends (Step faults) (fun s' => ∃ t k hi, Tracks loss pk D ledger t k hi s') (Writer.settle pk w m)
      (fun _ w' s' => ∃ t k, Carries loss pk D ledger t k w' s') (w.pointed m) s := by
  have top : max w.durableSeq w.seq = t.top := (Nat.max_eq_right durable).trans live.top.symm
  have same : t.top = w.seq := live.top
  have reach : low ≤ t.top := live.low
  obtain ⟨stamped,marked⟩ := live.toAttached.stamp tracks.disk
  obtain ⟨short,flat,emptied⟩ := marked.cut stamped (Nat.le_refl _)
  have bound : max t.top t.top ≤ t.top := (Nat.max_self _).le
  have onTheWay : ∀ s' ∈ [(w.pointed m).stamped t.top s,(w.pointed m).wal.cut ((w.pointed m).stamped t.top s),
      (w.pointed m).logCut ((w.pointed m).stamped t.top s)], Tracks loss pk D ledger t ⟨t.top,t.top,t.top,t.top⟩ w.seq s' := by
    intro s' member
    simp only [List.mem_cons,List.not_mem_nil,or_false] at member
    rcases member with rfl | rfl | rfl
    · exact tracks.on stamped rfl (max_le_max_right _ reach) bound
    · exact tracks.on short rfl (max_le_max_right _ reach) bound
    · exact tracks.on flat rfl (max_le_max_right _ reach) bound
  have own' : Fits loss pk ledger t ⟨t.top,t.top,t.top,t.top⟩ (((w.pointed m).marked t.top).buildManifest true) :=
    (own.wider (l := ⟨t.top,t.top,t.top,t.top⟩) (Nat.le_refl _) (Nat.le_refl _) reach).alike rfl rfl rfl (Nat.le_max_left _ _)
  have there : Archived ((w.pointed m).logCut ((w.pointed m).stamped t.top s)).disk m.snapshotFile sg :=
    archived.edited (logCutEdited (w.pointed m) _ s log sidecar)
  obtain ⟨some_base,only⟩ := reloadRefolds fits (made ▸ there) rfl
  rw [← made] at some_base only
  have ended : Tracks loss pk D ledger t ⟨t.top,t.top,t.top,t.top⟩ t.top ((w.pointed m).logCut ((w.pointed m).stamped t.top s)) :=
    Eq.subst (motive := fun n => Tracks loss pk D ledger t ⟨t.top,t.top,t.top,t.top⟩ n _) same.symm (onTheWay _ (by simp))
  refine Writer.endsSettle sound (fun s' way => ?_) (fun s' member => ?_) (fun unread _ => ?_) (fun base found s' left => ?_)
  · rw [top] at way
    obtain ⟨disk,shown⟩ := live.toAttached.stamping tracks.disk way
    have onward : Tracks loss pk D ledger t ⟨t.top,t.top,low,t.top⟩ w.seq s' := tracks.on disk shown (Nat.le_refl _) tracks.told.bound
    exact ⟨⟨t,_,_,onward⟩,fun _ _ => ⟨t,_,.failed onward own ((durable.trans same.ge).trans (Nat.le_max_right _ _))
      (fun _ => Nat.le_refl _) rfl⟩⟩
  · rw [top] at member ⊢
    exact ⟨⟨t,_,_,onTheWay s' member⟩,fun _ _ _ _ => ⟨t,_,.failed (onTheWay s' member) own' (Nat.le_max_left _ _)
      (fun _ => Nat.le_refl _) rfl⟩⟩
  · rw [top] at unread ⊢
    have lossless : ¬loss := by
      intro lossy
      rcases unread with may | never
      · obtain ⟨f,reads,_⟩ := tame lossy _ may
        contradiction
      · obtain ⟨base,found⟩ := some_base
        exact never base found
    exact ⟨t,_,onTheWay _ (by simp),own',Nat.le_max_left _ _,fun _ => Nat.le_refl _,fun _ may => absurd may lossless,
      fun _ => ⟨emptied,live.base,live.delta,live.top,live.state⟩⟩
  · rw [top] at found left ⊢
    have refolds := only base found
    have shows : SameGraph (base.asAccessor pk) (t.view pk t.batches.length) := by
      have refolded := (live.proper tracks.sound).refoldSame room refolds w.seq w.epoch
      rw [live.view,GraphState.view,emptyOverlay] at refolded
      exact refolded
    have anew := ended.anew rfl refolds.presents shows w.epoch
    obtain ⟨recs,e⟩ := emptied.log
    have fresh : Live loss pk (t.anew base) ⟨t.top,t.top,t.top,t.top⟩ (((w.pointed m).marked t.top).cut.rebased base)
        (Writer.announced ((w.pointed m).logCut ((w.pointed m).stamped t.top s)) ⟨base,.new,t.top,w.epoch⟩) := by
      refine ⟨⟨emptied.file,⟨recs,e.anew (Nat.le_refl _)⟩,emptied.sidecar,emptied.mark⟩,rfl,rfl,same,?_⟩
      rw [Writer.announced,List.getLast?_concat,same]
      rfl
    have carried : ∀ {s'}, Tracks loss pk D ledger (t.anew base) ⟨t.top,t.top,t.top,t.top⟩ t.top s' →
        Live loss pk (t.anew base) ⟨t.top,t.top,t.top,t.top⟩ (((w.pointed m).marked t.top).cut.rebased base) s' →
        (∃ t k hi, Tracks loss pk D ledger t k hi s') ∧
          ∃ t' k, Carries loss pk D ledger t' k (((w.pointed m).marked t.top).cut.rebased base) s' := by
      intro s' tracks live
      refine ⟨⟨_,_,_,tracks⟩,t.anew base,_,?_,own'.anew rfl (Nat.le_refl _) shows,Nat.le_max_left _ _,fun _ => Nat.le_refl _,
        fun _ _ => Nat.le_refl _,fun _ => live⟩
      exact Eq.subst (motive := fun n => Tracks loss pk D ledger (t.anew base) ⟨t.top,t.top,t.top,t.top⟩ n _) same tracks
    rw [← same] at left
    rcases left with rfl | ⟨_,rfl⟩
    · exact carried anew fresh
    · exact carried (anew.still (anew.disk.unlink old.1 old.2.1 old.2.2)) ⟨fresh.toAttached.unlink old.2.1 old.2.2,fresh.base,fresh.delta,fresh.top,fresh.state⟩

theorem compactCarries (tame : Tame loss faults) (c : Carries loss pk D ledger t k w s) (sound : w.wal.poisoned = false)
    (room : w.delta.addedEdges.length ≤ 2^32) (label : SameGraph (ledger w.seq (w.compactionId + 1)) (w.state.view pk))
    (files : w.wal.file.1 = walName ∧ w.commitFile.1 = commitName) (named : ∃ seq cid, w.snapshotFile = snapshotV2Name seq cid) :
    Act.ends (Step faults) (fun s' => ∃ t k hi, Tracks loss pk D ledger t k hi s') (Writer.compactLocked pk)
      (fun _ w' s' => ∃ t k, Carries loss pk D ledger t k w' s') w s := by
  have live := c.live sound
  have same : t.top = w.seq := live.top
  have apart : ∀ seq cid, snapshotV2Name seq cid ≠ manifestName ∧ snapshotV2Name seq cid ≠ walName ∧
      snapshotV2Name seq cid ≠ commitName := fun seq cid =>
    ⟨snapshotNotManifest seq cid,snapshotNameApart (by decide),snapshotNameApart (by decide)⟩
  have inside : k.floor ≤ t.top := c.own.floor.trans (c.own.ceil.trans c.tracks.disk.ceil)
  -- a snapshot that no MANIFEST names yet
  have snapshot : ∀ sg d, Disk.Replacing (tmpName (w.foldManifest pk sg).snapshotFile) (w.foldManifest pk sg).snapshotFile
      [.graph sg] s.disk d → Carries loss pk D ledger t k w (s.on d) := by
    intro sg d way
    obtain ⟨manifest,log,sidecar⟩ := apart w.seq (w.compactionId + 1)
    refine ⟨c.tracks.still (c.tracks.disk.replacing way log sidecar (tmpNameApart (by decide)).symm (fun bad => absurd bad manifest)),
      c.own,c.durable,c.level,c.even,fun _ => ⟨live.toAttached.replacing way files log sidecar,live.base,live.delta,live.top,live.state⟩⟩
  have points : ∀ sg (l : Marks), l.floor ≤ t.top → t.top ≤ l.ceil → Fits loss pk ledger t l (w.foldManifest pk sg) := by
    intro sg l floor ceil
    refine ⟨rfl,floor.trans same.le,same.ge.trans ceil,fun _ => .inr same.symm,Nat.le_max_right _ _,label.trans ?_⟩
    change SameGraph _ (t.view pk (w.seq - t.start))
    rw [live.view,← same,show t.top - t.start = t.batches.length from Nat.add_sub_cancel_left ..]
    exact .refl _
  refine Writer.endsCompact ⟨t,k,_,c.tracks⟩ (fun _ => ?_) (fun _ _ => ⟨t,k,c⟩) (fun sg _ _ s' way => ?_) (fun sg _ fits s' way => ?_)
    (fun sg _ fits => ?_)
  · exact ⟨t,k,c.tracks,c.own,c.durable,c.level,c.even,fun _ => ⟨⟨live.file,live.log,live.sidecar,live.mark⟩,live.base,live.delta,
      live.top,live.state⟩⟩
  · obtain ⟨d,way,rfl⟩ := way
    have next := snapshot sg d way
    exact ⟨⟨t,k,_,next.tracks⟩,fun _ _ => ⟨t,k,next⟩⟩
  · obtain ⟨d,way,rfl⟩ := way
    have before := snapshot sg _ .replaced
    have wider : ∀ {m : Manifest}, Fits loss pk ledger t k m → Fits loss pk ledger t { k with ceil := t.top } m := fun fits =>
      fits.wider (Nat.le_refl _) c.tracks.disk.ceil (Nat.le_refl _)
    have disk := before.tracks.disk.map (l := { k with ceil := t.top }) c.tracks.disk.start (Nat.le_refl _) c.tracks.disk.high
      (fun _ fits => wider fits) (fun _ _ _ logs => logs.narrow (Nat.le_refl _) (.inl (Nat.le_refl _)))
      (fun _ _ _ stamped => stamped.higher (Nat.le_refl _) stamped.high)
    have next : Tracks loss pk D ledger t { k with ceil := t.top } w.seq _ := before.tracks.moved
      (disk.replacing way (by decide) (by decide) (tmpNameApart (by decide)).symm (fun _ => ⟨_,rfl,points sg _ inside (Nat.le_refl _)⟩))
      (Nat.le_refl _) c.tracks.told.bound
    refine ⟨⟨t,_,_,next⟩,fun may _ => ?_⟩
    have lossless := tame.at_ may
    have moved := (before.live sound).toAttached.replacing way files (by decide) (by decide)
    exact ⟨t,_,next,wider c.own,c.durable,fun may => absurd may lossless,fun _ may => absurd may lossless,fun _ =>
      ⟨moved.ceiled t.top,live.base,live.delta,live.top,live.state⟩⟩
  · have before := snapshot sg _ .replaced
    have reach := live.low.trans c.tracks.disk.high
    have lo : max k.low k.floor ≤ max k.low t.top := max_le_max_left _ inside
    have hi : max k.low t.top ≤ t.top := Nat.max_le.mpr ⟨reach,Nat.le_refl _⟩
    have next : Tracks loss pk D ledger t ⟨t.top,t.top,k.low,t.top⟩ w.seq
        ((s.replaced (w.foldManifest pk sg).snapshotFile [.graph sg]).replaced manifestName (manifestCells pk (w.foldManifest pk sg))) :=
      before.tracks.moved (before.tracks.disk.replaced (l := ⟨t.top,t.top,k.low,t.top⟩) (points sg _ (Nat.le_refl _) (Nat.le_refl _))
        (c.tracks.disk.start.trans inside) (Nat.le_refl _) (Nat.le_refl _) inside (Nat.le_refl _) c.tracks.disk.high
        (.inr (Nat.le_refl _))) lo hi
    have moved : Attached loss pk t k w ((s.replaced (w.foldManifest pk sg).snapshotFile [.graph sg]).replaced manifestName
        (manifestCells pk (w.foldManifest pk sg))).disk := (before.live sound).toAttached.replacing .replaced files (by decide) (by decide)
    have raised := moved.raised inside c.tracks.disk.high
    have own := (points sg ⟨t.top,t.top,k.low,t.top⟩ (Nat.le_refl _) (Nat.le_refl _)).alike
      (n := (w.pointed (w.foldManifest pk sg)).buildManifest true) rfl rfl rfl
      ((c.durable.trans ((lo.trans hi).trans same.le)).trans (Nat.le_max_right _ _))
    have archived : Archived ((s.replaced (w.foldManifest pk sg).snapshotFile [.graph sg]).replaced manifestName
        (manifestCells pk (w.foldManifest pk sg))).disk (w.foldManifest pk sg).snapshotFile sg :=
      Archived.replacing (Disk.Solid.replaced rfl) .replaced (snapshotNotManifest _ _)
    obtain ⟨seq,cid,old⟩ := named
    refine settleCarries tame rfl next ⟨⟨raised.file,raised.log,raised.sidecar,raised.mark⟩,live.base,live.delta,live.top,live.state⟩ own sound (c.durable.trans ((lo.trans hi).trans same.le)) archived fits room files.1 files.2 ?_
    rw [old]
    exact apart seq cid

end compaction

/-! A batch. -/
section batch
variable [Arith W] [TotalCmp W] {ops : List (Op W)} {expectedSeq : Option Nat} {d : GraphDelta W} {bytes : Bytes}

omit [Arith W] [TotalCmp W] in
theorem preparedFrame (prepared : w.prepare pk ops expectedSeq = .ok (d,bytes)) :
    Encodable pk.codec ⟨w.seq + 1,ops⟩ ∧ bytes = frame pk.codec ⟨w.seq + 1,ops⟩ := by
  have sound := Writer.preparedSound prepared
  simp only [Writer.prepare,sound,Bool.false_eq_true,if_false] at prepared
  split at prepared
  · contradiction
  split at prepared
  · contradiction
  split at prepared
  · contradiction
  rename_i encoded
  cases Except.ok.inj prepared
  exact encodeFrameExact.mp encoded

omit [Arith W] [TotalCmp W] in
theorem acceptedFields (w : Writer W) (bytes : Bytes) (ops : List (Op W)) (d : GraphDelta W) :
    (w.accepted bytes ops d).base = w.base ∧ (w.accepted bytes ops d).formatVersion = w.formatVersion := by
  unfold Writer.accepted Writer.acked
  split <;> exact ⟨rfl,rfl⟩

omit [Arith W] [TotalCmp W] in
theorem loggedFile (w : Writer W) (bytes : Bytes) : (w.logged bytes).wal.file = w.wal.file := by
  unfold Writer.logged
  split <;> rfl

/- The disk up to the answer, with the batch on the timeline. -/
structure Acked (loss : Prop) (pk : Packages W) (ledger : Ledger W) (t : Timeline W) (k l : Marks) (w : Writer W) (s : World W)
    (bytes : Bytes) : Prop where
  ceil : l.floor = k.floor ∧ l.ceil = k.ceil
  low : k.low ≤ l.low
  durable : (if w.wal.due then t.top else w.durableSeq) ≤ max l.low l.floor
  top : l.low ≤ t.top
  standing : Standing loss pk ledger t { l with low := k.low } (w.ackedWorld bytes s).disk
  disk : Standing loss pk ledger t l (w.ackedWorld bytes s).disk
  attached : Attached loss pk t l (w.acked bytes) (w.ackedWorld bytes s).disk

omit [Arith W] [TotalCmp W] in
theorem Attached.acked (a : Attached loss pk t k w s.disk) (disk : Standing loss pk ledger t k s.disk) (seq : t.top = w.seq)
    (fits : Encodable pk.codec ⟨t.top + 1,ops⟩) (made : bytes = frame pk.codec ⟨t.top + 1,ops⟩) (even : loss → k.ceil ≤ t.start)
    (durable : w.durableSeq ≤ max k.low k.floor) :
    (w.wal.due = true → ∀ s', w.Stamping (w.seq + 1) (w.loggedWorld bytes s) s' →
      Standing loss pk ledger (t.grown ops) { k with high := (t.grown ops).top } s'.disk ∧ s'.published = s.published) ∧
    ∃ l, Acked loss pk ledger (t.grown ops) k l w s bytes := by
  obtain ⟨grown,appended⟩ := a.append disk fits even
  rw [← made] at grown appended
  have top : (t.grown ops).top = w.seq + 1 := (Timeline.grownTop t ops).trans (congrArg Nat.succ seq)
  have low : k.low ≤ (t.grown ops).top := appended.low.trans grown.high
  unfold Writer.loggedWorld
  cases due : w.wal.due with
  | false =>
    have world : w.ackedWorld bytes s = w.wal.wrote s (asCells bytes) := by
      simp [Writer.ackedWorld,Writer.loggedWorld,due]
    have writer : w.acked bytes = w.logged bytes := by
      simp [Writer.acked,due]
    refine ⟨fun bad => absurd bad (by simp),k,⟨rfl,rfl⟩,Nat.le_refl _,?_,low,world ▸ grown,world ▸ grown,?_⟩
    · rw [due]
      exact durable
    · rw [world,writer]
      exact appended.same (loggedFile w _) rfl rfl
  | true =>
    obtain ⟨synced,flushed⟩ := appended.sync grown
    have logged := flushed.same (u := w.logged bytes) (loggedFile w _) rfl rfl
    obtain ⟨stamped,marked⟩ := logged.stamp synced
    have world : w.ackedWorld bytes s = (w.logged bytes).stamped (t.grown ops).top (w.wal.synced (w.wal.wrote s (asCells bytes))) := by
      simp [Writer.ackedWorld,Writer.loggedWorld,due,top]
    have writer : w.acked bytes = (w.logged bytes).marked (t.grown ops).top := by
      simp [Writer.acked,due,top]
    rw [if_pos rfl,← top]
    refine ⟨fun _ s' way => logged.stamping synced way,⟨k.floor,k.ceil,(t.grown ops).top,(t.grown ops).top⟩,⟨rfl,rfl⟩,low,?_,Nat.le_refl _,?_,
      ?_,?_⟩
    · rw [due]
      exact Nat.le_max_left _ _
    · rw [world]
      exact (logged.stamping synced .marked).1
    · rw [world]
      exact stamped
    · rw [world,writer]
      exact marked

omit [Arith W] [TotalCmp W] in
/- Up to the answer the batch is one that was not answered. -/
theorem Carries.inFlight (c : Carries loss pk D ledger t k w s) (asked : D.asked ops)
    (prepared : w.prepare pk ops expectedSeq = .ok (d,bytes)) :
    (t.grown ops).Sound pk ∧ Told loss pk D (t.grown ops) (max k.low k.floor) w.seq s.published ∧
      (t.grown ops).delta pk (t.grown ops).batches.length = d := by
  have live := c.live (Writer.preparedSound prepared)
  obtain ⟨_,accepted⟩ := preparedBatch prepared
  have onward : (t.delta pk t.batches.length).apply (t.base.asAccessor pk) ops = .ok d := by
    rw [← live.base,← live.delta]
    exact accepted
  exact ⟨c.tracks.sound.grown onward,c.tracks.told.inFlight live.top asked live.state live.base live.delta accepted,Timeline.grownDelta t onward⟩

omit [Arith W] [TotalCmp W] in
theorem Carries.logging (c : Carries loss pk D ledger t k w s) (prepared : w.prepare pk ops expectedSeq = .ok (d,bytes)) {s' : World W}
    (way : WalWriter.Logging w.wal bytes s s') : Tracks loss pk D ledger t k w.seq s' := by
  have live := c.live (Writer.preparedSound prepared)
  obtain ⟨fits,rfl⟩ := preparedFrame prepared
  rw [← live.top] at fits way
  obtain ⟨disk,shown⟩ := live.logging c.tracks.disk fits way
  exact c.tracks.on disk shown (Nat.le_refl _) c.tracks.told.bound

omit [Arith W] [TotalCmp W] in
theorem Carries.marking (c : Carries loss pk D ledger t k w s) (asked : D.asked ops)
    (prepared : w.prepare pk ops expectedSeq = .ok (d,bytes)) (due : w.wal.due = true) {s' : World W} (way : w.Stamping (w.seq + 1) (w.loggedWorld bytes s) s') :
    Tracks loss pk D ledger (t.grown ops) { k with high := (t.grown ops).top } w.seq s' := by
  have sound := Writer.preparedSound prepared
  have live := c.live sound
  obtain ⟨fits,made⟩ := preparedFrame prepared
  rw [← live.top] at fits made
  obtain ⟨grown,told,_⟩ := c.inFlight asked prepared
  obtain ⟨disk,shown⟩ := (live.acked c.tracks.disk live.top fits made (c.even sound) c.durable).1 due s' way
  exact ⟨disk,grown,shown ▸ told⟩

omit [Arith W] [TotalCmp W] in
theorem Carries.accepted (c : Carries loss pk D ledger t k w s) (asked : D.asked ops)
    (prepared : w.prepare pk ops expectedSeq = .ok (d,bytes)) :
    (∃ t k hi, Tracks loss pk D ledger t k hi (w.ackedWorld bytes s)) ∧
      ∃ t k, Carries loss pk D ledger t k (w.accepted bytes ops d)
        (Writer.announced (w.ackedWorld bytes s) ⟨w.base,d,w.seq + 1,w.epoch⟩) := by
  have sound := Writer.preparedSound prepared
  have live := c.live sound
  have even := c.even sound
  obtain ⟨fits,made⟩ := preparedFrame prepared
  rw [← live.top] at fits made
  obtain ⟨grown,told,delta⟩ := c.inFlight asked prepared
  obtain ⟨base,version⟩ := acceptedFields w bytes ops d
  have placed := acceptedPlaced w bytes ops d
  have top : (t.grown ops).top = w.seq + 1 := (Timeline.grownTop t ops).trans (congrArg Nat.succ live.top)
  obtain ⟨_,l,acked⟩ := live.acked c.tracks.disk live.top fits made even c.durable
  obtain ⟨floor,ceil⟩ := acked.ceil
  have shown := ackedShown w bytes s
  have inside : k.floor ≤ t.top := c.own.floor.trans (c.own.ceil.trans c.tracks.disk.ceil)
  have lo : max k.low k.floor ≤ max l.low l.floor := max_le_max acked.low floor.ge
  have hi : max l.low l.floor ≤ w.seq + 1 := by
    refine Nat.max_le.mpr ⟨acked.top.trans top.le,?_⟩
    have same := live.top
    omega
  have own := ((c.own.grown ops even c.tracks.disk.start c.tracks.disk.ceil).wider (l := l) floor.le ceil.ge acked.low)
  have reported : (w.accepted bytes ops d).durableSeq ≤ max l.low l.floor := by
    rw [Writer.acceptedDurable,← top]
    exact acked.durable
  refine ⟨⟨_,_,w.seq,acked.standing,grown,?_⟩,t.grown ops,l,⟨acked.disk,grown,?_⟩,?_,reported,fun may => ?_,
    fun _ may => ?_,fun _ => ⟨acked.attached.same rfl rfl rfl,base.trans live.base,delta.symm,top,?_⟩⟩
  · rw [shown,floor]
    exact told
  · rw [Writer.announced,shown]
    refine c.tracks.told.announced live.top asked rfl ?_ lo hi
    rw [GraphState.view,Timeline.view,delta]
    change SameGraph (deltaAccessor (w.base.asAccessor pk) d) _
    rw [live.base]
    exact .refl _
  · exact own.alike version placed.seq placed.cid (reported.trans (max_le_max_left _ own.floor))
  · rw [floor,ceil]
    exact c.level may
  · rw [ceil]
    exact even may
  · rw [Writer.announced,List.getLast?_concat,acceptedState]

end batch
end requests
end OrpheusGraph
