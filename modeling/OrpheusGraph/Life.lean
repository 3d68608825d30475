import OrpheusGraph.Stages

/-! The life of a store: handles opened one after another, the requests served by the
live one, and the ways in which a handle ends. -/
namespace OrpheusGraph
open Storage Effects
variable {W : Type} [Arith W] [TotalCmp W]

inductive Boot (W : Type) where
  | create (baseGraph : OrpheusGraphInner W)
  | open_ (create : Bool) (mode : BaseMode) (validate : Validation)

def Boot.run (pk : Packages W) : Boot W → Io W Unit (PersistentGraph W)
  | .create g => createStore pk g
  | .open_ c mode validate => openStore pk c mode validate

inductive Request (W : Type) where
  | apply (ops : List (Op W)) (expectedSeq : Option Nat)
  | compact
  | flush
  | setFsyncPolicy (policy : FsyncPolicy)
  | setAutoCompactThreshold (threshold : Option Nat)

/- The answer to a batch is its sequence number. -/
def Request.run (pk : Packages W) : Request W → Io W (Writer W) (Option Nat)
  | .apply ops expectedSeq => do
    let seq ← Writer.apply pk ops expectedSeq
    return some seq
  | .compact => do
    Writer.compact pk
    return none
  | .flush => do
    Writer.flush
    return none
  | .setFsyncPolicy policy => do
    Act.modify (Writer.setFsyncPolicy policy)
    return none
  | .setAutoCompactThreshold threshold => do
    Act.modify (Writer.setAutoCompactThreshold threshold)
    return none

/- Requests wait for the writer lock, so one handle serves them one after another. -/
inductive Serves (pk : Packages W) (faults : Faults W) (allowed : Request W → Prop) (w : Writer W) (s : World W) :
    Writer W → World W → Prop where
  | start : Serves pk faults allowed w s w s
  | step {q : Request W} {u u' : Writer W} {t t' : World W} {r : Except Stop (Option Nat)}
      (before : Serves pk faults allowed w s u t) (ok : allowed q)
      (run : Exec (Step faults) (q.run pk u) t (r,u') t') : Serves pk faults allowed w s u' t'

structure Store (W : Type) where
  world : World W
  handle : Option (Writer W)

def World.empty : World W := ⟨.empty,[],[]⟩

inductive Event (W : Type) where
  | booted (b : Boot W) (r : Except Stop (PersistentGraph W))
  | answered (q : Request W) (r : Except Stop (Option Nat))
  | closed (r : Except Stop Unit)
  | dropped
  | died
  | lostPower

/- The states in which a store can be interrupted. -/
inductive Interrupted (pk : Packages W) (faults : Faults W) : Store W → World W → Prop where
  | idle (s : World W) (handle : Option (Writer W)) : Interrupted pk faults ⟨s,handle⟩ s
  | boot {b : Boot W} {s s' : World W} (cut : Cut (Step faults) (b.run pk ()) s s') :
      Interrupted pk faults ⟨s,none⟩ s'
  | request {q : Request W} {w : Writer W} {s s' : World W} (cut : Cut (Step faults) (q.run pk w) s s') :
      Interrupted pk faults ⟨s,some w⟩ s'
  | close {w : Writer W} {s s' : World W} (cut : Cut (Step faults) (w.close pk) s s') :
      Interrupted pk faults ⟨s,some w⟩ s'

def handleOf : Except Stop (PersistentGraph W) → Option (Writer W)
  | .ok pg => some pg.writer
  | .error _ => none

/- The lock on the directory lets no second handle in. With `deaths` a process can die and the
machine go on. -/
inductive Lives (pk : Packages W) (faults : Faults W) (deaths : Prop) : Store W → Event W → Store W → Prop where
  | boot {b : Boot W} {s s' : World W} {r : Except Stop (PersistentGraph W)}
      (run : Exec (Step faults) (b.run pk ()) s (r,()) s') :
      Lives pk faults deaths ⟨s,none⟩ (.booted b r) ⟨s',handleOf r⟩
  | request {q : Request W} {w w' : Writer W} {s s' : World W} {r : Except Stop (Option Nat)}
      (run : Exec (Step faults) (q.run pk w) s (r,w') s') :
      Lives pk faults deaths ⟨s,some w⟩ (.answered q r) ⟨s',some w'⟩
  | close {w w' : Writer W} {s s' : World W} {r : Except Stop Unit} (run : Exec (Step faults) (Writer.close pk w) s (r,w') s') :
      Lives pk faults deaths ⟨s,some w⟩ (.closed r) ⟨s',none⟩
  | drop {w : Writer W} {s : World W} : Lives pk faults deaths ⟨s,some w⟩ .dropped ⟨s,none⟩
  | die {st : Store W} {s' : World W} (may : deaths) (cut : Interrupted pk faults st s') :
      Lives pk faults deaths st .died ⟨s',none⟩
  | losePower {st : Store W} {s' : World W} {d : Disk String (Stored W)} (cut : Interrupted pk faults st s')
      (loss : s'.disk.PowerLoss d) : Lives pk faults deaths st .lostPower ⟨s'.on d,none⟩

/- From an empty disk. -/
inductive Lived (pk : Packages W) (faults : Faults W) (deaths : Prop) : Store W → Prop where
  | empty : Lived pk faults deaths ⟨.empty,none⟩
  | step {st st' : Store W} {e : Event W} (before : Lived pk faults deaths st)
      (step : Lives pk faults deaths st e st') : Lived pk faults deaths st'

/-! Packages that meet the assumptions. -/
section plain
open Coding

def wordCoder : Coder UInt32 where
  encode n := leWidth 4 n.toNat
  decode bs := if 4 ≤ bs.length then some (UInt32.ofNat (leNat (bs.take 4)),bs.drop 4) else none
  returns n rest := by
    have size : (leWidth 4 n.toNat).length = 4 := leWidthLength 4 n.toNat
    rw [if_pos (by rw [List.length_append,size]; omega),List.take_left' size,List.drop_left' size,
      leWidthReturns (by simpa using n.toNat_lt),UInt32.ofNat_toNat]

def charsCoder : Coder String :=
  wordCoder.list.through (fun s => s.toList.map Char.val) (fun ns => String.ofList (ns.map (fun n => Char.ofNat n.toNat)))
    (by intro s; simp only [List.map_map,Function.comp_def,Char.toNat_val,Char.ofNat_toNat,List.map_id',String.ofList_toList])

def manifestCoder : Coder Manifest :=
  (Coder.unary.pair (charsCoder.pair (Coder.unary.pair (wordCoder.pair (Coder.unary.pair (Coder.unary.pair
    (Coder.unary.pair (Coder.unary.pair (charsCoder.pair wordCoder))))))))).through
    (fun m => (m.formatVersion,m.snapshotFile,m.snapshotSeq,m.snapshotCrc32,m.compactionId,m.epoch,m.highSeq,
      m.cleanShutdown.toNat,m.createdBy,m.checksum))
    (fun x => ⟨x.1,x.2.1,x.2.2.1,x.2.2.2.1,x.2.2.2.2.1,x.2.2.2.2.2.1,x.2.2.2.2.2.2.1,x.2.2.2.2.2.2.2.1 == 1,
      x.2.2.2.2.2.2.2.2.1,x.2.2.2.2.2.2.2.2.2⟩)
    (by rintro ⟨_,_,_,_,_,_,_,clean,_,_⟩; cases clean <;> rfl)

/- The checksum of an archive over fixed-width offsets. -/
def archiveBytes (sg : SerializableGraphV2 Unit) : Bytes :=
  sg.nodes.flatMap (fun n => nodeCoder.encode n.intoNodeData) ++
    sg.edges.flatMap (fun e => leWidth 4 e.fromIdx ++ leWidth 4 e.toIdx ++ edgeCoder.encode e.data) ++
    [sg.nodeOffsets,sg.inOffsets,sg.inMirror,sg.nameBuckets].flatMap (fun ns => ns.flatMap (leWidth 4))

def archiveCodec : Codec Unit := { plainCodec with graphCrc32 := fun sg => Coding.crc32 (archiveBytes sg) }

def plainPackages : Packages Unit where
  codec := archiveCodec
  adjacency := .newestFirst
  keys := .insertion
  debug := id
  json := manifestCoder.encode
  parse bs := (manifestCoder.decode bs).map Prod.fst
  dir := "store"

theorem plainPackagesLawful : plainPackages.Lawful where
  codec := ⟨plainLawful.decodes,plainLawful.sameLength⟩
  parses m := by
    have whole := manifestCoder.returns m []
    rw [List.append_nil] at whole
    simp [plainPackages,whole]

end plain

/- The environment in which nothing fails. -/
def World.answers {W : Type} : (e : Call W) → World W → Answer e × World W
  | .io .createDirAll, s => (.ok (),s)
  | .io .lock, s => (.ok (),s)
  | .io (.create name), s => (.ok (name,s.disk.next),s.on (s.disk.create name))
  | .io (.openRw name), s => ((s.disk.dir name).elim (.error .notFound) .ok,s)
  | .io (.openAppend name), s => ((s.disk.dir name).elim (.error .notFound) .ok,s)
  | .io (.read name), s => ((s.disk.read name).elim (.error .notFound) .ok,s)
  | .io .readDir, s => (.ok [],s)
  | .io (.rename src dst), s => match s.disk.dir src with
    | none => (.error .notFound,s)
    | some i => (.ok (),s.on (s.disk.change (.move src dst i)))
  | .io (.removeFile name), s => match s.disk.dir name with
    | none => (.error .notFound,s)
    | some _ => (.ok (),s.on (s.disk.change (.unlink name)))
  | .io .fsyncDir, s => (.ok (),s.on s.disk.syncDir)
  | .io (.readToEnd file), s => (.ok (s.disk.files file).content,s)
  | .io (.append file cells), s => (.ok (),s.on (s.disk.write file (.put (s.disk.files file).content.length cells)))
  | .io (.seek _ _), s => (.ok (),s)
  | .io (.writeAt file off cells), s => (.ok (),s.on (s.disk.write file (.put off cells)))
  | .io (.syncAll file), s => (.ok (),s.on (s.disk.sync file))
  | .io (.setLen file n), s => (.ok (),s.on (s.disk.write file (.setLen n)))
  | .io (.len file), s => (.ok (s.disk.files file).content.length,s)
  | .io .mintEpoch, s => (.ok (s.minted.foldl max 0 + 1),{ s with minted := (s.minted.foldl max 0 + 1) :: s.minted })
  | .exists_ name, s => ((s.disk.dir name).isSome,s)
  | .publish g, s => ((),{ s with published := s.published ++ [g] })

theorem maxBelow (ns : List Nat) : ∀ top, top ≤ ns.foldl max top ∧ ∀ n ∈ ns, n ≤ ns.foldl max top := by
  induction ns with
  | nil => exact fun top => ⟨Nat.le_refl _,fun _ member => nomatch member⟩
  | cons m ns ih =>
    intro top
    obtain ⟨kept,inside⟩ := ih (max top m)
    refine ⟨(Nat.le_max_left _ _).trans kept,fun n member => ?_⟩
    rcases List.mem_cons.mp member with rfl | later
    · exact (Nat.le_max_right _ _).trans kept
    · exact inside n later

theorem answersAllowed {W : Type} (faults : Faults W) (e : Call W) (s : World W) :
    Step faults e s (World.answers e s).1 (World.answers e s).2 := by
  cases e with
  | io c =>
    refine .inl ?_
    cases c with
    | rename src dst =>
      simp only [World.answers,IoCall.works]
      cases s.disk.dir src <;> exact ⟨rfl,rfl⟩
    | removeFile name =>
      simp only [World.answers,IoCall.works]
      cases s.disk.dir name <;> exact ⟨rfl,rfl⟩
    | readDir => exact ⟨[],(fun _ member => absurd member List.not_mem_nil),rfl,rfl⟩
    | mintEpoch =>
      refine ⟨_,fun _ member => ?_,rfl,rfl⟩
      exact absurd ((maxBelow s.minted 0).2 _ member) (by omega)
    | _ => exact ⟨rfl,rfl⟩
  | exists_ name => exact ⟨rfl,rfl⟩
  | publish g => rfl

def noFaults {W : Type} : Faults W := ⟨fun _ => False,True⟩

/- A run in that environment. -/
theorem answersRun {W σ α : Type} (faults : Faults W) (p : Io W σ α) (st : σ) (s : World W) :
    Exec (Step faults) (p st) s ((p st).run World.answers s).1 ((p st).run World.answers s).2 :=
  execRun (answersAllowed faults) _ _

def creating : (Except Stop (PersistentGraph Unit) × Unit) × World Unit :=
  ((Boot.create emptyBase).run plainPackages ()).run World.answers World.empty

def served (q : Request Unit) (w : Writer Unit) (s : World Unit) : (Except Stop (Option Nat) × Writer Unit) × World Unit :=
  (q.run plainPackages w).run World.answers s

end OrpheusGraph
