import OrpheusGraph.Life

/-! The MANIFEST read back: the writer stamps a checksum of 0 as 1, and the reader does not. -/
namespace OrpheusGraph
open Storage Effects
variable {W σ : Type} {pk : Packages W} {faults : Faults W}

theorem checkStamped {crc32 : Bytes → UInt32} {m : Manifest} :
    checkManifest crc32 (some (m.stamped crc32)) =
      if manifestChecksum crc32 m = 0 then .error (manifestError crc32 (m.stamped crc32)) else .ok (m.stamped crc32) := by
  split
  · rename_i zero
    have one : (m.stamped crc32).checksum = 1 := if_pos zero
    refine if_pos ⟨?_,?_⟩
    · rw [one]
      decide
    · rw [one,stampedChecksum,zero]
      decide
  · exact stampedPasses (by assumption)

/- What a write that returns leaves under the name, and what a read that does not fail makes of it. -/
theorem writtenThere {m : Manifest} {st : σ} {s t : World W}
    (wrote : Exec (Step faults) (writeManifestAtomic pk m st) s (.ok (),st) t) :
    t.disk.read manifestName = some (manifestCells pk m) := by
  have left : Act.ends (Step faults) (fun _ => True) (writeManifestAtomic pk m)
      (fun r _ t => r = .ok () → t = s.replaced manifestName (manifestCells pk m)) st s :=
    endsReplace (fun _ _ => trivial) (fun _ => rfl) (fun _ _ _ _ bad => nomatch bad)
  rw [Act.endsExec left wrote rfl]
  have bound : (s.replaced manifestName (manifestCells pk m)).disk.dir manifestName =
      some (s.disk.spare (tmpName manifestName)) := by
    rw [World.replaced,World.on,Disk.replacedDir,if_pos rfl]
  have whole : ((s.replaced manifestName (manifestCells pk m)).disk.files (s.disk.spare (tmpName manifestName))) =
      ⟨manifestCells pk m,[]⟩ := Disk.replacedFile _ _ _ _
  rw [Disk.read,bound,Option.map_some,whole]
  rfl

def checked (e : Except PersistError Manifest) : Except Stop Manifest := e.mapError .err

theorem readBack {m : Manifest} (st : σ) {s : World W} (parses : ∀ m, pk.parse (pk.json m) = some m)
    (there : s.disk.read manifestName = some (manifestCells pk m)) (reads : ¬faults.fails (.read manifestName)) :
    Act.ends (Step faults) (fun _ => True) (readManifest pk)
      (fun r _ _ => r = checked (checkManifest pk.codec.crc32 (some (m.stamped pk.codec.crc32)))) st s := by
  refine Act.endsBind (endsRead trivial (fun bad _ => ?_) (fun cells found => ?_))
  · rcases bad with fails | missing
    · exact absurd fails reads
    · rw [there] at missing
      contradiction
  · cases Option.some.inj (there.symm.trans found)
    have text : pk.parse (asBytes (manifestCells pk m)) = some (m.stamped pk.codec.crc32) := by
      rw [manifestCells,bytesOfCells,parses]
    unfold Act.onward
    dsimp only
    rw [text]
    cases checkManifest pk.codec.crc32 (some (m.stamped pk.codec.crc32)) with
    | ok m => exact ⟨trivial,rfl⟩
    | error e => exact ⟨trivial,rfl⟩

/- After a write that returned, every read that does not fail returns the stamped fields exactly
when their checksum is not 0; otherwise it reports corruption. -/
theorem readsBackIff (parses : ∀ m, pk.parse (pk.json m) = some m) {m : Manifest} {s t : World W}
    (wrote : Exec (Step faults) (writeManifestAtomic pk m ()) s (.ok (),()) t) {later : Faults W}
    (reads : ¬later.fails (.read manifestName)) :
    (∀ r t', Exec (Step later) (readManifest pk ()) t (r,()) t' → r = .ok (m.stamped pk.codec.crc32)) ↔
      manifestChecksum pk.codec.crc32 m ≠ 0 := by
  have back := readBack () parses (writtenThere wrote) reads
  rw [checkStamped] at back
  constructor
  · intro all zero
    rw [if_pos zero] at back
    have run := answersRun later (readManifest pk) () t
    have good := all _ _ run
    rw [Act.endsExec back run] at good
    contradiction
  · intro nonzero r t' run
    rw [if_neg nonzero] at back
    exact Act.endsExec back run

/- The MANIFEST of a store with an archive of this checksum. -/
def founding (crc : UInt32) : Manifest :=
  ⟨currentFormat,snapshotV2Name 0 0,0,crc,0,1,0,false,createdBy,0⟩

def foundingWritten (crc : UInt32) : (Except Stop Unit × Unit) × World Unit :=
  (writeManifestAtomic plainPackages (founding crc) ()).run World.answers .empty

def foundingRead (crc : UInt32) : (Except Stop Manifest × Unit) × World Unit :=
  (readManifest plainPackages ()).run World.answers (foundingWritten crc).2

set_option maxRecDepth 100000 in
theorem foundingReadsBack : manifestChecksum plainPackages.codec.crc32 (founding 0) ≠ 0 ∧
    ∀ r t', Exec (Step noFaults) (readManifest plainPackages ()) (foundingWritten 0).2 (r,()) t' →
      r = .ok ((founding 0).stamped plainPackages.codec.crc32) := by
  have nonzero : manifestChecksum plainPackages.codec.crc32 (founding 0) ≠ 0 := by decide +kernel
  exact ⟨nonzero,(readsBackIff plainPackagesLawful.parses
    (answersRun noFaults (writeManifestAtomic plainPackages (founding 0)) () .empty) id).mpr nonzero⟩

def zeroReport : String := "MANIFEST checksum mismatch: stored 0x00000001, computed 0x00000000 (bit-rot?)"

set_option maxRecDepth 100000 in
/- With this archive the fields have the checksum 0. -/
theorem zeroChecksumUnreadable : ∃ s t : World Unit,
    Exec (Step noFaults) (writeManifestAtomic plainPackages (founding 4244236266) ()) .empty (.ok (),()) s ∧
    Exec (Step noFaults) (readManifest plainPackages ()) s (.error (.err (.corrupt zeroReport)),()) t := by
  have read : (foundingRead 4244236266).1 = (.error (.err (.corrupt zeroReport)),()) := by decide +kernel
  refine ⟨(foundingWritten 4244236266).2,(foundingRead 4244236266).2,answersRun noFaults _ () .empty,?_⟩
  rw [← read]
  exact answersRun noFaults _ () _

end OrpheusGraph
