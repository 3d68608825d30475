import OrpheusGraph.Vfs

/-! The three durable files: atomic replacement and the MANIFEST, the appending log writer,
the COMMIT sidecar. -/
namespace OrpheusGraph
open Storage Effects
variable {W σ α : Type}

/- What the store takes from other packages. -/
structure Packages (W : Type) where
  codec : Codec W
  adjacency : Order
  keys : Order
  debug : String → String
  json : Manifest → Bytes
  parse : Bytes → Option Manifest
  dir : String

structure Packages.Lawful (pk : Packages W) : Prop where
  codec : pk.codec.Lawful
  parses : ∀ m, pk.parse (pk.json m) = some m

def Packages.path (pk : Packages W) (name : String) : String := pk.dir ++ "/" ++ name

def manifestName : String := "MANIFEST.json"
def walName : String := "wal.log"
def commitName : String := "COMMIT"

/-! Atomic replacement. -/
def writeFileAtomic (name : String) (cells : List (Stored W)) : Io W σ Unit := do
  let file ← io (.create (tmpName name))
  io (.writeAt file 0 cells)
  io (.syncAll file)
  io (.rename (tmpName name) name)
  io .fsyncDir

def readManifest (pk : Packages W) : Io W σ Manifest := do
  let cells ← io (.read manifestName)
  match checkManifest pk.codec.crc32 (pk.parse (asBytes cells)) with
  | .ok m => return m
  | .error e => refuse e

def manifestCells (pk : Packages W) (m : Manifest) : List (Stored W) :=
  asCells (pk.json (m.stamped pk.codec.crc32))

def writeManifestAtomic (pk : Packages W) (m : Manifest) : Io W σ Unit :=
  writeFileAtomic manifestName (manifestCells pk m)

/-! The log. -/
inductive FsyncPolicy where
  | onFlush
  | everyBatch
  | everyN (n : Nat)
  deriving DecidableEq, Repr

structure WalWriter where
  file : FileId
  policy : FsyncPolicy
  sinceFsync : Nat
  poisoned : Bool
  len : Nat
  deriving DecidableEq, Repr

namespace WalWriter

def new (file : FileId) (policy : FsyncPolicy) (len : Nat) : WalWriter := ⟨file,policy,0,false,len⟩

def poison (k : IoKind) : Io W WalWriter α := do
  Act.modify (fun w => { w with poisoned := true })
  refuse (.io k)

def fsyncNow : Io W WalWriter Unit := do
  let w ← Act.get
  match ← tryIo (.syncAll w.file) with
  | .error k => poison k
  | .ok _ => Act.modify (fun w => { w with sinceFsync := 0 })

def append (frame : Bytes) : Io W WalWriter Bool := do
  let w ← Act.get
  match ← tryIo (.append w.file (asCells frame)) with
  | .error k => poison k
  | .ok _ =>
    Act.modify (fun w => { w with len := w.len + frame.length })
    match w.policy with
    | .everyBatch => do
      fsyncNow
      return true
    | .everyN n => do
      Act.modify (fun w => { w with sinceFsync := w.sinceFsync + 1 })
      if w.sinceFsync + 1 ≥ max n 1 then
        fsyncNow
        return true
      else return false
    | .onFlush => return false

def flush : Io W WalWriter Unit := do
  let w ← Act.get
  if w.poisoned then refuse .poisoned else fsyncNow

def truncate : Io W WalWriter Unit := do
  let w ← Act.get
  if w.poisoned then refuse .poisoned
  else match ← tryIo (.setLen w.file 0) with
    | .error k => poison k
    | .ok _ => match ← tryIo (.seek w.file 0) with
      | .error k => poison k
      | .ok _ =>
        Act.modify (fun w => { w with len := 0, sinceFsync := 0 })
        match ← tryIo (.syncAll w.file) with
        | .error k => poison k
        | .ok _ => return

end WalWriter

/- `none` is a panic of the scan. -/
def readAndScan (pk : Packages W) (file : FileId) : Io W σ (ScanResult W) := do
  io (.seek file 0)
  let cells ← io (.readToEnd file)
  match scanWalBytes pk.codec (asBytes cells) with
  | none => Act.fail .panicked
  | some (.error e) => refuse e
  | some (.ok s) => return s

/-! The sidecar. Its offsets count slots. -/
namespace Stored

def slotLayout : SlotLayout (Stored W) where
  encode := .slot
  decode
    | .slot rec => some rec
    | _ => none

end Stored

namespace CommitFile

def create (epoch committedSeq : Nat) : Io W σ (FileId × CommitFile) := do
  let file ← io (.create commitName)
  io (.seek file 0)
  io (.writeAt file 0 [.slot ⟨epoch,committedSeq,0⟩])
  io (.syncAll file)
  io .fsyncDir
  return (file,created)

def missing (path : String) : PersistError := .corrupt
  s!"COMMIT sidecar missing at {path} (current-format store must have one; refusing to treat as seq 0 and silently discard committed data)"

def open_ (pk : Packages W) : Io W σ (FileId × CommitRecord × CommitFile) := do
  match ← tryIo (.openRw commitName) with
  | .error .notFound => refuse (missing (pk.path commitName))
  | .error k => refuse (.io k)
  | .ok file => do
    io (.seek file 0)
    let cells ← io (.readToEnd file)
    match opened (pk.path commitName) (Stored.slotLayout.slotAt cells 0) (Stored.slotLayout.slotAt cells 1) with
    | .error e => refuse e
    | .ok (rec,handle) => return (file,rec,handle)

def advance (file : FileId) (epoch committedSeq : Nat) : Io W CommitFile Unit := do
  let h ← Act.get
  io (.seek file h.nextSlot)
  io (.writeAt file h.nextSlot [.slot (h.stamp epoch committedSeq)])
  io (.syncAll file)
  Act.modify advanced

end CommitFile
end OrpheusGraph
