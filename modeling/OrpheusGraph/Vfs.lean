import OrpheusGraph.Manifest
import OrpheusGraph.Lib.Effects

/-! The filesystem as the store calls it. The log and the MANIFEST are bytes; a slot of the
COMMIT sidecar and an archived graph are one cell each, which a tear makes unreadable. -/
namespace OrpheusGraph
open Storage Effects
variable {W σ α : Type}

inductive BaseGraph (W : Type) where
  | owned (g : OrpheusGraphInner W)
  | archived (sg : SerializableGraphV2 W)

/- What readers observe. -/
structure GraphState (W : Type) where
  base : BaseGraph W
  delta : GraphDelta W
  seq : Nat
  epoch : Nat

inductive Stored (W : Type) where
  | byte (b : UInt8)
  | slot (rec : CommitRecord)
  | graph (sg : SerializableGraphV2 W)
  | torn

instance : Cell (Stored W) where
  default := .byte 0
  harms
    | .byte _, _ => False
    | _, c => c = .torn

def asCells (bytes : Bytes) : List (Stored W) := bytes.map .byte

def Stored.toByte : Stored W → UInt8
  | .byte b => b
  | _ => 0

def asBytes (cells : List (Stored W)) : Bytes := cells.map Stored.toByte

@[simp] theorem bytesOfCells (bytes : Bytes) : asBytes (asCells bytes : List (Stored W)) = bytes := by
  rw [asBytes,asCells,List.map_map]
  exact List.map_id _

abbrev FileId := String × Nat

inductive IoCall (W : Type) where
  | createDirAll
  | lock
  | create (name : String)
  | openRw (name : String)
  | openAppend (name : String)
  | read (name : String)
  | readDir
  | rename (src dst : String)
  | removeFile (name : String)
  | fsyncDir
  | readToEnd (file : FileId)
  | append (file : FileId) (cells : List (Stored W))
  | seek (file : FileId) (off : Nat)
  | writeAt (file : FileId) (off : Nat) (cells : List (Stored W))
  | syncAll (file : FileId)
  | setLen (file : FileId) (n : Nat)
  | len (file : FileId)
  | mintEpoch

def IoCall.Value : IoCall W → Type
  | .create _ | .openRw _ | .openAppend _ => FileId
  | .read _ | .readToEnd _ => List (Stored W)
  | .readDir => List String
  | .len _ | .mintEpoch => Nat
  | _ => Unit

/- `exists` has no error; `publish` stores what readers load from then on. -/
inductive Call (W : Type) where
  | io (c : IoCall W)
  | exists_ (name : String)
  | publish (g : GraphState W)

def Answer : Call W → Type
  | .io c => Except IoKind c.Value
  | .exists_ _ => Bool
  | .publish _ => Unit

/- `published` is every state that was ever published, the latest one last. -/
structure World (W : Type) where
  disk : Disk String (Stored W)
  published : List (GraphState W)
  minted : List Nat

def World.on (s : World W) (disk : Disk String (Stored W)) : World W := { s with disk := disk }

/- Which calls may fail, and whether a minted epoch is always a new one. -/
structure Faults (W : Type) where
  fails : IoCall W → Prop
  fresh : Prop

def IoCall.works (faults : Faults W) : (c : IoCall W) → World W → Except IoKind c.Value → World W → Prop
  | .createDirAll, s, r, s' => r = .ok () ∧ s' = s
  | .lock, s, r, s' => r = .ok () ∧ s' = s
  | .create name, s, r, s' => r = .ok (name,s.disk.next) ∧ s' = s.on (s.disk.create name)
  | .openRw name, s, r, s' => r = (s.disk.dir name).elim (.error .notFound) .ok ∧ s' = s
  | .openAppend name, s, r, s' => r = (s.disk.dir name).elim (.error .notFound) .ok ∧ s' = s
  | .read name, s, r, s' => r = (s.disk.read name).elim (.error .notFound) .ok ∧ s' = s
  | .readDir, s, r, s' => ∃ names : List String, (∀ n ∈ names, (s.disk.dir n).isSome = true) ∧
      r = .ok names ∧ s' = s
  | .rename src dst, s, r, s' => match s.disk.dir src with
    | none => r = .error .notFound ∧ s' = s
    | some i => r = .ok () ∧ s' = s.on (s.disk.change (.move src dst i))
  | .removeFile name, s, r, s' => match s.disk.dir name with
    | none => r = .error .notFound ∧ s' = s
    | some _ => r = .ok () ∧ s' = s.on (s.disk.change (.unlink name))
  | .fsyncDir, s, r, s' => r = .ok () ∧ s' = s.on s.disk.syncDir
  | .readToEnd file, s, r, s' => r = .ok (s.disk.files file).content ∧ s' = s
  | .append file cells, s, r, s' =>
    r = .ok () ∧ s' = s.on (s.disk.write file (.put (s.disk.files file).content.length cells))
  | .seek _ _, s, r, s' => r = .ok () ∧ s' = s
  | .writeAt file off cells, s, r, s' => r = .ok () ∧ s' = s.on (s.disk.write file (.put off cells))
  | .syncAll file, s, r, s' => r = .ok () ∧ s' = s.on (s.disk.sync file)
  | .setLen file n, s, r, s' => r = .ok () ∧ s' = s.on (s.disk.write file (.setLen n))
  | .len file, s, r, s' => r = .ok (s.disk.files file).content.length ∧ s' = s
  | .mintEpoch, s, r, s' => ∃ epoch : Nat, (faults.fresh → epoch ∉ s.minted) ∧
      r = .ok epoch ∧ s' = { s with minted := epoch :: s.minted }

/- A call that fails has had its effect or none; of a write, any part may be there. -/
def IoCall.broken (faults : Faults W) (c : IoCall W) (s s' : World W) : Prop :=
  s' = s ∨ (∃ v, c.works faults s (.ok v) s') ∨
    match c with
    | .append file cells => ∃ part, Part cells part ∧
        s' = s.on (s.disk.write file (.put (s.disk.files file).content.length part))
    | .writeAt file off cells => ∃ part, Part cells part ∧ s' = s.on (s.disk.write file (.put off part))
    | _ => False

def Step (faults : Faults W) : (e : Call W) → World W → Answer e → World W → Prop
  | .io c, s, r, s' => c.works faults s r s' ∨ faults.fails c ∧ (∃ k, r = .error k) ∧ c.broken faults s s'
  | .exists_ name, s, r, s' => r = (s.disk.dir name).isSome ∧ s' = s
  | .publish g, s, _, s' => s' = { s with published := s.published ++ [g] }

/- A panic unwinds like an error, but no caller in the store catches it. -/
inductive Stop where
  | err (e : PersistError)
  | panicked
  deriving DecidableEq, Repr

abbrev Io (W σ α : Type) := Act (Call W) Answer Stop σ α

def tryIo (c : IoCall W) : Io W σ (Except IoKind c.Value) := Act.ask (Call.io c)

def io (c : IoCall W) : Io W σ c.Value := do
  match ← tryIo c with
  | .ok v => return v
  | .error k => Act.fail (.err (.io k))

def exists_ (name : String) : Io W σ Bool := Act.ask (Call.exists_ name)

def publish (g : GraphState W) : Io W σ Unit := Act.ask (Call.publish g)

def refuse (e : PersistError) : Io W σ α := Act.fail (.err e)

section rules
variable {faults : Faults W} {C : World W → Prop} {st : σ} {s : World W}

def settled {c : IoCall W} : Except IoKind c.Value → Except Stop c.Value
  | .ok v => .ok v
  | .error k => .error (.err (.io k))

theorem endsTryIo {c : IoCall W} {Q : Except Stop (Except IoKind c.Value) → σ → World W → Prop} (now : C s)
    (works : ∀ r s', c.works faults s r s' → C s' ∧ Q (.ok r) st s')
    (fails : faults.fails c → ∀ k s', c.broken faults s s' → C s' ∧ Q (.ok (.error k)) st s') :
    Act.ends (Step faults) C (tryIo c) Q st s := by
  unfold tryIo
  refine Act.endsAsk.mpr ⟨now,fun r s' step => ?_⟩
  rcases step with worked | ⟨may,⟨k,rfl⟩,broke⟩
  · exact works r s' worked
  · exact fails may k s' broke

theorem endsIo {c : IoCall W} {Q : Except Stop c.Value → σ → World W → Prop} (now : C s)
    (works : ∀ r s', c.works faults s r s' → C s' ∧ Q (settled r) st s')
    (fails : faults.fails c → ∀ k s', c.broken faults s s' → C s' ∧ Q (.error (.err (.io k))) st s') :
    Act.ends (Step faults) C (io c) Q st s := by
  refine Act.endsBind (endsTryIo now (fun r s' worked => ?_) (fun may k s' broke => ?_))
  · obtain ⟨ok,next⟩ := works r s' worked
    cases r with
    | ok v => exact ⟨ok,ok,next⟩
    | error k => exact ⟨ok,ok,next⟩
  · obtain ⟨ok,next⟩ := fails may k s' broke
    exact ⟨ok,ok,next⟩

theorem endsPublish {g : GraphState W} {Q : Except Stop Unit → σ → World W → Prop} (now : C s)
    (next : C { s with published := s.published ++ [g] } ∧
      Q (.ok ()) st { s with published := s.published ++ [g] }) :
    Act.ends (Step faults) C (publish g) Q st s := by
  unfold publish
  refine Act.endsAsk.mpr ⟨now,fun r s' step => ?_⟩
  cases show s' = { s with published := s.published ++ [g] } from step
  exact next

theorem endsExists {name : String} {Q : Except Stop Bool → σ → World W → Prop} (now : C s)
    (next : Q (.ok (s.disk.dir name).isSome) st s) :
    Act.ends (Step faults) C (exists_ name) Q st s := by
  unfold exists_
  refine Act.endsAsk.mpr ⟨now,fun r s' step => ?_⟩
  obtain ⟨rfl,rfl⟩ := show r = (s.disk.dir name).isSome ∧ s' = s from step
  exact ⟨now,next⟩

end rules
end OrpheusGraph
