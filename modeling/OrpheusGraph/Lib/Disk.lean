import Mathlib.Data.List.Induction
import Mathlib.Logic.Function.Basic

/-! A disk that can lose power. A file is its synced content and the writes since; a
directory is its synced entries and the changes since. A power loss keeps some prefix of
each file's writes, the last one possibly torn, and any selection of the directory
changes, in order. A file is known by the name it was created under and a number. -/
namespace Storage

/- What files are made of. `harms c c'` says that a half written `c` can read as `c'`. -/
class Cell (β : Type) extends Inhabited β where
  harms : β → β → Prop

inductive Write (β : Type) where
  | put (off : Nat) (cells : List β)
  | setLen (n : Nat)

structure File (β : Type) where
  synced : List β
  writes : List (Write β)

section files
variable {β : Type} [Cell β]

/- Cut, or fill up with the default cell. -/
def resize (n : Nat) (xs : List β) : List β := xs.take n ++ List.replicate (n - xs.length) default

def Write.apply (xs : List β) : Write β → List β
  | .put off cells =>
    (resize (max xs.length off) xs).take off ++ cells ++ xs.drop (off + cells.length)
  | .setLen n => resize n xs

@[simp] theorem resizeLength (n : Nat) (xs : List β) : (resize n xs).length = n := by
  simp [resize]
  omega

theorem resizeRead {n : Nat} {xs : List β} {i : Nat} (inside : i < n) :
    (resize n xs)[i]? = some (xs[i]?.getD default) := by
  rcases Nat.lt_or_ge i xs.length with old | fresh
  · rw [resize,List.getElem?_append_left (by simp; omega),List.getElem?_take,if_pos inside,
      List.getElem?_eq_getElem old,Option.getD_some]
  · rw [resize,List.getElem?_append_right (by simp; omega),List.getElem?_replicate,
      if_pos (by simp; omega),List.getElem?_eq_none fresh,Option.getD_none]

theorem putRead (xs : List β) (off : Nat) (cells : List β) (i : Nat) :
    ((Write.put off cells).apply xs)[i]? =
      if i < off then some (xs[i]?.getD default)
      else if i < off + cells.length then cells[i - off]? else xs[i]? := by
  have front : ((resize (max xs.length off) xs).take off).length = off := by
    rw [List.length_take,resizeLength]
    omega
  rw [Write.apply,List.append_assoc]
  split
  · rename_i before
    rw [List.getElem?_append_left (by omega),List.getElem?_take,if_pos before,resizeRead (by omega)]
  rw [List.getElem?_append_right (by omega),front]
  split
  · rw [List.getElem?_append_left (by omega)]
  · rw [List.getElem?_append_right (by omega),List.getElem?_drop]
    congr 1
    omega

def File.content (f : File β) : List β := f.writes.foldl Write.apply f.synced

def File.push (f : File β) (w : Write β) : File β := ⟨f.synced,f.writes ++ [w]⟩

def File.flushed (f : File β) : File β := ⟨f.content,[]⟩

/- The part of a write that a tear leaves behind. -/
inductive Part (cells : List β) : List β → Prop where
  | whole (k : Nat) : Part cells (cells.take k)
  | harmed {k : Nat} {c c' : β} (read : cells[k]? = some c) (harm : Cell.harms c c') :
      Part cells (cells.take k ++ [c'])

inductive Survives (f : File β) : List β → Prop where
  | between {kept lost : List (Write β)} (split : f.writes = kept ++ lost) :
      Survives f (kept.foldl Write.apply f.synced)
  | torn {kept lost : List (Write β)} {off : Nat} {cells part : List β}
      (split : f.writes = kept ++ .put off cells :: lost) (tears : Part cells part) :
      Survives f ((Write.put off part).apply (kept.foldl Write.apply f.synced))

theorem survivesContent (f : File β) : Survives f f.content := .between (List.append_nil _).symm

theorem survivesFlushed {f : File β} {xs : List β} (s : Survives f.flushed xs) : xs = f.content := by
  cases s with
  | between split =>
    obtain ⟨rfl,_⟩ := List.append_eq_nil_iff.mp split.symm
    rfl
  | torn split part =>
    have length := congrArg List.length split
    simp [File.flushed] at length

@[simp] theorem contentFlushed (f : File β) : f.flushed.content = f.content := rfl

@[simp] theorem contentPush (f : File β) (w : Write β) : (f.push w).content = w.apply f.content := by
  simp [File.content,File.push,List.foldl_append]

/- The first write is not kept, kept in part, or kept. -/
theorem survivesCons {xs ys : List β} {w : Write β} {ws : List (Write β)} (s : Survives ⟨xs,w::ws⟩ ys) :
    ys = xs ∨ (∃ off cells part, w = .put off cells ∧ Part cells part ∧ ys = (Write.put off part).apply xs) ∨
      Survives ⟨w.apply xs,ws⟩ ys := by
  cases s with
  | @between kept lost split =>
    cases kept with
    | nil => exact .inl rfl
    | cons first kept =>
      obtain ⟨rfl,rfl⟩ := List.cons.inj split
      exact .inr (.inr (.between rfl))
  | @torn kept lost off cells part split torn =>
    cases kept with
    | nil =>
      obtain ⟨rfl,rfl⟩ := List.cons.inj split
      exact .inr (.inl ⟨off,cells,part,rfl,torn,rfl⟩)
    | cons first kept =>
      obtain ⟨rfl,rfl⟩ := List.cons.inj split
      exact .inr (.inr (.torn rfl torn))

end files

/-! The directory. A rename binds the new name to the file itself. -/
variable {N β : Type} [DecidableEq N]

inductive Entry (N : Type) where
  | link (n : N) (i : N × Nat)
  | move (src dst : N) (i : N × Nat)
  | unlink (n : N)

/- What a change makes of a name, if it concerns it. -/
def Entry.sets (n : N) : Entry N → Option (Option (N × Nat))
  | .link m i => if n = m then some (some i) else none
  | .move src dst i => if n = dst then some (some i) else if n = src then some none else none
  | .unlink m => if n = m then some none else none

def Entry.apply (names : N → Option (N × Nat)) (x : Entry N) : N → Option (N × Nat) :=
  fun n => (x.sets n).getD (names n)

structure Disk (N β : Type) where
  files : N × Nat → File β
  next : Nat
  names : N → Option (N × Nat)
  changes : List (Entry N)

namespace Disk

def dir (d : Disk N β) : N → Option (N × Nat) := d.changes.foldl Entry.apply d.names

/- A power loss can leave `n` bound to `o`. -/
def MayBind (d : Disk N β) (n : N) (o : Option (N × Nat)) : Prop :=
  o = d.names n ∨ ∃ x ∈ d.changes, x.sets n = some o

theorem foldBinds (names : N → Option (N × Nat)) (changes : List (Entry N)) (n : N) :
    changes.foldl Entry.apply names n = names n ∨
      ∃ x ∈ changes, x.sets n = some (changes.foldl Entry.apply names n) := by
  induction changes using List.reverseRecOn with
  | nil => exact .inl rfl
  | append_singleton xs x ih =>
    rw [List.foldl_append,List.foldl_cons,List.foldl_nil,Entry.apply]
    cases touched : x.sets n with
    | some o => exact .inr ⟨x,by simp,touched⟩
    | none =>
      simp only [Option.getD_none]
      rcases ih with same | ⟨y,member,sets⟩
      · exact .inl same
      · exact .inr ⟨y,List.mem_append_left _ member,sets⟩

theorem mayBindDir (d : Disk N β) (n : N) : d.MayBind n (d.dir n) := foldBinds _ _ n

variable [Cell β]

structure PowerLoss (d d' : Disk N β) : Prop where
  next : d'.next = d.next
  settled : d'.changes = []
  names : ∃ kept : List (Entry N), kept.Sublist d.changes ∧ d'.names = kept.foldl Entry.apply d.names
  writes : ∀ i, (d'.files i).writes = []
  files : ∀ i, Survives (d.files i) (d'.files i).synced

theorem PowerLoss.binds {d d' : Disk N β} (loss : PowerLoss d d') {n : N} {o : Option (N × Nat)}
    (binds : d'.MayBind n o) : d.MayBind n o := by
  obtain ⟨kept,sub,names⟩ := loss.names
  have same : o = kept.foldl Entry.apply d.names n := by
    rcases binds with same | ⟨x,member,_⟩
    · rw [same,names]
    · rw [loss.settled] at member
      contradiction
  rcases foldBinds d.names kept n with first | ⟨x,member,sets⟩
  · exact .inl (same.trans first)
  · exact .inr ⟨x,sub.mem member,by rw [same]; exact sets⟩

theorem PowerLoss.survives {d d' : Disk N β} (loss : PowerLoss d d') {i : N × Nat} {xs : List β}
    (survives : Survives (d'.files i) xs) : Survives (d.files i) xs := by
  have flat : d'.files i = (d'.files i).flushed := by
    rw [File.flushed,File.content,loss.writes i,List.foldl_nil,← loss.writes i]
  rw [flat] at survives
  rw [survivesFlushed survives,File.content,loss.writes i]
  exact loss.files i

/-! The operations. -/
def setFile (d : Disk N β) (i : N × Nat) (f : File β) : Disk N β := { d with files := Function.update d.files i f }

def change (d : Disk N β) (x : Entry N) : Disk N β := { d with changes := d.changes ++ [x] }

/- A created file is a new one, also when the name was taken. -/
def create (d : Disk N β) (n : N) : Disk N β :=
  { d with
    files := Function.update d.files (n,d.next) ⟨[],[]⟩
    next := d.next + 1
    changes := d.changes ++ [.link n (n,d.next)] }

def write (d : Disk N β) (i : N × Nat) (w : Write β) : Disk N β := d.setFile i ((d.files i).push w)

def sync (d : Disk N β) (i : N × Nat) : Disk N β := d.setFile i (d.files i).flushed

def syncDir (d : Disk N β) : Disk N β := { d with names := d.dir, changes := [] }

def read (d : Disk N β) (n : N) : Option (List β) := (d.dir n).map (fun i => (d.files i).content)

def empty : Disk N β := ⟨fun _ => ⟨[],[]⟩,0,fun _ => none,[]⟩

section names
omit [Cell β]
variable {d : Disk N β} {n : N} {o : Option (N × Nat)}

theorem changeBinds {x : Entry N} : (d.change x).MayBind n o ↔ d.MayBind n o ∨ x.sets n = some o := by
  simp only [change,MayBind,List.mem_append,List.mem_singleton,or_and_right,exists_or,exists_eq_left,or_assoc]

theorem createBinds {m : N} : (d.create m).MayBind n o ↔ d.MayBind n o ∨ n = m ∧ o = some (m,d.next) := by
  have same : (d.create m).MayBind n o ↔ (d.change (.link m (m,d.next))).MayBind n o := Iff.rfl
  rw [same,changeBinds,Entry.sets]
  split <;> rename_i h <;> simp [h,eq_comm]

theorem syncDirBinds : d.syncDir.MayBind n o ↔ o = d.dir n := by simp [syncDir,MayBind]

theorem setFileBinds {i : N × Nat} {f : File β} : (d.setFile i f).MayBind n o ↔ d.MayBind n o := Iff.rfl

theorem changeDir (x : Entry N) (n : N) : (d.change x).dir n = (x.sets n).getD (d.dir n) := by
  rw [dir,change,List.foldl_append]
  rfl

theorem createDir (m n : N) : (d.create m).dir n = if n = m then some (m,d.next) else d.dir n := by
  have same : (d.create m).dir n = (d.change (.link m (m,d.next))).dir n := rfl
  rw [same,changeDir,Entry.sets]
  split <;> rfl

theorem syncDirDir : d.syncDir.dir n = d.dir n := rfl

theorem setFileOther {i j : N × Nat} (f : File β) (other : j ≠ i) : (d.setFile i f).files j = d.files j := by
  simp only [setFile,Function.update_apply,if_neg other]

theorem setFileSame (i : N × Nat) (f : File β) : (d.setFile i f).files i = f := by
  simp only [setFile,Function.update_self]

end names

/-! Replacing a file as a whole: a new one is written under another name, synced and renamed. -/
section replacing
variable {d d' : Disk N β} {src dst : N} {cells : List β}

def spare (d : Disk N β) (src : N) : N × Nat := (src,d.next)

def drafted (d : Disk N β) (src : N) (cells : List β) : Disk N β :=
  (d.create src).write (d.spare src) (.put 0 cells)

def moved (d : Disk N β) (src dst : N) (cells : List β) : Disk N β :=
  ((d.drafted src cells).sync (d.spare src)).change (.move src dst (d.spare src))

def replaced (d : Disk N β) (src dst : N) (cells : List β) : Disk N β := (d.moved src dst cells).syncDir

/- The states on the way. -/
inductive Replacing (src dst : N) (cells : List β) (d : Disk N β) : Disk N β → Prop where
  | before : Replacing src dst cells d d
  | created : Replacing src dst cells d (d.create src)
  | drafted {part : List β} (tears : Part cells part) : Replacing src dst cells d (d.drafted src part)
  | synced : Replacing src dst cells d ((d.drafted src cells).sync (d.spare src))
  | moved : Replacing src dst cells d (d.moved src dst cells)
  | replaced : Replacing src dst cells d (d.replaced src dst cells)

omit [Cell β] in
theorem draftedFile (d : Disk N β) (src : N) (cells : List β) :
    (d.drafted src cells).files (d.spare src) = ⟨[],[.put 0 cells]⟩ := by
  have fresh : (d.create src).files (d.spare src) = ⟨[],[]⟩ := by
    simp only [create,spare,Function.update_self]
  rw [drafted,write,setFileSame,fresh]
  rfl

theorem syncedFile (d : Disk N β) (src : N) (cells : List β) :
    ((d.drafted src cells).sync (d.spare src)).files (d.spare src) = ⟨cells,[]⟩ := by
  rw [sync,setFileSame,draftedFile]
  simp [File.flushed,File.content,Write.apply,resize]

theorem movedFile (d : Disk N β) (src dst : N) (cells : List β) :
    (d.moved src dst cells).files (d.spare src) = ⟨cells,[]⟩ := syncedFile d src cells

theorem replacedFile (d : Disk N β) (src dst : N) (cells : List β) :
    (d.replaced src dst cells).files (d.spare src) = ⟨cells,[]⟩ := syncedFile d src cells

theorem replacingFiles (r : Replacing src dst cells d d') {i : N × Nat} (other : i ≠ d.spare src) :
    d'.files i = d.files i := by
  have made : (d.create src).files i = d.files i := by
    simp only [create,Function.update_apply]
    exact if_neg other
  have wrote : ∀ part, (d.drafted src part).files i = d.files i := fun part =>
    (setFileOther _ other).trans made
  have flushed : ((d.drafted src cells).sync (d.spare src)).files i = d.files i :=
    (setFileOther _ other).trans (wrote cells)
  cases r with
  | before => rfl
  | created => exact made
  | drafted tears => exact wrote _
  | synced => exact flushed
  | moved => exact flushed
  | replaced => exact flushed

theorem movedDir (n : N) : (d.moved src dst cells).dir n =
    if n = dst then some (d.spare src) else if n = src then none else d.dir n := by
  rw [moved,changeDir,Entry.sets]
  split
  · rfl
  split
  · rfl
  · rename_i other
    change (d.create src).dir n = _
    rw [createDir,if_neg other]

/- Only the two names can be bound to anything new, the old one to nothing else but the new file. -/
theorem replacingBinds (r : Replacing src dst cells d d') {n : N} {o : Option (N × Nat)} (other : n ≠ src)
    (binds : d'.MayBind n o) : d.MayBind n o ∨
      n = dst ∧ o = some (d.spare src) ∧ d'.files (d.spare src) = ⟨cells,[]⟩ := by
  have made : ∀ {o}, (d.create src).MayBind n o → d.MayBind n o := fun binds =>
    (createBinds.mp binds).resolve_right (fun h => other h.1)
  have moves : ∀ {o}, (d.moved src dst cells).MayBind n o → d.MayBind n o ∨ n = dst ∧ o = some (d.spare src) := by
    intro o binds
    rcases changeBinds.mp binds with old | sets
    · exact .inl (made old)
    · rw [Entry.sets] at sets
      split at sets
      · exact .inr ⟨by assumption,(Option.some.inj sets).symm⟩
      · simp at sets
  cases r with
  | before => exact .inl binds
  | created => exact .inl (made binds)
  | drafted tears => exact .inl (made binds)
  | synced => exact .inl (made binds)
  | moved => exact (moves binds).imp id (fun h => ⟨h.1,h.2,movedFile d src dst cells⟩)
  | replaced =>
    have bound := syncDirBinds.mp binds
    exact (moves (bound ▸ mayBindDir _ n)).imp id (fun h => ⟨h.1,h.2,replacedFile d src dst cells⟩)

theorem replacingDir (r : Replacing src dst cells d d') {n : N} (other : n ≠ src) :
    d'.dir n = d.dir n ∨ n = dst ∧ d'.dir n = some (d.spare src) ∧ d'.files (d.spare src) = ⟨cells,[]⟩ := by
  have made : (d.create src).dir n = d.dir n := by rw [createDir,if_neg other]
  have moves : (d.moved src dst cells).dir n = d.dir n ∨ n = dst ∧
      (d.moved src dst cells).dir n = some (d.spare src) := by
    rw [movedDir,if_neg other]
    split
    · exact .inr ⟨by assumption,rfl⟩
    · exact .inl rfl
  cases r with
  | before => exact .inl rfl
  | created => exact .inl made
  | drafted tears => exact .inl made
  | synced => exact .inl made
  | moved => exact moves.imp id (fun h => ⟨h.1,h.2,movedFile d src dst cells⟩)
  | replaced => exact moves.imp id (fun h => ⟨h.1,h.2,replacedFile d src dst cells⟩)

theorem replacedBinds {n : N} {o : Option (N × Nat)} :
    (d.replaced src dst cells).MayBind n o ↔
      o = if n = dst then some (d.spare src) else if n = src then none else d.dir n := by
  rw [replaced,syncDirBinds,movedDir]

theorem replacedDir (n : N) : (d.replaced src dst cells).dir n =
    if n = dst then some (d.spare src) else if n = src then none else d.dir n := by
  rw [replaced,syncDirDir,movedDir]

end replacing

end Disk
end Storage
