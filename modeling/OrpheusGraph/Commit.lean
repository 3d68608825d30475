import OrpheusGraph.Wal
import OrpheusGraph.Lib.Disk

/-! The COMMIT sidecar: two slots written in turn, each under a checksum. The invariant is
about any cells that hold a slot; the bytes of the file are one case. -/
namespace OrpheusGraph

structure CommitRecord where
  epoch : Nat
  committedSeq : Nat
  gen : Nat
  deriving DecidableEq, Repr

/-! The bytes of a slot. -/
def leWidth : Nat → Nat → Bytes
  | 0, _ => []
  | k+1, n => UInt8.ofNat n :: leWidth k (n / 2^8)

theorem leWidthLength (k n : Nat) : (leWidth k n).length = k := by
  induction k generalizing n with
  | zero => rfl
  | succ k ih => rw [leWidth,List.length_cons,ih]

theorem leWidthReturns {k n : Nat} (small : n < 2^(8*k)) : leNat (leWidth k n) = n := by
  induction k generalizing n with
  | zero =>
    have zero : n = 0 := by simpa using small
    rw [zero]
    rfl
  | succ k ih =>
    have high : n / 2^8 < 2^(8*k) := by
      rw [Nat.div_lt_iff_lt_mul (by decide),← Nat.pow_add]
      exact small
    rw [leWidth,leNat,ih high,UInt8.toNat_ofNat']
    omega

def magic : Bytes := [0x4F,0x47,0x43,0x4D]
def commitVersion : Nat := 1
def slotSize : Nat := 44

def slotContent (rec : CommitRecord) : Bytes :=
  magic ++ leWidth 4 commitVersion ++ leWidth 8 rec.gen ++ leWidth 16 rec.epoch ++
    leWidth 8 rec.committedSeq

def encodeSlot (crc32 : Bytes → UInt32) (rec : CommitRecord) : Bytes :=
  slotContent rec ++ leWidth 4 (crc32 (slotContent rec)).toNat

def decodeSlot (crc32 : Bytes → UInt32) (bytes : Bytes) : Option CommitRecord :=
  if bytes.length < slotSize then none
  else if bytes.take 4 ≠ magic then none
  else if leNat ((bytes.drop 4).take 4) ≠ commitVersion then none
  else if (crc32 (bytes.take 40)).toNat ≠ leNat ((bytes.drop 40).take 4) then none
  else some {
    gen := leNat ((bytes.drop 8).take 8)
    epoch := leNat ((bytes.drop 16).take 16)
    committedSeq := leNat ((bytes.drop 32).take 8) }

/- The widths of the fields. -/
def CommitRecord.Fits (rec : CommitRecord) : Prop :=
  rec.gen < 2^64 ∧ rec.epoch < 2^128 ∧ rec.committedSeq < 2^64

instance (rec : CommitRecord) : Decidable rec.Fits := inferInstanceAs (Decidable (_ ∧ _ ∧ _))

theorem shortSlot (crc32 : Bytes → UInt32) {bytes : Bytes} (short : bytes.length < slotSize) :
    decodeSlot crc32 bytes = none := if_pos short

theorem slotReturns (crc32 : Bytes → UInt32) {rec : CommitRecord} (fits : rec.Fits) :
    decodeSlot crc32 (encodeSlot crc32 rec) = some rec := by
  obtain ⟨gen,epoch,seq⟩ := fits
  have whole : (encodeSlot crc32 rec).length = slotSize := rfl
  have start : (encodeSlot crc32 rec).take 4 = magic := rfl
  have version : ((encodeSlot crc32 rec).drop 4).take 4 = leWidth 4 commitVersion := rfl
  have body : (encodeSlot crc32 rec).take 40 = slotContent rec := rfl
  have sum : ((encodeSlot crc32 rec).drop 40).take 4 = leWidth 4 (crc32 (slotContent rec)).toNat := rfl
  have genAt : ((encodeSlot crc32 rec).drop 8).take 8 = leWidth 8 rec.gen := rfl
  have epochAt : ((encodeSlot crc32 rec).drop 16).take 16 = leWidth 16 rec.epoch := rfl
  have seqAt : ((encodeSlot crc32 rec).drop 32).take 8 = leWidth 8 rec.committedSeq := rfl
  rw [decodeSlot,whole,start,version,body,sum,genAt,epochAt,seqAt,if_neg (Nat.lt_irrefl _),
    if_neg (not_not_intro rfl),leWidthReturns (by decide),if_neg (not_not_intro rfl),
    leWidthReturns (k := 4) (crc32 (slotContent rec)).toNat_lt,if_neg (not_not_intro rfl),
    leWidthReturns (k := 8) gen,leWidthReturns (k := 16) epoch,leWidthReturns (k := 8) seq]

/- The open sidecar, apart from its file. -/
structure CommitFile where
  nextSlot : Nat
  nextGen : Nat
  deriving DecidableEq, Repr

namespace CommitFile

def created : CommitFile := ⟨1,1⟩

/- The valid slot with the higher generation; the next write goes to the other one. -/
def chosen (slot0 slot1 : Option CommitRecord) : Option (CommitRecord × Nat) :=
  match slot0,slot1 with
  | some a,some b => if a.gen ≥ b.gen then some (a,0) else some (b,1)
  | some a,none => some (a,0)
  | none,some b => some (b,1)
  | none,none => none

def opened (path : String) (slot0 slot1 : Option CommitRecord) :
    Except PersistError (CommitRecord × CommitFile) :=
  match chosen slot0 slot1 with
  | none => .error (.corrupt s!"COMMIT sidecar at {path} has no crc-valid slot (both torn/corrupt)")
  | some (rec,slot) => .ok (rec,⟨1 - slot,rec.gen + 1⟩)

def stamp (file : CommitFile) (epoch committedSeq : Nat) : CommitRecord :=
  ⟨epoch,committedSeq,file.nextGen⟩

def advanced (file : CommitFile) : CommitFile := ⟨1 - file.nextSlot,file.nextGen + 1⟩

end CommitFile

/-! Files whose cells are slots. A half written slot does not decode: this is what a
checksum match is taken to exclude. -/
open Storage

structure SlotLayout (β : Type) [Cell β] where
  encode : CommitRecord → β
  decode : β → Option CommitRecord

structure SlotLayout.Lawful {β : Type} [Cell β] (L : SlotLayout β) (fits : CommitRecord → Prop) : Prop where
  returns : ∀ rec, fits rec → L.decode (L.encode rec) = some rec
  blank : L.decode default = none
  torn : ∀ c c', Cell.harms c c' → L.decode c' = none

section slots
variable {β : Type} [Cell β] {L : SlotLayout β} {fits : CommitRecord → Prop}

def SlotLayout.slotAt (L : SlotLayout β) (cells : List β) (i : Nat) : Option CommitRecord :=
  cells[i]?.bind L.decode

theorem slotWritten (lawful : L.Lawful fits) (cells : List β) (off i : Nat) (c : β) :
    L.slotAt ((Write.put off [c]).apply cells) i = if i = off then L.decode c else L.slotAt cells i := by
  rw [SlotLayout.slotAt,putRead]
  rcases Nat.lt_trichotomy i off with before | rfl | after
  · rw [if_pos before,if_neg (by omega),Option.bind_some,SlotLayout.slotAt]
    cases cells[i]? with
    | none => exact lawful.blank
    | some c => rfl
  · simp
  · rw [if_neg (by omega),if_neg (by simp; omega),if_neg (by omega)]
    rfl

theorem slotUntouched (lawful : L.Lawful fits) (cells : List β) (off i : Nat) :
    L.slotAt ((Write.put off []).apply cells) i = L.slotAt cells i := by
  rw [SlotLayout.slotAt,putRead]
  rcases Nat.lt_or_ge i off with before | after
  · rw [if_pos before,Option.bind_some,SlotLayout.slotAt]
    cases cells[i]? with
    | none => exact lawful.blank
    | some c => rfl
  · rw [if_neg (by omega),if_neg (by simp; omega)]
    rfl

/- `slot` holds the record that an open returns. -/
structure Holds (L : SlotLayout β) (cells : List β) (rec : CommitRecord) (slot : Nat) : Prop where
  inside : slot < 2
  held : L.slotAt cells slot = some rec
  newest : ∀ other, L.slotAt cells (1 - slot) = some other → other.gen < rec.gen

theorem Holds.opened {cells : List β} {rec : CommitRecord} {slot : Nat} (h : Holds L cells rec slot)
    (path : String) : CommitFile.opened path (L.slotAt cells 0) (L.slotAt cells 1) =
      .ok (rec,⟨1 - slot,rec.gen + 1⟩) := by
  obtain ⟨inside,held,newest⟩ := h
  have cases_slot : slot = 0 ∨ slot = 1 := by omega
  rcases cases_slot with rfl | rfl
  · rw [held]
    cases other : L.slotAt cells 1 with
    | none => rfl
    | some b => simp [CommitFile.opened,CommitFile.chosen,Nat.le_of_lt (newest b other)]
  · rw [held]
    cases other : L.slotAt cells 0 with
    | none => rfl
    | some a =>
      have older : ¬ rec.gen ≤ a.gen := Nat.not_le.mpr (newest a other)
      simp [CommitFile.opened,CommitFile.chosen,older]

theorem Holds.unique {cells : List β} {rec rec' : CommitRecord} {slot slot' : Nat}
    (h : Holds L cells rec slot) (h' : Holds L cells rec' slot') : rec = rec' ∧ slot = slot' := by
  have same := (h.opened "").symm.trans (h'.opened "")
  simp only [Except.ok.injEq,Prod.mk.injEq,CommitFile.mk.injEq] at same
  have left := h.inside
  have right := h'.inside
  exact ⟨same.1,by omega⟩

theorem Holds.replaced (lawful : L.Lawful fits) {cells : List β} {rec next : CommitRecord} {slot : Nat}
    {c : β} (h : Holds L cells rec slot) (reads : L.decode c = some next) (newer : next.gen = rec.gen + 1) :
    Holds L ((Write.put (1 - slot) [c]).apply cells) next (1 - slot) := by
  have inside := h.inside
  refine ⟨by omega,by rw [slotWritten lawful,if_pos rfl,reads],fun other found => ?_⟩
  have back : 1 - (1 - slot) = slot := by omega
  rw [back,slotWritten lawful,if_neg (by omega),h.held] at found
  cases Option.some.inj found
  omega

theorem Holds.spoiled (lawful : L.Lawful fits) {cells : List β} {rec : CommitRecord} {slot : Nat}
    {c : β} (h : Holds L cells rec slot) (unreadable : L.decode c = none) :
    Holds L ((Write.put (1 - slot) [c]).apply cells) rec slot := by
  have inside := h.inside
  refine ⟨inside,by rw [slotWritten lawful,if_neg (by omega),h.held],fun other found => ?_⟩
  rw [slotWritten lawful,if_pos rfl,unreadable] at found
  contradiction

theorem Holds.untouched (lawful : L.Lawful fits) {cells : List β} {rec : CommitRecord} {slot : Nat}
    (off : Nat) (h : Holds L cells rec slot) : Holds L ((Write.put off []).apply cells) rec slot := by
  refine ⟨h.inside,by rw [slotUntouched lawful,h.held],fun other found => ?_⟩
  rw [slotUntouched lawful] at found
  exact h.newest other found

/- What a write can leave in the slot it goes to: nothing new, an unreadable cell, or the
next record. -/
inductive SlotPart (L : SlotLayout β) (known : CommitRecord → Prop) (gen : Nat) : List β → Prop where
  | nothing : SlotPart L known gen []
  | spoiled {c : β} (unreadable : L.decode c = none) : SlotPart L known gen [c]
  | whole {c : β} {rec : CommitRecord} (reads : L.decode c = some rec) (newer : rec.gen = gen + 1)
      (ok : known rec) : SlotPart L known gen [c]

theorem SlotPart.torn (lawful : L.Lawful fits) {known : CommitRecord → Prop} {gen : Nat} {cells part : List β}
    (p : SlotPart L known gen cells) (tears : Part cells part) : SlotPart L known gen part := by
  cases tears with
  | whole k =>
    cases p with
    | nothing => simpa using SlotPart.nothing
    | spoiled unreadable =>
      cases k with
      | zero => exact .nothing
      | succ k => simpa using SlotPart.spoiled unreadable
    | whole reads newer ok =>
      cases k with
      | zero => exact .nothing
      | succ k => simpa using SlotPart.whole reads newer ok
  | @harmed k c c' read harm =>
    have first : k = 0 := by
      have bound := (List.getElem?_eq_some_iff.mp read).1
      cases p <;> simp at bound <;> exact bound
    subst first
    exact .spoiled (lawful.torn c c' harm)

theorem Holds.written (lawful : L.Lawful fits) {known : CommitRecord → Prop} {cells part : List β}
    {rec : CommitRecord} {slot : Nat} (h : Holds L cells rec slot) (ok : known rec)
    (p : SlotPart L known rec.gen part) :
    ∃ next slot', Holds L ((Write.put (1 - slot) part).apply cells) next slot' ∧ known next := by
  cases p with
  | nothing => exact ⟨rec,slot,h.untouched lawful _,ok⟩
  | spoiled unreadable => exact ⟨rec,slot,h.spoiled lawful unreadable,ok⟩
  | whole reads newer fresh => exact ⟨_,_,h.replaced lawful reads newer,fresh⟩

/- The writes since the last sync, each to the slot that does not hold the record. -/
inductive Chain (L : SlotLayout β) (known : CommitRecord → Prop) : List β → List (Write β) → Prop where
  | settled {cells : List β} {rec : CommitRecord} {slot : Nat} (holds : Holds L cells rec slot)
      (ok : known rec) : Chain L known cells []
  | pending {cells part : List β} {rec : CommitRecord} {slot : Nat} {writes : List (Write β)}
      (holds : Holds L cells rec slot) (ok : known rec) (p : SlotPart L known rec.gen part)
      (rest : Chain L known ((Write.put (1 - slot) part).apply cells) writes) :
      Chain L known cells (.put (1 - slot) part :: writes)

section chain
variable {known : CommitRecord → Prop} {cells : List β} {writes : List (Write β)}

theorem Chain.survives (lawful : L.Lawful fits) (chain : Chain L known cells writes) {xs : List β}
    (s : Survives ⟨cells,writes⟩ xs) : ∃ rec slot, Holds L xs rec slot ∧ known rec := by
  induction chain with
  | @settled cells rec slot holds ok =>
    rw [survivesFlushed (f := ⟨cells,[]⟩) s]
    exact ⟨rec,slot,holds,ok⟩
  | @pending cells part rec slot writes holds ok p rest ih =>
    rcases survivesCons s with rfl | ⟨off,whole,part',same,tears,rfl⟩ | later
    · exact ⟨rec,slot,holds,ok⟩
    · obtain ⟨rfl,rfl⟩ := Write.put.inj same
      exact holds.written lawful ok (p.torn lawful tears)
    · exact ih later

theorem Chain.content (lawful : L.Lawful fits) (chain : Chain L known cells writes) :
    ∃ rec slot, Holds L (File.content ⟨cells,writes⟩) rec slot ∧ known rec :=
  chain.survives lawful (survivesContent _)

theorem Chain.mono {known' : CommitRecord → Prop} (imp : ∀ rec, known rec → known' rec)
    (chain : Chain L known cells writes) : Chain L known' cells writes := by
  induction chain with
  | settled holds ok => exact .settled holds (imp _ ok)
  | pending holds ok p _ ih =>
    refine .pending holds (imp _ ok) ?_ ih
    cases p with
    | nothing => exact .nothing
    | spoiled unreadable => exact .spoiled unreadable
    | whole reads newer fresh => exact .whole reads newer (imp _ fresh)

theorem Chain.push (lawful : L.Lawful fits) (chain : Chain L known cells writes) {rec : CommitRecord}
    {slot : Nat} {part : List β} (holds : Holds L (File.content ⟨cells,writes⟩) rec slot)
    (p : SlotPart L known rec.gen part) : Chain L known cells (writes ++ [.put (1 - slot) part]) := by
  induction chain with
  | settled here ok =>
    obtain ⟨rfl,rfl⟩ := here.unique holds
    obtain ⟨next,slot',after,fresh⟩ := here.written lawful ok p
    exact .pending here ok p (.settled after fresh)
  | pending here ok q _ ih => exact .pending here ok q (ih holds)

end chain

/-! Runs of one sidecar after its creation. `attempts` lists the records that were to be
written, `acknowledged` is the place of the last one whose advance returned Ok. -/
structure CommitState (β : Type) where
  file : File β
  handle : Option CommitFile
  attempts : List CommitRecord
  acknowledged : Nat

def CommitState.created (L : SlotLayout β) (epoch committedSeq : Nat) : CommitState β where
  file := (File.push ⟨[],[]⟩ (.put 0 [L.encode ⟨epoch,committedSeq,0⟩])).flushed
  handle := some CommitFile.created
  attempts := [⟨epoch,committedSeq,0⟩]
  acknowledged := 0

/- Arguments are u128 and u64. A failed advance leaves its write pending, or persisted, or
pending in part, and its handle is dropped; so does one that a power loss interrupts. -/
inductive CommitStep (L : SlotLayout β) (path : String) : CommitState β → CommitState β → Prop where
  | advanceOk {s : CommitState β} {h : CommitFile} (epoch committedSeq : Nat) (live : s.handle = some h)
      (wide : epoch < 2^128 ∧ committedSeq < 2^64) : CommitStep L path s
        ⟨(s.file.push (.put h.nextSlot [L.encode (h.stamp epoch committedSeq)])).flushed,
          some h.advanced,s.attempts ++ [h.stamp epoch committedSeq],s.attempts.length⟩
  | advanceErr {s : CommitState β} {h : CommitFile} (epoch committedSeq : Nat) {part : List β}
      (live : s.handle = some h) (wide : epoch < 2^128 ∧ committedSeq < 2^64)
      (tears : Part [L.encode (h.stamp epoch committedSeq)] part) : CommitStep L path s
        ⟨s.file.push (.put h.nextSlot part),none,s.attempts ++ [h.stamp epoch committedSeq],
          s.acknowledged⟩
  | advanceErrPersisted {s : CommitState β} {h : CommitFile} (epoch committedSeq : Nat)
      (live : s.handle = some h) (wide : epoch < 2^128 ∧ committedSeq < 2^64) : CommitStep L path s
        ⟨(s.file.push (.put h.nextSlot [L.encode (h.stamp epoch committedSeq)])).flushed,none,
          s.attempts ++ [h.stamp epoch committedSeq],s.acknowledged⟩
  | dropped (s : CommitState β) : CommitStep L path s { s with handle := none }
  | powerLoss {s : CommitState β} {cells : List β} (survives : Survives s.file cells) :
      CommitStep L path s { s with file := ⟨cells,[]⟩, handle := none }
  | reopened {s : CommitState β} {rec : CommitRecord} {h : CommitFile}
      (ok : CommitFile.opened path (L.slotAt s.file.content 0) (L.slotAt s.file.content 1) = .ok (rec,h)) :
      CommitStep L path s { s with handle := some h }

inductive CommitReached (L : SlotLayout β) (path : String) : CommitState β → Prop where
  | created {epoch committedSeq : Nat} (wide : epoch < 2^128 ∧ committedSeq < 2^64) :
      CommitReached L path (.created L epoch committedSeq)
  | step {s s' : CommitState β} (before : CommitReached L path s) (step : CommitStep L path s s') :
      CommitReached L path s'

/- The records an open may return. -/
def CommitState.Known (s : CommitState β) (rec : CommitRecord) : Prop :=
  rec ∈ s.attempts.drop s.acknowledged ∧ rec.gen < s.attempts.length

structure CommitState.Sound (L : SlotLayout β) (s : CommitState β) : Prop where
  chain : Chain L s.Known s.file.synced s.file.writes
  live : ∀ h, s.handle = some h → ∃ rec slot, Holds L s.file.content rec slot ∧ s.Known rec ∧
    h = ⟨1 - slot,rec.gen + 1⟩

omit [Cell β] in
theorem CommitState.Known.later {s : CommitState β} {rec : CommitRecord} (ok : s.Known rec)
    (file : File β) (handle : Option CommitFile) (next : CommitRecord) :
    CommitState.Known ⟨file,handle,s.attempts ++ [next],s.acknowledged⟩ rec := by
  obtain ⟨member,bound⟩ := ok
  refine ⟨?_,by simp only [List.length_append]; omega⟩
  rw [List.drop_append]
  exact List.mem_append_left _ member

omit [Cell β] in
theorem CommitState.Known.bound {s : CommitState β} {rec : CommitRecord} (ok : s.Known rec) :
    s.acknowledged < s.attempts.length := by
  have some_left := List.length_pos_of_mem ok.1
  rw [List.length_drop] at some_left
  omega

/- One advance: the record it is to write, and what any part of its write leaves behind. -/
section advance
variable {s : CommitState β} {h : CommitFile} (epoch committedSeq : Nat)

theorem stampSound (sound : s.Sound L) (live : s.handle = some h) :
    ∃ rec slot, Holds L s.file.content rec slot ∧ s.Known rec ∧ h.nextSlot = 1 - slot ∧
      (h.stamp epoch committedSeq).gen = rec.gen + 1 := by
  obtain ⟨rec,slot,holds,ok,rfl⟩ := sound.live h live
  exact ⟨rec,slot,holds,ok,rfl,rfl⟩

theorem stampKnown (sound : s.Sound L) (live : s.handle = some h) {acknowledged : Nat}
    (file : File β) (handle : Option CommitFile) (order : acknowledged ≤ s.attempts.length) :
    CommitState.Known ⟨file,handle,s.attempts ++ [h.stamp epoch committedSeq],acknowledged⟩
      (h.stamp epoch committedSeq) := by
  obtain ⟨rec,slot,_,ok,_,newer⟩ := stampSound epoch committedSeq sound live
  refine ⟨?_,?_⟩
  · rw [List.drop_append,Nat.sub_eq_zero_of_le order]
    exact List.mem_append_right _ (by simp)
  · have bound := ok.2
    simp only [List.length_append,List.length_singleton]
    omega

theorem advancePart (lawful : L.Lawful fits) (sound : s.Sound L) (live : s.handle = some h)
    (fit : fits (h.stamp epoch committedSeq)) {part : List β}
    (tears : Part [L.encode (h.stamp epoch committedSeq)] part)
    {known : CommitRecord → Prop} (fresh : known (h.stamp epoch committedSeq)) :
    ∃ rec slot, Holds L s.file.content rec slot ∧ s.Known rec ∧ h.nextSlot = 1 - slot ∧
      SlotPart L known rec.gen part := by
  obtain ⟨rec,slot,holds,ok,place,newer⟩ := stampSound epoch committedSeq sound live
  exact ⟨rec,slot,holds,ok,place,
    (SlotPart.whole (lawful.returns _ fit) newer fresh).torn lawful tears⟩

theorem advanceWritten (lawful : L.Lawful fits) (sound : s.Sound L) (live : s.handle = some h)
    (fit : fits (h.stamp epoch committedSeq)) :
    ∃ slot, Holds L (s.file.push (.put h.nextSlot [L.encode (h.stamp epoch committedSeq)])).content
      (h.stamp epoch committedSeq) slot ∧ h.advanced = ⟨1 - slot,(h.stamp epoch committedSeq).gen + 1⟩ := by
  obtain ⟨rec,slot,holds,_,place,newer⟩ := stampSound epoch committedSeq sound live
  refine ⟨1 - slot,?_,?_⟩
  · rw [contentPush,place]
    exact holds.replaced lawful (lawful.returns _ fit) newer
  · rw [CommitFile.advanced,place]
    rfl

end advance

theorem createdSound (lawful : L.Lawful fits) {epoch committedSeq : Nat} (fit : fits ⟨epoch,committedSeq,0⟩) :
    (CommitState.created L epoch committedSeq).Sound L := by
  have cells : (CommitState.created L epoch committedSeq).file.content = [L.encode ⟨epoch,committedSeq,0⟩] :=
    rfl
  have holds : Holds L [L.encode ⟨epoch,committedSeq,0⟩] ⟨epoch,committedSeq,0⟩ 0 :=
    ⟨by omega,lawful.returns _ fit,fun other found => by simp [SlotLayout.slotAt] at found⟩
  have ok : (CommitState.created L epoch committedSeq).Known ⟨epoch,committedSeq,0⟩ :=
    ⟨List.mem_singleton.mpr rfl,Nat.zero_lt_one⟩
  refine ⟨.settled holds ok,fun h live => ⟨_,0,by rw [cells]; exact holds,ok,?_⟩⟩
  cases Option.some.inj live
  rfl

theorem stepSound (lawful : L.Lawful fits) {path : String} {s s' : CommitState β} (sound : s.Sound L)
    (step : CommitStep L path s s')
    (room : ∀ rec : CommitRecord, rec.gen < s'.attempts.length → rec.epoch < 2^128 →
      rec.committedSeq < 2^64 → fits rec) : s'.Sound L := by
  cases step with
  | @advanceOk h epoch committedSeq live wide =>
    have known := stampKnown epoch committedSeq sound live
      (s.file.push (.put h.nextSlot [L.encode (h.stamp epoch committedSeq)])).flushed (some h.advanced)
      (Nat.le_refl s.attempts.length)
    obtain ⟨slot,holds,next⟩ := advanceWritten epoch committedSeq lawful sound live (room _ known.2 wide.1 wide.2)
    refine ⟨.settled holds known,fun h' live' => ⟨_,slot,holds,known,?_⟩⟩
    rw [← Option.some.inj live',next]
  | @advanceErr h epoch committedSeq part live wide tears =>
    obtain ⟨_,_,_,old,_⟩ := sound.live h live
    have known := stampKnown epoch committedSeq sound live
      (s.file.push (.put h.nextSlot part)) none (Nat.le_of_lt old.bound)
    obtain ⟨rec,slot,holds,ok,place,p⟩ := advancePart epoch committedSeq lawful sound live
      (room _ known.2 wide.1 wide.2) tears known
    refine ⟨?_,fun h' live' => by contradiction⟩
    rw [File.push,place]
    exact (sound.chain.mono (fun r known => known.later _ _ _)).push lawful holds p
  | @advanceErrPersisted h epoch committedSeq live wide =>
    obtain ⟨_,_,_,ok,_⟩ := sound.live h live
    have known := stampKnown epoch committedSeq sound live
      (s.file.push (.put h.nextSlot [L.encode (h.stamp epoch committedSeq)])).flushed none
      (Nat.le_of_lt ok.bound)
    obtain ⟨slot,holds,_⟩ := advanceWritten epoch committedSeq lawful sound live (room _ known.2 wide.1 wide.2)
    exact ⟨.settled holds known,fun h' live' => by contradiction⟩
  | dropped => exact ⟨sound.chain,fun h live => by contradiction⟩
  | powerLoss survives =>
    obtain ⟨rec,slot,holds,ok⟩ := sound.chain.survives lawful survives
    exact ⟨.settled holds ok,fun h live => by contradiction⟩
  | @reopened rec h ok =>
    obtain ⟨rec',slot,holds,known⟩ := sound.chain.content lawful
    refine ⟨sound.chain,fun h' live => ⟨rec',slot,holds,known,?_⟩⟩
    rw [holds.opened path] at ok
    cases Option.some.inj live
    exact (Prod.mk.inj (Except.ok.inj ok)).2.symm

theorem attemptsGrow {path : String} {s s' : CommitState β} (step : CommitStep L path s s') :
    s.attempts.length ≤ s'.attempts.length := by
  cases step <;> simp

theorem reachedSound (lawful : L.Lawful fits) {path : String} {s : CommitState β}
    (reached : CommitReached L path s)
    (room : ∀ rec : CommitRecord, rec.gen < s.attempts.length → rec.epoch < 2^128 →
      rec.committedSeq < 2^64 → fits rec) : s.Sound L := by
  induction reached with
  | created wide => exact createdSound lawful (room _ Nat.zero_lt_one wide.1 wide.2)
  | step before step ih =>
    have bound := attemptsGrow step
    exact stepSound lawful (ih (fun rec small => room rec (Nat.lt_of_lt_of_le small bound))) step room

end slots

/-! The file itself: two slots of bytes. What a tear leaves is any bytes that do not decode,
among them every mixture of the old slot and the new one whose checksum does not match. -/
structure SlotBytes (crc32 : Bytes → UInt32) where
  bytes : Bytes

instance (crc32 : Bytes → UInt32) : Cell (SlotBytes crc32) where
  default := ⟨[]⟩
  harms _ c' := decodeSlot crc32 c'.bytes = none

def slotLayout (crc32 : Bytes → UInt32) : SlotLayout (SlotBytes crc32) where
  encode rec := ⟨encodeSlot crc32 rec⟩
  decode c := decodeSlot crc32 c.bytes

theorem slotLayoutLawful (crc32 : Bytes → UInt32) : (slotLayout crc32).Lawful CommitRecord.Fits where
  returns _ fits := slotReturns crc32 fits
  blank := rfl
  torn _ _ harm := harm

/- An open finds the last acknowledged record or a later one, and its next write spares it. -/
theorem commitNeverFallsBack {crc32 : Bytes → UInt32} {path : String}
    {s : CommitState (SlotBytes crc32)} (reached : CommitReached (slotLayout crc32) path s)
    (room : s.attempts.length < 2^64) :
    ∃ rec h slot,
      CommitFile.opened path ((slotLayout crc32).slotAt s.file.content 0)
        ((slotLayout crc32).slotAt s.file.content 1) = .ok (rec,h) ∧
      rec ∈ s.attempts.drop s.acknowledged ∧
      (slotLayout crc32).slotAt s.file.content slot = some rec ∧ h.nextSlot ≠ slot ∧
      (∀ i < 2, ∀ other, (slotLayout crc32).slotAt s.file.content i = some other → other.gen < h.nextGen) ∧
      ∀ live, s.handle = some live → live = h := by
  have sound := reachedSound (slotLayoutLawful crc32) reached
    (fun rec gen epoch seq => ⟨gen.trans room,epoch,seq⟩)
  obtain ⟨rec,slot,holds,known⟩ := sound.chain.content (slotLayoutLawful crc32)
  have inside := holds.inside
  refine ⟨rec,⟨1 - slot,rec.gen + 1⟩,slot,holds.opened path,known.1,holds.held,by simp only; omega,?_,?_⟩
  · intro i small other found
    have place : i = slot ∨ i = 1 - slot := by omega
    rcases place with rfl | rfl
    · rw [holds.held] at found
      cases Option.some.inj found
      exact Nat.lt_succ_self _
    · exact Nat.lt_succ_of_lt (holds.newest other found)
  · intro live running
    obtain ⟨rec',slot',holds',_,rfl⟩ := sound.live live running
    obtain ⟨rfl,rfl⟩ := holds.unique holds'
    rfl

/- A torn advance, a power loss and a reopen. -/
theorem commitOfTear : ∃ s : CommitState (SlotBytes Coding.crc32),
    s.attempts = [⟨7,0,0⟩,⟨7,5,1⟩] ∧ s.handle = some ⟨1,1⟩ ∧ ∃ rec h slot,
      CommitFile.opened "COMMIT" ((slotLayout Coding.crc32).slotAt s.file.content 0)
        ((slotLayout Coding.crc32).slotAt s.file.content 1) = .ok (rec,h) ∧
      rec ∈ s.attempts.drop s.acknowledged ∧
      (slotLayout Coding.crc32).slotAt s.file.content slot = some rec ∧ h.nextSlot ≠ slot := by
  let L := slotLayout Coding.crc32
  let torn : SlotBytes Coding.crc32 := ⟨(encodeSlot Coding.crc32 ⟨7,5,1⟩).take 20⟩
  have created : CommitReached L "COMMIT" (.created L 7 0) := .created (by decide)
  have unreadable : decodeSlot Coding.crc32 torn.bytes = none :=
    shortSlot _ (Nat.lt_of_le_of_lt (List.length_take_le _ _) (by decide))
  have tears : Part [L.encode ⟨7,5,1⟩] ([] ++ [torn]) := .harmed (k := 0) rfl unreadable
  have failed := CommitReached.step created (.advanceErr 7 5 rfl (by decide) tears)
  have lost := CommitReached.step failed (.powerLoss (.between (List.append_nil _).symm))
  have first := (slotLayoutLawful Coding.crc32).returns ⟨7,0,0⟩ (by decide)
  have found : CommitFile.opened "COMMIT" (L.slotAt [L.encode ⟨7,0,0⟩,torn] 0)
      (L.slotAt [L.encode ⟨7,0,0⟩,torn] 1) = .ok (⟨7,0,0⟩,⟨1,1⟩) := by
    rw [show L.slotAt [L.encode ⟨7,0,0⟩,torn] 0 = some ⟨7,0,0⟩ from first,
      show L.slotAt [L.encode ⟨7,0,0⟩,torn] 1 = none from unreadable]
    rfl
  have reached := CommitReached.step lost (.reopened found)
  obtain ⟨rec,h,slot,opened,member,held,spared,_⟩ := commitNeverFallsBack reached (by decide)
  exact ⟨_,rfl,rfl,rec,h,slot,opened,member,held,spared⟩

/-! Past the width of the generation. -/
section wrapped
variable (crc32 : Bytes → UInt32)

def advances (k : Nat) : CommitState (SlotBytes crc32) where
  file := ⟨if k = 0 then [⟨encodeSlot crc32 ⟨0,0,0⟩⟩]
    else [⟨encodeSlot crc32 ⟨0,0,k - k % 2⟩⟩,⟨encodeSlot crc32 ⟨0,0,k - (k+1) % 2⟩⟩],[]⟩
  handle := some ⟨(k+1) % 2,k+1⟩
  attempts := (List.range (k+1)).map (CommitRecord.mk 0 0)
  acknowledged := k

theorem advancesReached (k : Nat) : CommitReached (slotLayout crc32) "COMMIT" (advances crc32 k) := by
  induction k with
  | zero => exact .created (by decide)
  | succ k ih =>
    have step := (CommitStep.advanceOk 0 0 rfl (by decide) :
      CommitStep (slotLayout crc32) "COMMIT" (advances crc32 k) _)
    have same : (⟨((advances crc32 k).file.push (.put ((k+1) % 2)
        [(slotLayout crc32).encode ⟨0,0,k+1⟩])).flushed,some ⟨1 - (k+1) % 2,k+2⟩,
        (advances crc32 k).attempts ++ [⟨0,0,k+1⟩],(advances crc32 k).attempts.length⟩ :
          CommitState (SlotBytes crc32)) = advances crc32 (k+1) := by
      simp only [advances,CommitState.mk.injEq,File.flushed,contentPush,File.mk.injEq,and_true,
        Option.some.injEq,CommitFile.mk.injEq,List.length_map,List.length_range]
      refine ⟨?_,by omega,?_⟩
      · rcases Nat.eq_zero_or_pos k with rfl | positive
        · rfl
        rw [if_neg (by omega)]
        rcases Nat.mod_two_eq_zero_or_one k with even | odd
        · have turn : (k+1) % 2 = 1 := by omega
          have next : (k+1+1) % 2 = 0 := by omega
          rw [turn,even,next,if_neg (by omega)]
          rfl
        · have turn : (k+1) % 2 = 0 := by omega
          have next : (k+1+1) % 2 = 1 := by omega
          rw [turn,odd,next,if_neg (by omega)]
          rfl
      · rw [List.range_succ (n := k+1),List.map_append]
        rfl
    rw [← same]
    exact .step ih step

theorem advancesSlots {k : Nat} (even : k % 2 = 0) (positive : 0 < k) :
    (slotLayout crc32).slotAt (advances crc32 k).file.content 0 =
        decodeSlot crc32 (encodeSlot crc32 ⟨0,0,k⟩) ∧
      (slotLayout crc32).slotAt (advances crc32 k).file.content 1 =
        decodeSlot crc32 (encodeSlot crc32 ⟨0,0,k - 1⟩) := by
  have next : (k+1) % 2 = 1 := by omega
  rw [advances,if_neg (by omega),even,next]
  exact ⟨rfl,rfl⟩

theorem advancesLast (k : Nat) : (advances crc32 k).attempts.drop (advances crc32 k).acknowledged =
    [⟨0,0,k⟩] := by
  rw [advances,List.range_succ,List.map_append]
  exact List.drop_left' (by simp)

end wrapped

/- The advance after generation 2^64 - 1 stamps 0, and the open prefers the older slot. -/
theorem generationWraps : ∃ s : CommitState (SlotBytes Coding.crc32),
    CommitReached (slotLayout Coding.crc32) "COMMIT" s ∧ ∃ rec h,
      CommitFile.opened "COMMIT" ((slotLayout Coding.crc32).slotAt s.file.content 0)
        ((slotLayout Coding.crc32).slotAt s.file.content 1) = .ok (rec,h) ∧
      rec ∉ s.attempts.drop s.acknowledged := by
  have content : slotContent ⟨0,0,2^64⟩ = slotContent ⟨0,0,0⟩ := by decide +kernel
  have wrapped : encodeSlot Coding.crc32 ⟨0,0,2^64⟩ = encodeSlot Coding.crc32 ⟨0,0,0⟩ := by
    rw [encodeSlot,encodeSlot,content]
  have newest := slotReturns Coding.crc32 (show CommitRecord.Fits ⟨0,0,0⟩ by decide)
  have oldest := slotReturns Coding.crc32 (show CommitRecord.Fits ⟨0,0,2^64 - 1⟩ by decide)
  obtain ⟨slot0,slot1⟩ := advancesSlots Coding.crc32 (show 2^64 % 2 = 0 by decide) (by decide)
  refine ⟨advances Coding.crc32 (2^64),advancesReached _ _,⟨0,0,2^64 - 1⟩,⟨0,2^64⟩,?_,?_⟩
  · rw [slot0,slot1,wrapped,newest,oldest]
    rfl
  · rw [advancesLast]
    decide

end OrpheusGraph
