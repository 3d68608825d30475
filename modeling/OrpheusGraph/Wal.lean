import OrpheusGraph.Delta
import OrpheusGraph.Snapshot
import OrpheusGraph.Lib.Coding

/-! The write-ahead log: frames and the scan that recovers them. The payload codec and
the checksum are parameters. -/
namespace OrpheusGraph
variable {W : Type}

abbrev Bytes := List UInt8

inductive IoKind where
  | notFound
  | other
  deriving DecidableEq, Repr

inductive PersistError where
  | io (kind : IoKind)
  | poisoned
  | conflict (expected actual : Nat)
  | delta (e : DeltaError)
  | corrupt (reason : String)
  | unsupportedVersion (found max : Nat)
  | notFound
  deriving DecidableEq, Repr

structure WalRecord (W : Type) where
  seq : Nat
  ops : List (Op W)

/- The packages the store relies on. Metadata maps have no fixed order, so the record that
recovery decodes may be encoded again as different bytes. -/
structure Codec (W : Type) where
  encodeRecord : WalRecord W → Bytes
  reencodeRecord : WalRecord W → Bytes
  decodeRecord : Bytes → Option (WalRecord W)
  crc32 : Bytes → UInt32
  graphCrc32 : SerializableGraphV2 W → UInt32

structure Codec.Lawful (codec : Codec W) : Prop where
  decodes : ∀ rec, codec.decodeRecord (codec.encodeRecord rec) = some rec
  sameLength : ∀ rec, (codec.reencodeRecord rec).length = (codec.encodeRecord rec).length

/-! Little-endian u32. -/
def leBytes (n : Nat) : Bytes :=
  [UInt8.ofNat n,UInt8.ofNat (n / 2^8),UInt8.ofNat (n / 2^16),UInt8.ofNat (n / 2^24)]

def leNat : Bytes → Nat
  | [] => 0
  | b::bs => b.toNat + 2^8 * leNat bs

theorem leReturns {n : Nat} (small : n < 2^32) : leNat (leBytes n) = n := by
  simp only [leBytes,leNat,UInt8.toNat_ofNat']
  omega

theorem leRestores (bs : Bytes) (four : bs.length = 4) : leBytes (leNat bs) = bs ∧ leNat bs < 2^32 := by
  obtain ⟨a,b,c,d,rfl⟩ := List.length_eq_four.mp four
  have ha := a.toNat_lt
  have hb := b.toNat_lt
  have hc := c.toNat_lt
  have hd := d.toNat_lt
  simp only [leBytes,leNat,List.cons.injEq,← UInt8.toNat_inj,UInt8.toNat_ofNat',and_true]
  omega

@[simp] theorem leLength (n : Nat) : (leBytes n).length = 4 := rfl

def frameOf (codec : Codec W) (payload : Bytes) : Bytes :=
  let len := leBytes payload.length
  len ++ leBytes (codec.crc32 (len ++ payload)).toNat ++ payload

def encodeFrameWith (codec : Codec W) (encode : WalRecord W → Bytes) (rec : WalRecord W) :
    Except PersistError Bytes :=
  let payload := encode rec
  if payload.length > u32Max then
    .error (.corrupt s!"WAL frame payload {payload.length} bytes exceeds u32::MAX")
  else .ok (frameOf codec payload)

def encodeFrame (codec : Codec W) : WalRecord W → Except PersistError Bytes :=
  encodeFrameWith codec codec.encodeRecord

structure ScanResult (W : Type) where
  records : List (WalRecord W)
  validEnd : Nat
  tailTruncated : Bool
  dropped : Nat

/-! Indexing and usize arithmetic as the scanner does them: none is an index out of
range, or a sum or difference that does not fit. -/
def readU32 (buf : Bytes) (i : Nat) : Option Nat := do
  let a ← buf[i]?
  let b ← buf[i+1]?
  let c ← buf[i+2]?
  let d ← buf[i+3]?
  return leNat [a,b,c,d]

def readSlice (buf : Bytes) (lo hi : Nat) : Option Bytes :=
  if lo ≤ hi ∧ hi ≤ buf.length then some ((buf.drop lo).take (hi - lo)) else none

def checkedAdd (a b : Nat) : Option Nat := if a + b ≤ usizeMax then some (a + b) else none

def checkedSub (a b : Nat) : Option Nat := if b ≤ a then some (a - b) else none

def scanLoop (codec : Codec W) (buf : Bytes) : Nat → Nat → List (WalRecord W) →
    Option (Except PersistError (ScanResult W))
  | 0, _, _ => none
  | fuel+1, offset, records =>
    (checkedSub buf.length offset).bind fun remaining =>
    if remaining = 0 then some (.ok ⟨records,offset,false,0⟩)
    else if remaining < 8 then some (.ok ⟨records,offset,true,1⟩)
    else
      (readU32 buf offset).bind fun len =>
      (readU32 buf (offset + 4)).bind fun crcStored =>
      (checkedSub remaining 8).bind fun room =>
      if len > room then some (.ok ⟨records,offset,true,1⟩)
      else
        (checkedAdd offset 8).bind fun lo =>
        (checkedAdd lo len).bind fun hi =>
        (readSlice buf lo hi).bind fun payload =>
        if (codec.crc32 (leBytes len ++ payload)).toNat ≠ crcStored then
          some (.ok ⟨records,offset,true,1⟩)
        else match codec.decodeRecord payload with
          | none => some (.error (.corrupt
              s!"WAL frame at offset {offset}: crc-valid but postcard decode failed"))
          | some rec =>
            (checkedAdd 8 len).bind fun size =>
            (checkedAdd offset size).bind fun next =>
            scanLoop codec buf fuel next (records ++ [rec])

/- Every round but the last takes at least a header, so this is fuel enough. -/
def scanWalBytes (codec : Codec W) (buf : Bytes) :
    Option (Except PersistError (ScanResult W)) :=
  scanLoop codec buf (buf.length + 1) 0 []

/-! One round, on what is left of the log. -/
inductive Head (W : Type) where
  | finished
  | torn
  | frame (rec : WalRecord W) (len : Nat)
  | undecodable

def scanHead (codec : Codec W) (raw : Bytes) : Head W :=
  if raw.length = 0 then .finished
  else if raw.length < 8 then .torn
  else
    let len := leNat (raw.take 4)
    if len > raw.length - 8 then .torn
    else
      let payload := (raw.drop 8).take len
      if (codec.crc32 (leBytes len ++ payload)).toNat ≠ leNat ((raw.drop 4).take 4) then .torn
      else match codec.decodeRecord payload with
        | none => .undecodable
        | some rec => .frame rec len

def scanFrom (codec : Codec W) : Nat → Nat → List (WalRecord W) → Bytes →
    Except PersistError (ScanResult W)
  | 0, offset, records, _ => .ok ⟨records,offset,false,0⟩
  | fuel+1, offset, records, raw =>
    match scanHead codec raw with
    | .finished => .ok ⟨records,offset,false,0⟩
    | .torn => .ok ⟨records,offset,true,1⟩
    | .undecodable => .error (.corrupt
        s!"WAL frame at offset {offset}: crc-valid but postcard decode failed")
    | .frame rec len => scanFrom codec fuel (offset + (8 + len)) (records ++ [rec]) (raw.drop (8 + len))

def scan (codec : Codec W) (raw : Bytes) : Except PersistError (ScanResult W) :=
  scanFrom codec (raw.length + 1) 0 [] raw

theorem readU32Exact {buf : Bytes} {i : Nat} (inside : i + 4 ≤ buf.length) :
    readU32 buf i = some (leNat ((buf.drop i).take 4)) := by
  have four : (buf.drop i).take 4 = [buf[i],buf[i+1],buf[i+2],buf[i+3]] := by
    rw [List.drop_eq_getElem_cons (by omega),List.drop_eq_getElem_cons (by omega),
      List.drop_eq_getElem_cons (by omega),List.drop_eq_getElem_cons (by omega)]
    rfl
  rw [four,readU32,List.getElem?_eq_getElem (by omega),List.getElem?_eq_getElem (by omega),
    List.getElem?_eq_getElem (by omega),List.getElem?_eq_getElem (by omega)]
  rfl

/- No index is out of range; only past the range of an index is there no end. -/
theorem loopScans (codec : Codec W) (buf : Bytes) :
    ∀ (fuel offset : Nat) (records : List (WalRecord W)), offset ≤ buf.length →
      buf.length - offset < fuel →
      scanLoop codec buf fuel offset records = some (scanFrom codec fuel offset records (buf.drop offset)) ∨
        usizeMax < buf.length ∧ scanLoop codec buf fuel offset records = none := by
  intro fuel
  induction fuel with
  | zero => intro offset records _ short; omega
  | succ fuel ih =>
    intro offset records inside short
    have left : (buf.drop offset).length = buf.length - offset := List.length_drop
    rw [scanLoop,scanFrom,scanHead,left,checkedSub,if_pos inside,Option.bind_some]
    rcases Nat.eq_zero_or_pos (buf.length - offset) with none_left | some_left
    · rw [if_pos none_left,if_pos none_left]
      exact .inl rfl
    rcases Nat.lt_or_ge (buf.length - offset) 8 with short_header | header
    · rw [if_neg (by omega),if_pos short_header,if_neg (by omega),if_pos short_header]
      exact .inl rfl
    have read : readU32 buf (offset + 4) = some (leNat (((buf.drop offset).drop 4).take 4)) := by
      rw [List.drop_drop]
      exact readU32Exact (by omega)
    rw [if_neg (by omega),if_neg (by omega),if_neg (by omega),if_neg (by omega),
      readU32Exact (by omega),read,checkedSub,if_pos header]
    simp only [Option.bind_some]
    generalize leNat ((buf.drop offset).take 4) = len
    rcases Nat.lt_or_ge (buf.length - offset - 8) len with long | bounded
    · rw [if_pos long,if_pos long]
      exact .inl rfl
    have slice : readSlice buf (offset + 8) (offset + 8 + len) =
        some (((buf.drop offset).drop 8).take len) := by
      rw [readSlice,if_pos ⟨by omega,by omega⟩,List.drop_drop,Nat.add_sub_cancel_left]
    have add : ∀ {a b : Nat} {α : Type} (f : Nat → Option α) {x : Option α}, a + b ≤ buf.length →
        (f (a + b) = x ∨ usizeMax < buf.length ∧ f (a + b) = none) →
        (checkedAdd a b).bind f = x ∨ usizeMax < buf.length ∧ (checkedAdd a b).bind f = none := by
      intro a b α f x small next
      rcases Nat.lt_or_ge usizeMax (a + b) with beyond | within
      · exact .inr ⟨by omega,by rw [checkedAdd,if_neg (by omega)]; rfl⟩
      · rwa [checkedAdd,if_pos within,Option.bind_some]
    rw [if_neg (by omega),if_neg (by omega)]
    refine add _ (by omega) (add _ (by omega) ?_)
    rw [slice,Option.bind_some]
    cases decEq (codec.crc32 (leBytes len ++ ((buf.drop offset).drop 8).take len)).toNat
        (leNat (((buf.drop offset).drop 4).take 4)) with
    | isFalse spoiled =>
      rw [if_pos spoiled,if_pos spoiled]
      exact .inl rfl
    | isTrue intact =>
      rw [if_neg (not_not_intro intact),if_neg (not_not_intro intact)]
      cases codec.decodeRecord (((buf.drop offset).drop 8).take len) with
      | none => exact .inl rfl
      | some rec =>
        simp only
        refine add _ (by omega) (add _ (by omega) ?_)
        rw [List.drop_drop]
        exact ih (offset + (8 + len)) _ (by omega) (by omega)

theorem scanReturns (codec : Codec W) {buf : Bytes} (fits : buf.length ≤ usizeMax) :
    scanWalBytes codec buf = some (scan codec buf) :=
  (loopScans codec buf (buf.length + 1) 0 [] (Nat.zero_le _) (by omega)).resolve_right
    (fun beyond => absurd beyond.1 (Nat.not_lt.mpr fits))

theorem scanAgrees {codec : Codec W} {buf : Bytes} {r : Except PersistError (ScanResult W)}
    (found : scanWalBytes codec buf = some r) : r = scan codec buf := by
  rcases loopScans codec buf (buf.length + 1) 0 [] (Nat.zero_le _) (by omega) with same | beyond
  · exact Option.some.inj (found.symm.trans same)
  · cases found.symm.trans beyond.2

/-! A log is a sequence of valid frames and a rest that does not begin with one. -/
inductive Frames (codec : Codec W) : List (WalRecord W) → Bytes → Prop where
  | nil : Frames codec [] []
  | cons {rec : WalRecord W} {recs : List (WalRecord W)} {payload rest : Bytes}
      (fits : payload.length ≤ u32Max) (decoded : codec.decodeRecord payload = some rec)
      (later : Frames codec recs rest) : Frames codec (rec::recs) (frameOf codec payload ++ rest)

def Torn (codec : Codec W) (tail : Bytes) : Prop :=
  scanHead codec tail = .finished ∨ scanHead codec tail = .torn

section scanned
variable {codec : Codec W}

@[simp] theorem frameOfLength (codec : Codec W) (payload : Bytes) : (frameOf codec payload).length = 8 + payload.length := by
  simp [frameOf]
  omega

theorem headOfFrame (codec : Codec W) {payload : Bytes} (fits : payload.length ≤ u32Max) (rest : Bytes) :
    scanHead codec (frameOf codec payload ++ rest) =
      match codec.decodeRecord payload with
      | none => .undecodable
      | some rec => .frame rec payload.length := by
  have limit : payload.length < 2^32 := by
    have top : u32Max = 2^32 - 1 := rfl
    omega
  have len : leNat ((frameOf codec payload ++ rest).take 4) = payload.length := leReturns limit
  have crc : leNat (((frameOf codec payload ++ rest).drop 4).take 4) =
      (codec.crc32 (leBytes payload.length ++ payload)).toNat :=
    leReturns (codec.crc32 (leBytes payload.length ++ payload)).toNat_lt
  have body : ((frameOf codec payload ++ rest).drop 8).take payload.length = payload :=
    List.take_left
  have size : (frameOf codec payload ++ rest).length = 8 + payload.length + rest.length := by simp
  rw [scanHead,len]
  simp only
  rw [crc,body,if_neg (by omega),if_neg (by omega),if_neg (by omega),if_neg (not_not_intro rfl)]

theorem headSound {raw : Bytes} {rec : WalRecord W} {len : Nat} (head : scanHead codec raw = .frame rec len) :
    ∃ payload, payload.length = len ∧ payload.length ≤ u32Max ∧ codec.decodeRecord payload = some rec ∧
      raw = frameOf codec payload ++ raw.drop (8 + len) := by
  unfold scanHead at head
  split at head
  · contradiction
  split at head
  · contradiction
  rename_i header
  simp only at head
  split at head
  · contradiction
  rename_i bounded
  split at head
  · contradiction
  rename_i intact
  cases decoded : codec.decodeRecord ((raw.drop 8).take (leNat (raw.take 4))) with
  | none => simp [decoded] at head
  | some found =>
    simp only [decoded,Head.frame.injEq] at head
    obtain ⟨rfl,rfl⟩ := head
    obtain ⟨first,small⟩ := leRestores (raw.take 4) (by rw [List.length_take]; omega)
    obtain ⟨second,_⟩ := leRestores ((raw.drop 4).take 4)
      (by rw [List.length_take,List.length_drop]; omega)
    have size : ((raw.drop 8).take (leNat (raw.take 4))).length = leNat (raw.take 4) := by
      rw [List.length_take,List.length_drop]
      omega
    refine ⟨_,size,?_,decoded,?_⟩
    · rw [size]
      exact Nat.le_of_lt_succ small
    · rw [frameOf,size,not_not.mp intact,first,second,List.append_assoc,List.append_assoc,
        ← List.drop_drop,List.take_append_drop]
      have eight : raw.drop 8 = (raw.drop 4).drop 4 := by rw [List.drop_drop]
      rw [eight,List.take_append_drop,List.take_append_drop]

theorem framesHead {rec : WalRecord W} {recs : List (WalRecord W)} {raw : Bytes}
    (frames : Frames codec (rec::recs) raw) (rest : Bytes) :
    ∃ payload later, raw = frameOf codec payload ++ later ∧ Frames codec recs later ∧
      scanHead codec (raw ++ rest) = .frame rec payload.length := by
  cases frames with
  | @cons _ _ payload later fits decoded frames =>
    refine ⟨payload,later,rfl,frames,?_⟩
    rw [List.append_assoc,headOfFrame codec fits,decoded]

theorem framesAppend {recs more : List (WalRecord W)} {raw rest : Bytes} (front : Frames codec recs raw)
    (back : Frames codec more rest) : Frames codec (recs ++ more) (raw ++ rest) := by
  induction front with
  | nil => exact back
  | cons fits decoded _ ih =>
    rw [List.append_assoc]
    exact .cons fits decoded ih

/- The rounds of a scan, in both directions. -/
theorem scanComplete {recs : List (WalRecord W)} {front tail : Bytes} (frames : Frames codec recs front)
    (torn : Torn codec tail) : ∀ (fuel offset : Nat) (done : List (WalRecord W)),
      (front ++ tail).length < fuel →
      scanFrom codec fuel offset done (front ++ tail) =
        .ok ⟨done ++ recs,offset + front.length,decide (tail ≠ []),if tail = [] then 0 else 1⟩ := by
  induction frames with
  | nil =>
    intro fuel offset done room
    obtain ⟨fuel,rfl⟩ : ∃ k, fuel = k + 1 := ⟨fuel - 1,by omega⟩
    cases tail with
    | nil => simp [scanFrom,scanHead]
    | cons b bs =>
      have stops : scanHead codec (b::bs) = .torn := by
        rcases torn with finished | torn
        · simp [scanHead] at finished
          grind
        · exact torn
      simp [scanFrom,stops]
  | @cons rec recs payload rest fits decoded _ ih =>
    intro fuel offset done room
    obtain ⟨fuel,rfl⟩ : ∃ k, fuel = k + 1 := ⟨fuel - 1,by omega⟩
    rw [scanFrom,List.append_assoc,headOfFrame codec fits,decoded]
    simp only
    rw [← frameOfLength codec,List.drop_left,ih fuel _ _ (by simp at room ⊢; omega)]
    simp [Nat.add_assoc]

theorem scanWhole {recs : List (WalRecord W)} {front tail : Bytes} (frames : Frames codec recs front)
    (torn : Torn codec tail) : scan codec (front ++ tail) =
      .ok ⟨recs,front.length,decide (tail ≠ []),if tail = [] then 0 else 1⟩ := by
  rw [scan,scanComplete frames torn _ _ _ (Nat.lt_succ_self _),List.nil_append,Nat.zero_add]

theorem scanSound {fuel offset : Nat} {done : List (WalRecord W)} {raw : Bytes} {s : ScanResult W}
    (room : raw.length < fuel) (ok : scanFrom codec fuel offset done raw = .ok s) :
    ∃ recs front tail, raw = front ++ tail ∧ Frames codec recs front ∧ Torn codec tail ∧
      s = ⟨done ++ recs,offset + front.length,decide (tail ≠ []),if tail = [] then 0 else 1⟩ := by
  induction fuel generalizing offset done raw with
  | zero => omega
  | succ fuel ih =>
    have stop : Torn codec raw → ∃ recs front tail, raw = front ++ tail ∧ Frames codec recs front ∧
        Torn codec tail ∧ s = ⟨done ++ recs,offset + front.length,decide (tail ≠ []),
          if tail = [] then 0 else 1⟩ := by
      intro torn
      have run := scanComplete .nil torn (fuel+1) offset done (by simpa using room)
      rw [List.nil_append,ok] at run
      exact ⟨[],[],raw,rfl,.nil,torn,Except.ok.inj run⟩
    cases head : scanHead codec raw with
    | undecodable => simp [scanFrom,head] at ok
    | finished => exact stop (.inl head)
    | torn => exact stop (.inr head)
    | frame rec len =>
      obtain ⟨payload,rfl,fits,decoded,split⟩ := headSound head
      have size := congrArg List.length split
      simp only [List.length_append,frameOfLength] at size
      simp only [scanFrom,head] at ok
      obtain ⟨recs,front,tail,rest,frames,torn,rfl⟩ := ih (by omega) ok
      rw [rest,← List.append_assoc] at split
      refine ⟨rec::recs,frameOf codec payload ++ front,tail,split,.cons fits decoded frames,torn,?_⟩
      simp [Nat.add_assoc]

/- No other reading of the log takes more frames. -/
theorem framesMaximal {recs more : List (WalRecord W)} {front tail front' tail' : Bytes}
    (frames : Frames codec recs front) (torn : Torn codec tail) (frames' : Frames codec more front')
    (same : front ++ tail = front' ++ tail') : ∃ later, recs = more ++ later := by
  induction frames' generalizing recs front with
  | nil => exact ⟨recs,rfl⟩
  | @cons rec more payload rest fits decoded _ ih =>
    rw [List.append_assoc] at same
    have head := headOfFrame codec fits (rest ++ tail')
    rw [← same,decoded] at head
    cases recs with
    | nil =>
      cases frames
      rw [List.nil_append] at head
      rcases torn with stop | stop <;> rw [stop] at head <;> contradiction
    | cons first recs =>
      obtain ⟨payload',later,rfl,frames,head'⟩ := framesHead frames tail
      rw [head'] at head
      obtain ⟨rfl,size⟩ := Head.frame.inj head
      rw [List.append_assoc] at same
      obtain ⟨_,rest_same⟩ := List.append_inj same (by simp [size])
      obtain ⟨later,rfl⟩ := ih frames rest_same
      exact ⟨later,rfl⟩

theorem tornOfCut {payload tail lost : Bytes} (fits : payload.length ≤ u32Max)
    (split : frameOf codec payload = tail ++ lost) (some_lost : lost ≠ []) : Torn codec tail := by
  have whole := congrArg List.length split
  rw [frameOfLength,List.length_append] at whole
  have some_byte : 0 < lost.length := List.length_pos_iff.mpr some_lost
  rcases Nat.eq_zero_or_pos tail.length with empty | some_left
  · exact .inl (by rw [scanHead,if_pos empty])
  refine .inr ?_
  rw [scanHead,if_neg (by omega)]
  rcases Nat.lt_or_ge tail.length 8 with short_header | header
  · rw [if_pos short_header]
  have front : tail.take 4 = leBytes payload.length := by
    have same : (tail ++ lost).take 4 = tail.take 4 := List.take_append_of_le_length (by omega)
    rw [← same,← split]
    rfl
  have limit : payload.length < 2^32 := by
    have top : u32Max = 2^32 - 1 := rfl
    omega
  rw [if_neg (by omega),front,leReturns limit]
  simp only
  rw [if_pos (by omega)]

end scanned

/-! What the writer appends. -/
def Encodable (codec : Codec W) (rec : WalRecord W) : Prop := (codec.encodeRecord rec).length ≤ u32Max

instance (codec : Codec W) (rec : WalRecord W) : Decidable (Encodable codec rec) :=
  inferInstanceAs (Decidable (_ ≤ _))

def frame (codec : Codec W) (rec : WalRecord W) : Bytes := frameOf codec (codec.encodeRecord rec)

def frames (codec : Codec W) (recs : List (WalRecord W)) : Bytes := recs.flatMap (frame codec)

@[simp] theorem framesJoin (codec : Codec W) (xs ys : List (WalRecord W)) :
    frames codec (xs ++ ys) = frames codec xs ++ frames codec ys := List.flatMap_append

theorem encodeFrameExact {codec : Codec W} {rec : WalRecord W} {out : Bytes} :
    encodeFrame codec rec = .ok out ↔ Encodable codec rec ∧ out = frame codec rec := by
  unfold encodeFrame encodeFrameWith Encodable frame
  simp only
  split
  · rename_i long
    simp only [reduceCtorEq,false_iff,not_and]
    omega
  · rename_i short
    rw [Except.ok.injEq]
    exact ⟨fun same => ⟨by omega,same.symm⟩,fun both => both.2.symm⟩

theorem framesOfRecords {codec : Codec W} (decodes : ∀ rec, codec.decodeRecord (codec.encodeRecord rec) = some rec)
    {recs : List (WalRecord W)} (fits : ∀ r ∈ recs, Encodable codec r) :
    Frames codec recs (frames codec recs) := by
  induction recs with
  | nil => exact .nil
  | cons rec recs ih =>
    exact .cons (fits rec List.mem_cons_self) (decodes rec)
      (ih (fun r later => fits r (List.mem_cons_of_mem rec later)))

/- The scan of what the writer appends, cut inside its last frame, and of any bytes at all. -/
theorem scanRecovers {codec : Codec W}
    (decodes : ∀ rec, codec.decodeRecord (codec.encodeRecord rec) = some rec) :
    (∀ (recs : List (WalRecord W)) (outs : List Bytes) (last : WalRecord W) (tail lost : Bytes),
      List.Forall₂ (fun rec out => encodeFrame codec rec = .ok out) recs outs →
      encodeFrame codec last = .ok (tail ++ lost) → lost ≠ [] →
      (outs.flatten ++ tail).length ≤ usizeMax →
      scanWalBytes codec (outs.flatten ++ tail) =
        some (.ok ⟨recs,outs.flatten.length,decide (tail ≠ []),if tail = [] then 0 else 1⟩)) ∧
    (∀ raw : Bytes, raw.length ≤ usizeMax → ∃ result, scanWalBytes codec raw = some result ∧
      ∀ s, result = .ok s →
        s.validEnd ≤ raw.length ∧
        Frames codec s.records (raw.take s.validEnd) ∧
        (∀ more m, Frames codec more (raw.take m) → ∃ later, s.records = more ++ later) ∧
        (s.tailTruncated = true ↔ s.validEnd < raw.length) ∧
        scanWalBytes codec (raw.take s.validEnd) = some (.ok ⟨s.records,s.validEnd,false,0⟩)) := by
  refine ⟨fun recs outs last tail lost appended torn_frame some_lost fits => ?_,fun raw fits => ?_⟩
  · have front : Frames codec recs outs.flatten := by
      clear fits
      induction appended with
      | nil => exact .nil
      | cons encoded _ ih =>
        obtain ⟨short,rfl⟩ := encodeFrameExact.mp encoded
        exact .cons short (decodes _) ih
    obtain ⟨short,split⟩ := encodeFrameExact.mp torn_frame
    have torn : Torn codec tail := tornOfCut short split.symm some_lost
    rw [scanReturns codec fits,scanWhole front torn]
  · refine ⟨_,scanReturns codec fits,fun s ok => ?_⟩
    obtain ⟨recs,front,tail,rfl,frames,torn,rfl⟩ := scanSound (Nat.lt_succ_self _) ok
    simp only [List.nil_append,Nat.zero_add,List.take_left,List.length_append]
    have shorter : front.length ≤ usizeMax := by
      rw [List.length_append] at fits
      omega
    refine ⟨by omega,frames,fun more m other => ?_,?_,?_⟩
    · exact framesMaximal frames torn other (List.take_append_drop m _).symm
    · cases tail with
      | nil => simp
      | cons b bs => simp
    · have clean := scanWhole frames (show Torn codec [] from .inl rfl)
      rw [List.append_nil] at clean
      rw [scanReturns codec shorter,clean]
      rfl

/-! A codec that meets the assumptions: plain encodings and CRC-32. -/
section plain
open Coding

def metadataCoder : Coder Metadata :=
  (Coder.text.pair Coder.text).list.through (·.toList) (.ofList ·) metadataReturns

def nodeCoder : Coder (NodeData Unit) :=
  (Coder.text.pair (Coder.text.pair metadataCoder)).through
    (fun nd => (nd.name,nd.kind,nd.metadata)) (fun x => ⟨x.1,x.2.1,x.2.2,(),(),()⟩) (fun _ => rfl)

def edgeCoder : Coder (EdgeData Unit) :=
  (Coder.text.pair (Coder.text.option.pair (Coder.unary.option.pair
    (Coder.unary.option.pair Coder.text.list)))).through
    (fun ed => (ed.kind,ed.fieldName,ed.validFrom,ed.validTo,ed.acl))
    (fun x => ⟨x.1,x.2.1,(),x.2.2.1,x.2.2.2.1,x.2.2.2.2⟩) (fun _ => rfl)

def opCoder : Coder (Op Unit) :=
  ((nodeCoder.either Coder.text).either ((Coder.text.pair (Coder.text.pair edgeCoder)).either
    (Coder.text.pair (Coder.text.pair Coder.text)))).through
    (fun
      | .upsertNode nd => .inl (.inl nd)
      | .removeNode name => .inl (.inr name)
      | .addEdge fromName toName edge => .inr (.inl (fromName,toName,edge))
      | .removeEdge fromName toName kind => .inr (.inr (fromName,toName,kind)))
    (fun
      | .inl (.inl nd) => .upsertNode nd
      | .inl (.inr name) => .removeNode name
      | .inr (.inl x) => .addEdge x.1 x.2.1 x.2.2
      | .inr (.inr x) => .removeEdge x.1 x.2.1 x.2.2)
    (fun op => by cases op <;> rfl)

def recordCoder : Coder (WalRecord Unit) :=
  (Coder.unary.pair opCoder.list).through (fun rec => (rec.seq,rec.ops)) (fun x => ⟨x.1,x.2⟩)
    (fun _ => rfl)

def graphBytes (sg : SerializableGraphV2 Unit) : Bytes :=
  sg.nodes.flatMap (fun n => nodeCoder.encode n.intoNodeData) ++
    sg.edges.flatMap (fun e => (Coder.unary.pair (Coder.unary.pair edgeCoder)).encode
      (e.fromIdx,e.toIdx,e.data)) ++
    [sg.nodeOffsets,sg.inOffsets,sg.inMirror,sg.nameBuckets].flatMap Coder.unary.list.encode

def plainCodec : Codec Unit where
  encodeRecord := recordCoder.encode
  reencodeRecord := recordCoder.encode
  decodeRecord bs := (recordCoder.decode bs).map Prod.fst
  crc32 := Coding.crc32
  graphCrc32 sg := Coding.crc32 (graphBytes sg)

theorem plainLawful : plainCodec.Lawful where
  decodes rec := by
    have whole := recordCoder.returns rec []
    rw [List.append_nil] at whole
    simp [plainCodec,whole]
  sameLength _ := rfl

end plain

/- Two frames and the first bytes of a third. -/
theorem scannedTear :
    let outs := [frame plainCodec ⟨1,[.removeNode "a"]⟩,frame plainCodec ⟨2,[]⟩]
    scanWalBytes plainCodec (outs.flatten ++ (frame plainCodec ⟨3,[]⟩).take 9) =
      some (.ok ⟨[⟨1,[.removeNode "a"]⟩,⟨2,[]⟩],outs.flatten.length,true,1⟩) := by
  intro outs
  have cut : (frame plainCodec ⟨3,[]⟩).take 9 ≠ [] := by decide +kernel
  have run := (scanRecovers plainLawful.decodes).1 [⟨1,[.removeNode "a"]⟩,⟨2,[]⟩] outs ⟨3,[]⟩
    ((frame plainCodec ⟨3,[]⟩).take 9) ((frame plainCodec ⟨3,[]⟩).drop 9)
    (.cons (encodeFrameExact.mpr ⟨by decide +kernel,rfl⟩)
      (.cons (encodeFrameExact.mpr ⟨by decide +kernel,rfl⟩) .nil))
    (encodeFrameExact.mpr ⟨by decide +kernel,List.take_append_drop _ _⟩)
    (by decide +kernel) (by decide +kernel)
  rwa [decide_eq_true cut,if_neg cut] at run

end OrpheusGraph
