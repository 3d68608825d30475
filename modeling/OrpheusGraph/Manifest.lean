import OrpheusGraph.Commit

/-! The MANIFEST: its fields and their checksum, and the names of the files beside it. -/
namespace OrpheusGraph

structure Manifest where
  formatVersion : Nat
  snapshotFile : String
  snapshotSeq : Nat
  snapshotCrc32 : UInt32
  compactionId : Nat
  epoch : Nat
  highSeq : Nat
  cleanShutdown : Bool
  createdBy : String
  checksum : UInt32
  deriving DecidableEq, Repr

def currentFormat : Nat := 3
def createdBy : String := "orpheusgraph 0.1.0"

def manifestChecksum (crc32 : Bytes → UInt32) (m : Manifest) : UInt32 :=
  crc32 (leWidth 4 m.formatVersion ++ m.snapshotFile.toUTF8.data.toList ++ leWidth 8 m.snapshotSeq ++
    leWidth 4 m.snapshotCrc32.toNat ++ leWidth 8 m.compactionId ++ leWidth 16 m.epoch ++
    leWidth 8 m.highSeq ++ [if m.cleanShutdown then 1 else 0])

/- A stored 0 means that there is no checksum, so a computed 0 becomes 1. -/
def Manifest.stamped (crc32 : Bytes → UInt32) (m : Manifest) : Manifest :=
  { m with checksum := if manifestChecksum crc32 m = 0 then 1 else manifestChecksum crc32 m }

def hexWord (n : UInt32) : String := "0x" ++ String.ofList ((Nat.toDigits 16 n.toNat).leftpad 8 '0')

def manifestError (crc32 : Bytes → UInt32) (m : Manifest) : PersistError :=
  .corrupt s!"MANIFEST checksum mismatch: stored {hexWord m.checksum}, computed {hexWord (manifestChecksum crc32 m)} (bit-rot?)"

/- `none` is a text that does not parse. -/
def checkManifest (crc32 : Bytes → UInt32) : Option Manifest → Except PersistError Manifest
  | none => .error (.corrupt "MANIFEST parse failed")
  | some m =>
    if m.checksum ≠ 0 ∧ m.checksum ≠ manifestChecksum crc32 m then .error (manifestError crc32 m)
    else .ok m

theorem stampedChecksum (crc32 : Bytes → UInt32) (m : Manifest) :
    manifestChecksum crc32 (m.stamped crc32) = manifestChecksum crc32 m := rfl

theorem stampedPasses {crc32 : Bytes → UInt32} {m : Manifest} (nonzero : manifestChecksum crc32 m ≠ 0) :
    checkManifest crc32 (some (m.stamped crc32)) = .ok (m.stamped crc32) := by
  refine if_neg (fun both => both.2 ?_)
  rw [stampedChecksum,Manifest.stamped]
  exact if_neg nonzero

/-! File names. -/
def padded (width n : Nat) : String := String.ofList ((Nat.toDigits 10 n).leftpad width '0')

def snapshotV2Name (seq cid : Nat) : String :=
  "snapshot-" ++ padded 20 seq ++ "-" ++ padded 10 cid ++ ".og"

def tmpName (name : String) : String := name ++ ".tmp"

theorem paddedChars (width n : Nat) : (padded width n).toList =
    List.replicate (width - (Nat.toDigits 10 n).length) '0' ++ Nat.toDigits 10 n := by
  simp [padded,List.leftpad]

/- The padding does not change the number, and there is no dash in it. -/
theorem paddedInjective {width n m : Nat} (same : padded width n = padded width m) : n = m := by
  have read : ∀ k, Nat.ofDigitChars 10 (padded width k).toList 0 = k := by
    intro k
    rw [paddedChars,Nat.ofDigitChars_append,Nat.ofDigitChars_replicate_zero,Nat.mul_zero,
      Nat.ofDigitChars_ten_toDigits]
  rw [← read n,same,read]

theorem paddedNoDash (width n : Nat) : '-' ∉ (padded width n).toList := by
  rw [paddedChars,List.mem_append]
  rintro (zeros | digits)
  · exact absurd (List.eq_of_mem_replicate zeros) (by decide)
  · exact absurd (Nat.isDigit_of_mem_toDigits (by decide) (by decide) digits) (by decide)

theorem splitAtDash {xs xs' ys ys' : List Char} (left : '-' ∉ xs) (right : '-' ∉ xs')
    (same : xs ++ '-' :: ys = xs' ++ '-' :: ys') : xs = xs' ∧ ys = ys' := by
  induction xs generalizing xs' with
  | nil => cases xs' with
    | nil => exact ⟨rfl,(List.cons.inj same).2⟩
    | cons x xs' => exact absurd (List.mem_cons.mpr (.inl (List.cons.inj same).1)) right
  | cons x xs ih => cases xs' with
    | nil => exact absurd (List.mem_cons.mpr (.inl (List.cons.inj same).1.symm)) left
    | cons x' xs' =>
      obtain ⟨rfl,rest⟩ := List.cons.inj same
      obtain ⟨rfl,ends⟩ := ih (fun m => left (List.mem_cons_of_mem _ m)) (fun m => right (List.mem_cons_of_mem _ m)) rest
      exact ⟨rfl,ends⟩

theorem snapshotNameInjective {seq cid seq' cid' : Nat}
    (same : snapshotV2Name seq cid = snapshotV2Name seq' cid') : seq = seq' ∧ cid = cid' := by
  have chars := congrArg String.toList same
  simp only [snapshotV2Name,String.toList_append,List.append_assoc] at chars
  have rest := (splitAtDash (paddedNoDash 20 seq) (paddedNoDash 20 seq') (List.append_cancel_left chars))
  exact ⟨paddedInjective (String.toList_inj.mp rest.1),
    paddedInjective (String.toList_inj.mp (List.append_cancel_right rest.2))⟩

theorem tmpNameInjective {n m : String} (same : tmpName n = tmpName m) : n = m := by
  have chars := congrArg String.toList same
  simp only [tmpName,String.toList_append] at chars
  exact String.toList_inj.mp (List.append_cancel_right chars)

end OrpheusGraph
