import Mathlib.Data.List.Basic
import Mathlib.Logic.Function.Iterate

/-! Coders: an encoder with a decoder that takes exactly its output off the front of any
input. Numbers are written in unary; a list is its length and its elements. -/
namespace Coding

structure Coder (α : Type) where
  encode : α → List UInt8
  decode : List UInt8 → Option (α × List UInt8)
  returns : ∀ a rest, decode (encode a ++ rest) = some (a,rest)

namespace Coder
variable {α β : Type}

def decodeUnary : List UInt8 → Option (Nat × List UInt8)
  | [] => none
  | b::bs => if b = 0 then some (0,bs) else (decodeUnary bs).map (fun x => (x.1 + 1,x.2))

def unary : Coder Nat where
  encode n := List.replicate n 1 ++ [0]
  decode := decodeUnary
  returns n rest := by
    induction n with
    | zero => rfl
    | succ n ih => simpa [List.replicate_succ,decodeUnary] using ih

def pair (first : Coder α) (second : Coder β) : Coder (α × β) where
  encode x := first.encode x.1 ++ second.encode x.2
  decode bs := (first.decode bs).bind fun a => (second.decode a.2).map fun b => ((a.1,b.1),b.2)
  returns x rest := by simp [List.append_assoc,first.returns,second.returns]

/- Code `β` as what `view` makes of it. -/
def through (c : Coder α) (view : β → α) (back : α → β) (same : ∀ b, back (view b) = b) : Coder β where
  encode b := c.encode (view b)
  decode bs := (c.decode bs).map fun a => (back a.1,a.2)
  returns b rest := by simp [c.returns,same]

def either (left : Coder α) (right : Coder β) : Coder (α ⊕ β) where
  encode
    | .inl a => 0 :: left.encode a
    | .inr b => 1 :: right.encode b
  decode
    | [] => none
    | t::bs =>
      if t = 0 then (left.decode bs).map fun a => (.inl a.1,a.2)
      else (right.decode bs).map fun b => (.inr b.1,b.2)
  returns x rest := by
    cases x with
    | inl a => simp [left.returns]
    | inr b => simp [right.returns]

def decodeMany (c : Coder α) : Nat → List UInt8 → Option (List α × List UInt8)
  | 0, bs => some ([],bs)
  | n+1, bs => (c.decode bs).bind fun a => (decodeMany c n a.2).map fun x => (a.1::x.1,x.2)

theorem manyReturns (c : Coder α) (xs : List α) (rest : List UInt8) :
    c.decodeMany xs.length (xs.flatMap c.encode ++ rest) = some (xs,rest) := by
  induction xs with
  | nil => rfl
  | cons x xs ih => simp [decodeMany,List.append_assoc,c.returns,ih]

def list (c : Coder α) : Coder (List α) where
  encode xs := unary.encode xs.length ++ xs.flatMap c.encode
  decode bs := (unary.decode bs).bind fun n => c.decodeMany n.1 n.2
  returns xs rest := by simp [List.append_assoc,unary.returns,c.manyReturns]

def unit : Coder Unit := ⟨fun _ => [],fun bs => some ((),bs),fun _ _ => rfl⟩

def option (c : Coder α) : Coder (Option α) :=
  (unit.either c).through (fun o => o.elim (.inl ()) .inr) (Sum.elim (fun _ => none) some)
    (by intro o; cases o <;> rfl)

def text : Coder String :=
  (unary.list).through (fun s => s.toList.map Char.toNat) (fun ns => String.ofList (ns.map Char.ofNat))
    (by intro s; simp [Function.comp_def,Char.ofNat_toNat])

end Coder

/-! The checksum used with them: CRC-32, one bit at a time. -/
def crcBit (c : UInt32) : UInt32 := if c &&& 1 = 1 then (c >>> 1) ^^^ 0xEDB88320 else c >>> 1

def crcByte (c : UInt32) (b : UInt8) : UInt32 := crcBit^[8] (c ^^^ b.toUInt32)

def crc32 (bs : List UInt8) : UInt32 := bs.foldl crcByte 0xFFFFFFFF ^^^ 0xFFFFFFFF

/- The check value of CRC-32. -/
example : crc32 [0x31,0x32,0x33,0x34,0x35,0x36,0x37,0x38,0x39] = 0xCBF43926 := by decide +kernel

end Coding
