/-!
# Element types

The types an array may hold, and the texts that stand for their values: decimal integers, the two
truth words, and for floating-point numbers the bits of their binary form as hexadecimal digits.
The default of every type is zero, or false.
-/

namespace Growable

/-- The types an array may hold. -/
inductive ElementType where
  | bool
  | int8
  | uint8
  | int16
  | uint16
  | int32
  | uint32
  | int64
  | uint64
  | int128
  | uint128
  /-- Signed, and as wide as an address: sixty-four bits. -/
  | isize
  /-- Unsigned, and as wide as an address. -/
  | usize
  | float32
  | float64
  deriving DecidableEq, Repr

namespace ElementType

/-- The values of a type. A floating-point number is its bits: a slot never computes with it. -/
abbrev Carrier : ElementType → Type
  | bool => Bool
  | int8 => Int8
  | uint8 => UInt8
  | int16 => Int16
  | uint16 => UInt16
  | int32 => Int32
  | uint32 => UInt32
  | int64 | isize => Int64
  | uint64 | usize => UInt64
  | int128 | uint128 => BitVec 128
  | float32 => UInt32
  | float64 => UInt64

instance (t : ElementType) : Inhabited t.Carrier := by
  cases t <;> exact ⟨default⟩

/-- The bytes of a slot. -/
def slotBytes : ElementType → Nat
  | bool | int8 | uint8 => 1
  | int16 | uint16 => 2
  | int32 | uint32 | float32 => 4
  | int64 | uint64 | isize | usize | float64 => 8
  | int128 | uint128 => 16

/-- The integer a decimal text with an optional minus sign stands for. -/
def readInt? (s : String) : Option Int := s.toInt?

/-- The value of hexadecimal digits in lower case. -/
def readHex? (s : String) : Option Nat :=
  s.toList.foldlM (fun n c =>
    if '0' ≤ c ∧ c ≤ '9' then some (16 * n + (c.toNat - '0'.toNat))
    else if 'a' ≤ c ∧ c ≤ 'f' then some (16 * n + (c.toNat - 'a'.toNat + 10))
    else none) 0

/-- The last `digits` hexadecimal digits of a number, in lower case. -/
def hexText (digits n : Nat) : String :=
  let ds := Nat.toDigits 16 n
  String.ofList (List.replicate (digits - ds.length) '0' ++ ds)

/-- The value a text stands for. -/
def ofText? : (t : ElementType) → String → Option t.Carrier
  | bool, s => if s == "true" then some true else if s == "false" then some false else none
  | int8, s => (readInt? s).map Int8.ofInt
  | uint8, s => s.toNat?.map Nat.toUInt8
  | int16, s => (readInt? s).map Int16.ofInt
  | uint16, s => s.toNat?.map Nat.toUInt16
  | int32, s => (readInt? s).map Int32.ofInt
  | uint32, s => s.toNat?.map Nat.toUInt32
  | int64, s => (readInt? s).map Int64.ofInt
  | uint64, s => s.toNat?.map Nat.toUInt64
  | int128, s => (readInt? s).map (BitVec.ofInt 128)
  | uint128, s => s.toNat?.map (BitVec.ofNat 128)
  | isize, s => (readInt? s).map Int64.ofInt
  | usize, s => s.toNat?.map Nat.toUInt64
  | float32, s => (readHex? s).map Nat.toUInt32
  | float64, s => (readHex? s).map Nat.toUInt64

/-- The text that stands for a value. -/
def toText : (t : ElementType) → t.Carrier → String
  | bool, b => if b then "true" else "false"
  | int8, v => toString v.toInt
  | uint8, v => toString v.toNat
  | int16, v => toString v.toInt
  | uint16, v => toString v.toNat
  | int32, v => toString v.toInt
  | uint32, v => toString v.toNat
  | int64, v => toString v.toInt
  | uint64, v => toString v.toNat
  | int128, v => toString (BitVec.toInt v)
  | uint128, v => toString (BitVec.toNat v)
  | isize, v => toString v.toInt
  | usize, v => toString v.toNat
  | float32, v => hexText 8 v.toNat
  | float64, v => hexText 16 v.toNat

end ElementType

end Growable
