import Growable.Store

/-!
# How many buckets

A map keeps at least four buckets for three entries. The number of buckets is a power of two, never
below sixteen, and grows by doubling. Products are cut off at the largest size, as the sizes they
are compared with are.
-/

namespace Growable.SharedMap

/-- The number of buckets of a map that nothing was asked of. -/
def defaultBuckets : Nat := 16

/-- A product of sizes, cut off at the largest size. -/
def cappedMul (a b : Nat) : Nat := min maxSize (a * b)

/-- More than three entries for four buckets. -/
def isOverLoaded (len buckets : Nat) : Bool := cappedMul buckets 3 < cappedMul len 4

/-- The least power of two that is at least `n`. -/
def powerFrom (n : Nat) : Nat := if n ≤ 1 then 1 else 1 <<< ((n - 1).log2 + 1)

/-- The number of buckets of a new map that is to hold `capacity` entries. -/
def bucketsFor (capacity : Nat) : Nat :=
  powerFrom (max defaultBuckets ((cappedMul capacity 4 + 2) / 3))

/-- Doubles a number of buckets, at most `times` times, until it is enough for `len` entries. -/
def doubled (len : Nat) : (times buckets : Nat) → Nat
  | 0, buckets => buckets
  | times + 1, buckets =>
    if isOverLoaded len buckets then doubled len times (2 * buckets) else buckets

/-- The number of buckets a map of `buckets` buckets grows to for `len` entries: a size has
sixty-four bits, so more doublings are never needed. -/
def grownBuckets (len buckets : Nat) : Nat := doubled len 64 buckets

end Growable.SharedMap
