/-!
# Hash functions

The default hash function of maps, and some that show through in the order of a map's entries. A
map works with any function from keys to words.
-/

namespace Growable.SharedMap.Hasher

/-- Mixes a byte into a hash. -/
def mix (h : UInt64) (b : UInt8) : UInt64 := (h ^^^ b.toUInt64) * 0x100000001b3

/-- Mixes bytes into one word, each changing all bits above it. -/
def ofBytes (bytes : List UInt8) : UInt64 := bytes.foldl mix 0xcbf29ce484222325

/-- The bytes of a word, the lowest first. -/
def bytesOf (k : UInt64) : List UInt8 :=
  (List.range 8).map fun i => (k >>> (8 * i).toUInt64).toUInt8

/-- The default for words. -/
def word (k : UInt64) : UInt64 := ofBytes (bytesOf k)

/-- The default for texts. -/
def text (s : String) : UInt64 := ofBytes s.toUTF8.toList

/-- A word itself. -/
def identity (k : UInt64) : UInt64 := k

/-- Zero, whatever the key. -/
def zero {K : Type} (_ : K) : UInt64 := 0

/-- The three lowest bits of a word. -/
def lowBits (k : UInt64) : UInt64 := k % 8

/-- The four lowest bits of a word, moved to the top. -/
def topBits (k : UInt64) : UInt64 := k <<< 60

/-- The number of bytes of a text. -/
def byteCount (s : String) : UInt64 := s.utf8ByteSize.toUInt64

/-- The sum of the bytes of a text. -/
def byteSum (s : String) : UInt64 := s.toUTF8.toList.foldl (fun n b => n + b.toUInt64) 0

end Growable.SharedMap.Hasher
