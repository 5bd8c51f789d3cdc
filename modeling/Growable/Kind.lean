import Growable.Error

/-!
# Strategy kinds

The seven ways a shared array can keep its threads apart, their canonical names, and the more
forgiving names a reader accepts.
-/

namespace Growable

/-- How a shared array keeps its threads apart. -/
inductive Kind where
  /-- Nothing keeps threads apart; for one thread at a time. -/
  | fixedSize
  /-- Every operation under one mutex. -/
  | synchronized
  /-- Every operation under one lock its owner may take again. -/
  | reentrantLock
  /-- Every operation under one spin lock. -/
  | customLock
  /-- Slots in shared mode of a stamped lock, reads tried without it first. -/
  | stampedLock
  /-- Slots in shared mode of a layout lock. -/
  | layoutLock
  /-- Slots in shared mode of a layout lock with a flag for each thread. -/
  | fastLayoutLock
  deriving DecidableEq, Repr, Inhabited

namespace Kind

/-- Every kind, in the order they are listed to users. -/
def all : List Kind :=
  [fixedSize, synchronized, reentrantLock, customLock, stampedLock, layoutLock, fastLayoutLock]

/-- The canonical name. -/
def name : Kind → String
  | fixedSize => "FixedSize"
  | synchronized => "Synchronized"
  | reentrantLock => "ReentrantLock"
  | customLock => "CustomLock"
  | stampedLock => "StampedLock"
  | layoutLock => "LayoutLock"
  | fastLayoutLock => "FastLayoutLock"

/-- Whether several threads may use an array of this kind at once. -/
def isThreadSafe : Kind → Bool
  | fixedSize => false
  | _ => true

/-- The kind with exactly this canonical name. -/
def ofName? (s : String) : Option Kind :=
  all.find? (·.name == s)

/-- The short and the long name a reader accepts, in lower case and without separators. -/
def spellings : Kind → List String
  | fixedSize => ["fixedsize", "fixed"]
  | synchronized => ["synchronized", "sync"]
  | reentrantLock => ["reentrantlock", "reentrant"]
  | customLock => ["customlock", "custom"]
  | stampedLock => ["stampedlock", "stamped"]
  | layoutLock => ["layoutlock", "layout"]
  | fastLayoutLock => ["fastlayoutlock", "fastlayout"]

/-- The characters a name may be broken up with. -/
def isSeparator (c : Char) : Bool :=
  c == '_' || c == '-' || c == ' '

/-- A name as readers compare it: ASCII letters in lower case, no separators. -/
def fold (s : String) : String :=
  String.ofList ((s.toList.filter (!isSeparator ·)).map Char.toLower)

/-- Reads a name in any ASCII letter case and with any separators. The error repeats the name as
it was given. -/
def ofText (s : String) : Except Error Kind :=
  match all.find? (·.spellings.contains (fold s)) with
  | some k => .ok k
  | none => .error (.unknownStrategy s)

theorem mem_all (k : Kind) : k ∈ all := by
  cases k <;> decide

theorem ofName?_name (k : Kind) : ofName? k.name = some k := by
  cases k <;> decide

end Kind

end Growable
