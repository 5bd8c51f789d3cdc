/-!
# Documents

Reading a data document: null, truth values, numbers, quoted texts, lists and tables of named
members. The text is scanned into tokens one character at a time, and the tokens are assembled one
at a time, so both passes are folds.

A document that nobody looks into need not make sense throughout: a quoted text may hold half of a
surrogate pair, and a number may be of any size. Such a text or number is kept as `none`, so that
only a reader that needs it fails.
-/

namespace Growable.Text

/-- A data document. -/
inductive Document where
  | null
  | truth (b : Bool)
  /-- A number, with its value if it is written as a natural number. -/
  | number (value? : Option Nat)
  /-- A quoted text, with its value unless half of a surrogate pair stands alone in it. -/
  | quoted (value? : Option String)
  | list (items : List Document)
  | table (members : List (Option String × Document))

namespace Document

/-- The smallest parts of a document. -/
inductive Token where
  | openList
  | closeList
  | openTable
  | closeTable
  | comma
  | colon
  /-- A document without parts. -/
  | leaf (d : Document)

/-! ## Scanning -/

/-- Blanks between tokens. -/
def isGap (c : Char) : Bool :=
  c == ' ' || c == '\t' || c == '\n' || c == '\r'

/-- The token a punctuation character is. -/
def punctuation? : Char → Option Token
  | '[' => some .openList
  | ']' => some .closeList
  | '\x7b' => some .openTable
  | '\x7d' => some .closeTable
  | ',' => some .comma
  | ':' => some .colon
  | _ => none

/-- What follows a number's digits: nothing, or an exponent. -/
def isExponent : List Char → Bool
  | [] => true
  | e :: cs =>
    (e == 'e' || e == 'E') &&
      match cs with
      | s :: ds => if s == '+' || s == '-' then !ds.isEmpty && ds.all Char.isDigit
          else (s :: ds).all Char.isDigit
      | [] => false

/-- What follows a number's whole part: a fraction, an exponent, or both. -/
def isFraction : List Char → Bool
  | '.' :: cs =>
    match cs with
    | c :: _ => c.isDigit && isExponent (cs.dropWhile Char.isDigit)
    | [] => false
  | cs => isExponent cs

/-- A number without its sign. A whole part of several digits starts with none that is zero. -/
def isUnsigned : List Char → Bool
  | '0' :: cs => isFraction cs
  | c :: cs => c.isDigit && isFraction (cs.dropWhile Char.isDigit)
  | [] => false

/-- The document a bare word stands for. -/
def ofWord? (cs : List Char) : Option Document :=
  match cs with
  | ['n', 'u', 'l', 'l'] => some .null
  | ['t', 'r', 'u', 'e'] => some (.truth true)
  | ['f', 'a', 'l', 's', 'e'] => some (.truth false)
  | '-' :: ds => if isUnsigned ds then some (.number none) else none
  | ds =>
    if isUnsigned ds then
      some (.number (if ds.all Char.isDigit then
        some (ds.foldl (fun n d => 10 * n + (d.toNat - '0'.toNat)) 0) else none))
    else none

/-- The part of a quoted text read so far. -/
structure Quoted where
  /-- The characters, the last one first. -/
  reversed : List Char := []
  /-- The first half of a surrogate pair that the next escape may complete. -/
  half? : Option Nat := none
  /-- No half of a surrogate pair stood alone so far. -/
  sound : Bool := true

namespace Quoted

/-- Gives up a half that nothing completed. -/
def settle (q : Quoted) : Quoted :=
  { q with half? := none, sound := q.sound && q.half?.isNone }

/-- Adds a character. -/
def push (q : Quoted) (c : Char) : Quoted :=
  { q.settle with reversed := c :: q.reversed }

/-- Adds a sixteen-bit unit: a character, or one half of a pair. -/
def pushUnit (q : Quoted) (unit : Nat) : Quoted :=
  if 0xDC00 ≤ unit ∧ unit < 0xE000 then
    match q.half? with
    | some high =>
      { q with
        half? := none
        reversed := Char.ofNat (0x10000 + (high - 0xD800) * 0x400 + (unit - 0xDC00)) :: q.reversed }
    | none => { q with sound := false }
  else if 0xD800 ≤ unit ∧ unit < 0xDC00 then { q.settle with half? := some unit }
  else q.push (Char.ofNat unit)

/-- The finished text. -/
def finish (q : Quoted) : Document :=
  .quoted (if q.settle.sound then some (String.ofList q.reversed.reverse) else none)

end Quoted

/-- The character an escape of one letter stands for. -/
def escape? : Char → Option Char
  | '"' => some '"'
  | '\\' => some '\\'
  | '/' => some '/'
  | 'b' => some '\x08'
  | 'f' => some '\x0c'
  | 'n' => some '\n'
  | 'r' => some '\r'
  | 't' => some '\t'
  | _ => none

/-- The value of a hexadecimal digit. -/
def hexDigit? (c : Char) : Option Nat :=
  if '0' ≤ c ∧ c ≤ '9' then some (c.toNat - '0'.toNat)
  else if 'a' ≤ c ∧ c ≤ 'f' then some (c.toNat - 'a'.toNat + 10)
  else if 'A' ≤ c ∧ c ≤ 'F' then some (c.toNat - 'A'.toNat + 10)
  else none

/-- Where a scan stands. -/
inductive ScanMode where
  /-- Between tokens. -/
  | gap
  /-- In a bare word, given in reverse. -/
  | word (reversed : List Char)
  /-- In a quoted text. -/
  | quote (q : Quoted)
  /-- Behind the backslash of an escape. -/
  | escape (q : Quoted)
  /-- In an escape by number, `left` digits from its end. -/
  | hex (q : Quoted) (left value : Nat)

/-- A scan under way: the tokens found, the last one first, and where it stands. -/
structure Scan where
  tokens : List Token := []
  mode : ScanMode := .gap

namespace Scan

/-- Adds a token and goes on between tokens. -/
def emit (s : Scan) (t : Token) : Scan :=
  ⟨t :: s.tokens, .gap⟩

/-- Ends a bare word. -/
def closeWord (s : Scan) : Option Scan :=
  match s.mode with
  | .word reversed => (ofWord? reversed.reverse).map fun d => s.emit (.leaf d)
  | _ => some s

/-- Reads a character that is not inside a quoted text. -/
def feedPlain (s : Scan) (c : Char) : Option Scan :=
  if isGap c then s.closeWord
  else if c == '"' then s.closeWord.map fun s => { s with mode := .quote {} }
  else
    match punctuation? c with
    | some t => s.closeWord.map (·.emit t)
    | none =>
      match s.mode with
      | .word reversed => some { s with mode := .word (c :: reversed) }
      | _ => some { s with mode := .word [c] }

/-- Reads one character. -/
def feed (s : Scan) (c : Char) : Option Scan :=
  match s.mode with
  | .gap | .word _ => s.feedPlain c
  | .quote q =>
    if c == '"' then some (s.emit (.leaf q.finish))
    else if c == '\\' then some { s with mode := .escape q }
    else if c.toNat < 0x20 then none
    else some { s with mode := .quote (q.push c) }
  | .escape q =>
    if c == 'u' then some { s with mode := .hex q 4 0 }
    else (escape? c).map fun e => { s with mode := .quote (q.push e) }
  | .hex q left value =>
    (hexDigit? c).map fun d =>
      if left ≤ 1 then { s with mode := .quote (q.pushUnit (16 * value + d)) }
      else { s with mode := .hex q (left - 1) (16 * value + d) }

/-- The tokens of a whole text. -/
def tokens? (text : String) : Option (List Token) := do
  let s ← text.toList.foldlM feed {}
  let s ← s.closeWord
  match s.mode with
  | .gap => return s.tokens.reverse
  | _ => none

end Scan

/-! ## Assembling -/

/-- A list or a table whose end has not come yet, with its parts so far in reverse. -/
inductive Frame where
  | list (reversed : List Document)
  /-- `key` names the member whose document comes next. -/
  | table (reversed : List (Option String × Document)) (key : Option String)

/-- What may come next. -/
inductive Expected where
  | document
  /-- The first document of a list, or its end. -/
  | documentOrClose
  /-- The first name of a table, or its end. -/
  | keyOrClose (outer : List Frame)
  | key
  | colon
  | commaOrClose
  /-- Nothing: the document `d` is complete. -/
  | nothing (d : Document)

/-- A document under way: the open lists and tables, the innermost first. -/
structure Assembly where
  frames : List Frame := []
  expected : Expected := .document

namespace Assembly

/-- Puts a finished document where it belongs. -/
def place (frames : List Frame) (d : Document) : Assembly :=
  match frames with
  | [] => ⟨[], .nothing d⟩
  | .list ds :: outer => ⟨.list (d :: ds) :: outer, .commaOrClose⟩
  | .table ms key :: outer => ⟨.table ((key, d) :: ms) key :: outer, .commaOrClose⟩

/-- Reads the beginning of a document, or a whole one. -/
def feedDocument (frames : List Frame) : Token → Option Assembly
  | .leaf d => some (place frames d)
  | .openList => some ⟨.list [] :: frames, .documentOrClose⟩
  | .openTable => some ⟨frames, .keyOrClose frames⟩
  | _ => none

/-- Reads the name of a member. -/
def feedKey (outer : List Frame) (reversed : List (Option String × Document)) :
    Token → Option Assembly
  | .leaf (.quoted key) => some ⟨.table reversed key :: outer, .colon⟩
  | _ => none

/-- Reads one token. -/
def feed (a : Assembly) (t : Token) : Option Assembly :=
  match a.expected with
  | .document => feedDocument a.frames t
  | .documentOrClose =>
    match t, a.frames with
    | .closeList, .list _ :: outer => some (place outer (.list []))
    | _, _ => feedDocument a.frames t
  | .keyOrClose outer =>
    match t with
    | .closeTable => some (place outer (.table []))
    | _ => feedKey outer [] t
  | .key =>
    match a.frames with
    | .table ms _ :: outer => feedKey outer ms t
    | _ => none
  | .colon =>
    match t with
    | .colon => some { a with expected := .document }
    | _ => none
  | .commaOrClose =>
    match t, a.frames with
    | .comma, .list _ :: _ => some { a with expected := .document }
    | .comma, .table .. :: _ => some { a with expected := .key }
    | .closeList, .list ds :: outer => some (place outer (.list ds.reverse))
    | .closeTable, .table ms _ :: outer => some (place outer (.table ms.reverse))
    | _, _ => none
  | .nothing _ => none

end Assembly

/-- The document a text holds, if it holds exactly one. -/
def ofText? (text : String) : Option Document := do
  let ts ← Scan.tokens? text
  let a ← ts.foldlM Assembly.feed {}
  match a.expected with
  | .nothing d => return d
  | _ => none

end Document

end Growable.Text
