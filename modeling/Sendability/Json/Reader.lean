/-
  Reading JSON documents.

  The reader takes the format of data interchange and, beyond it, the words
  `NaN`, `Infinity` and `-Infinity` as numbers. The last of several members
  with one key counts, at the place of the first. A text that is no document
  has a problem at a place, which its message gives by line and column; a whole
  number of too many digits is not read at all, nor is an array or object that
  stands within too many others. Whatever comes first in the text decides.
-/
import Sendability.Json.Basic
import Sendability.Table

namespace Sendability.Json

/-- Why a text is not a JSON document. -/
inductive Problem where
  | byteOrderMark
  | value
  | extraData
  | propertyName
  | colon
  | comma
  | unterminated
  | control
  | escape
  | unicodeEscape
  deriving DecidableEq, Inhabited

/-- The greatest number of digits in a whole number. -/
def maxDigits : Nat := 4300

/-- What can hold other documents. -/
inductive Container where
  | array
  | object
  deriving DecidableEq, Inhabited

/-- The character in front of what a container holds. -/
def Container.opening : Container → Char
  | .array => '['
  | .object => '\x7b'

/-- Why a text was not read. -/
inductive Fault where
  /-- The text has a problem after so many characters. -/
  | invalid (problem : Problem) (pos : Nat)
  /-- A whole number has more digits than are read. -/
  | longNumber (digits : Nat)
  /-- An array or object stands deeper than is read. -/
  | tooDeep (c : Container)
  deriving DecidableEq, Inhabited

/-- The words for a problem. -/
def Problem.message : Problem → String
  | .byteOrderMark => "Unexpected UTF-8 BOM (decode using utf-8-sig)"
  | .value => "Expecting value"
  | .extraData => "Extra data"
  | .propertyName => "Expecting property name enclosed in double quotes"
  | .colon => "Expecting ':' delimiter"
  | .comma => "Expecting ',' delimiter"
  | .unterminated => "Unterminated string starting at"
  | .control => "Invalid control character at"
  | .escape => "Invalid \\escape"
  | .unicodeEscape => "Invalid \\uXXXX escape"

/-- The text of a problem in a document, with its line and column. -/
def Problem.messageAt (doc : List Char) (pos : Nat) (p : Problem) : String :=
  let before := doc.take pos
  let line := before.count '\n' + 1
  let column := (before.reverse.takeWhile (· ≠ '\n')).length + 1
  s!"{p.message}: line {line} column {column} (char {pos})"

/-- A place in a document: the number of characters before it and the rest. -/
structure Cursor where
  pos : Nat
  rest : List Char
  deriving DecidableEq, Inhabited

/-- Blanks between the parts of a document. -/
def isBlank (c : Char) : Bool := c = ' ' || c = '\t' || c = '\n' || c = '\r'

/-- Skips blanks. -/
def Cursor.skip (c : Cursor) : Cursor :=
  ⟨c.pos + (c.rest.takeWhile isBlank).length, c.rest.dropWhile isBlank⟩

/-- Goes on by `n` characters. -/
def Cursor.advance (c : Cursor) (n : Nat) : Cursor := ⟨c.pos + n, c.rest.drop n⟩

/-- Goes on behind a character and the blanks that follow it. -/
def Cursor.behind (c : Cursor) : Cursor := (c.advance 1).skip

/-- Whether a character stands at a cursor. -/
def Cursor.sees (c : Cursor) (char : Char) : Bool := c.rest.head? = some char

/-- The container that opens at a cursor. -/
def Cursor.container? (c : Cursor) : Option Container :=
  [.array, .object].find? fun b => c.sees b.opening

/-! ## Strings -/

/-- The value of a hexadecimal digit. -/
def hexDigit? (c : Char) : Option Nat :=
  if '0' ≤ c && c ≤ '9' then some (c.toNat - '0'.toNat)
  else if 'a' ≤ c && c ≤ 'f' then some (c.toNat - 'a'.toNat + 10)
  else if 'A' ≤ c && c ≤ 'F' then some (c.toNat - 'A'.toNat + 10)
  else none

/-- The value of four hexadecimal digits. -/
def hex4? (a b c d : Char) : Option Nat := do
  let a ← hexDigit? a
  let b ← hexDigit? b
  let c ← hexDigit? c
  let d ← hexDigit? d
  return ((a * 16 + b) * 16 + c) * 16 + d

/-- The code point that a letter after a backslash stands for. -/
def simpleEscape? : Char → Option CodePoint
  | '"' => some 0x22
  | '\\' => some 0x5c
  | '/' => some 0x2f
  | 'b' => some 0x08
  | 'f' => some 0x0c
  | 'n' => some 0x0a
  | 'r' => some 0x0d
  | 't' => some 0x09
  | _ => none

/-- The first half of a surrogate pair. -/
def isHighSurrogate (n : Nat) : Bool := 0xd800 ≤ n && n ≤ 0xdbff

/-- The second half of a surrogate pair. -/
def isLowSurrogate (n : Nat) : Bool := 0xdc00 ≤ n && n ≤ 0xdfff

/-- The code point of a surrogate pair. -/
def joinSurrogates (hi lo : Nat) : CodePoint := 0x10000 + (hi - 0xd800) * 0x400 + (lo - 0xdc00)

/-- An escape by number, at the text after its `u`, which stands at `pos`: the
    code point and the number of characters used. Some character must follow
    the digits. Two escapes that make up a surrogate pair are one. -/
def unicodeEscape (pos : Nat) : List Char → Except Fault (CodePoint × Nat)
  | a :: b :: c :: d :: e :: rest =>
    match hex4? a b c d with
    | none => .error (.invalid .unicodeEscape pos)
    | some hi =>
      match isHighSurrogate hi, e :: rest with
      | true, '\\' :: 'u' :: a :: b :: c :: d :: _ :: _ =>
        match hex4? a b c d with
        | none => .error (.invalid .unicodeEscape (pos + 6))
        | some lo => if isLowSurrogate lo then .ok (joinSurrogates hi lo, 10) else .ok (hi, 4)
      | _, _ => .ok (hi, 4)
  | _ => .error (.invalid .unicodeEscape pos)

/-- The rest of a string whose opening quote stands at `start`. -/
def readString (start pos : Nat) (cs : List Char) : Except Fault (List CodePoint × Cursor) :=
  match cs with
  | [] => .error (.invalid .unterminated start)
  | c :: cs =>
    if c = '"' then .ok ([], ⟨pos + 1, cs⟩)
    else if c = '\\' then
      match cs with
      | [] => .error (.invalid .unterminated start)
      | 'u' :: cs =>
        match unicodeEscape (pos + 1) cs with
        | .error f => .error f
        | .ok (n, used) =>
          match readString start (pos + 2 + used) (cs.drop used) with
          | .error f => .error f
          | .ok (s, k) => .ok (n :: s, k)
      | c :: cs =>
        match simpleEscape? c with
        | none => .error (.invalid .escape pos)
        | some n =>
          match readString start (pos + 2) cs with
          | .error f => .error f
          | .ok (s, k) => .ok (n :: s, k)
    else if c.toNat ≤ 0x1f then .error (.invalid .control pos)
    else
      match readString start (pos + 1) cs with
      | .error f => .error f
      | .ok (s, k) => .ok (c.toNat :: s, k)
termination_by cs.length
decreasing_by all_goals (simp_wf; try omega)

/-! ## Numbers -/

/-- The number that a list of digits spells. -/
def digitsValue (ds : List Char) : Nat := ds.foldl (fun n c => n * 10 + (c.toNat - '0'.toNat)) 0

/-- The digits after a point, if there are any. -/
def fraction : List Char → Option (List Char × List Char)
  | '.' :: c :: cs =>
    if c.isDigit then some (c :: cs.takeWhile Char.isDigit, cs.dropWhile Char.isDigit) else none
  | _ => none

/-- The digits of an exponent after its mark and sign, if there are any. -/
def exponent (sign : Int) (used : Nat) (cs : List Char) : Option (Int × Nat × List Char) :=
  let ds := cs.takeWhile Char.isDigit
  if ds.isEmpty then none
  else some (sign * digitsValue ds, used + ds.length, cs.dropWhile Char.isDigit)

/-- The exponent at the front of a text. -/
def exponent? : List Char → Option (Int × Nat × List Char)
  | c :: cs =>
    if c = 'e' || c = 'E' then
      match cs with
      | '+' :: cs => exponent 1 2 cs
      | '-' :: cs => exponent (-1) 2 cs
      | cs => exponent 1 1 cs
    else none
  | [] => none

/-- The digits before the point: a zero stands alone. -/
def wholePart : List Char → Option (List Char × List Char)
  | c :: cs =>
    if c = '0' then some ([c], cs)
    else if c.isDigit then some (c :: cs.takeWhile Char.isDigit, cs.dropWhile Char.isDigit)
    else none
  | [] => none

/-- The number at a cursor, without its sign; `k` is where the number began. -/
def readUnsigned (k : Cursor) (negative : Bool) (pos : Nat) (cs : List Char) :
    Except Fault (Json × Cursor) :=
  match wholePart cs with
  | none => .error (.invalid .value k.pos)
  | some (whole, rest) =>
    let pos := pos + whole.length
    let (frac, pos, rest) :=
      match fraction rest with
      | some (ds, rest) => (some ds, pos + 1 + ds.length, rest)
      | none => (none, pos, rest)
    let (exp, pos, rest) :=
      match exponent? rest with
      | some (e, used, rest) => (some e, pos + used, rest)
      | none => (none, pos, rest)
    if frac.isNone && exp.isNone then
      if maxDigits < whole.length then .error (.longNumber whole.length)
      else
        let n : Int := digitsValue whole
        .ok (.int (if negative then -n else n), ⟨pos, rest⟩)
    else
      let ds := frac.getD []
      let x := Binary64.ofDecimal negative (digitsValue (whole ++ ds)) (exp.getD 0 - ds.length)
      .ok (.float x, ⟨pos, rest⟩)

/-- The number at a cursor. -/
def readNumber (k : Cursor) : Except Fault (Json × Cursor) :=
  match k.rest with
  | '-' :: cs => readUnsigned k true (k.pos + 1) cs
  | cs => readUnsigned k false k.pos cs

/-- The words that are documents of their own. -/
def words : List (String × Json) :=
  [("null", .null), ("true", .bool true), ("false", .bool false), ("NaN", .float .nan),
    ("Infinity", .float (.infinity false)), ("-Infinity", .float (.infinity true))]

/-- The word at the front of a text. -/
def word? (cs : List Char) : Option (Json × Nat) :=
  (words.find? fun (w, _) => w.toList.isPrefixOf cs).map fun (w, v) => (v, w.length)

/-! ## Documents -/

/-- The document at a cursor, which holds no others. -/
def readLeaf (k : Cursor) : Except Fault (Json × Cursor) :=
  match k.rest with
  | '"' :: cs => do
    let (s, k) ← readString k.pos (k.pos + 1) cs
    return (.str ⟨s⟩, k)
  | cs =>
    match word? cs with
    | some (v, n) => .ok (v, k.advance n)
    | none => readNumber k

/-- The key of a member and the colon behind it. -/
def readKey (k : Cursor) : Except Fault (Text × Cursor) :=
  match k.rest with
  | '"' :: cs => do
    let (key, k) ← readString k.pos (k.pos + 1) cs
    let k := k.skip
    if k.sees ':' then return (⟨key⟩, k.behind) else .error (.invalid .colon k.pos)
  | _ => .error (.invalid .propertyName k.pos)

mutual

/-- The document at a cursor, with so many levels left to go down, by recursion on
    a bound for its size. -/
def readValue : Nat → Nat → Cursor → Except Fault (Json × Cursor)
  | _, 0, k => .error (.invalid .value k.pos)
  | levels, fuel + 1, k =>
    match k.container?, levels with
    | none, _ => readLeaf k
    | some c, 0 => .error (.tooDeep c)
    | some .array, below + 1 =>
      if k.behind.sees ']' then .ok (.arr [], k.behind.advance 1)
      else do
        let (items, k) ← readItems below fuel k.behind
        return (.arr items, k)
    | some .object, below + 1 =>
      if k.behind.sees '\x7d' then .ok (.obj [], k.behind.advance 1)
      else do
        let (members, k) ← readMembers below fuel k.behind
        return (.obj (Table.ofList members).entries, k)

/-- The items of an array up to its closing bracket. -/
def readItems : Nat → Nat → Cursor → Except Fault (List Json × Cursor)
  | _, 0, k => .error (.invalid .value k.pos)
  | levels, fuel + 1, k => do
    let (v, k) ← readValue levels fuel k
    let k := k.skip
    if k.sees ']' then return ([v], k.advance 1)
    else if k.sees ',' then
      let (vs, k) ← readItems levels fuel k.behind
      return (v :: vs, k)
    else .error (.invalid .comma k.pos)

/-- The members of an object up to its closing brace. -/
def readMembers : Nat → Nat → Cursor → Except Fault (List (Text × Json) × Cursor)
  | _, 0, k => .error (.invalid .value k.pos)
  | levels, fuel + 1, k => do
    let (key, k) ← readKey k
    let (v, k) ← readValue levels fuel k
    let k := k.skip
    if k.sees '\x7d' then return ([(key, v)], k.advance 1)
    else if k.sees ',' then
      let (ms, k) ← readMembers levels fuel k.behind
      return ((key, v) :: ms, k)
    else .error (.invalid .comma k.pos)

end

/-- The document that a text holds, with so many arrays and objects within one
    another at most. -/
def parse (levels : Nat) (doc : List Char) : Except Fault Json :=
  if doc.head? = some '\ufeff' then .error (.invalid .byteOrderMark 0)
  else
    match readValue levels (2 * doc.length + 1) (Cursor.skip ⟨0, doc⟩) with
    | .error f => .error f
    | .ok (v, k) =>
      let k := k.skip
      if k.rest.isEmpty then .ok v else .error (.invalid .extraData k.pos)

end Sendability.Json
