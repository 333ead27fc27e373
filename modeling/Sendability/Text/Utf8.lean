/-
  UTF-8, and lines.

  The decoder goes octet by octet and stops at the first one that no text can
  have there. There are three ways to fail: an octet that starts no character,
  an octet that does not continue the character begun, and an end within a
  character. A fault tells which octets are at fault. `unixLines` makes one
  line feed of every line ending.

  Encoding fails at half of a surrogate pair. In a path such halves have a use:
  an octet from 0x80 on that is no part of a character is kept as the code
  point 0xdc00 above it, and becomes that octet again.
-/
import Sendability.Text.Quoted

namespace Sendability.Text.Utf8

/-! ## Decoding -/

/-- Why octets are not UTF-8. -/
inductive Reason where
  | invalidStart
  | invalidContinuation
  | unexpectedEnd
  deriving DecidableEq, Inhabited

/-- The words for a reason. -/
def Reason.message : Reason → String
  | .invalidStart => "invalid start byte"
  | .invalidContinuation => "invalid continuation byte"
  | .unexpectedEnd => "unexpected end of data"

/-- A fault: the octets from `start` up to before `stop`, the first of which is
    `octet`. -/
structure Fault where
  reason : Reason
  octet : Nat
  start : Nat
  stop : Nat
  deriving DecidableEq, Inhabited

/-- The text of a fault. -/
def Fault.message (f : Fault) : String :=
  let what :=
    if f.stop = f.start + 1 then s!"byte 0x{hexDigits 2 f.octet} in position {f.start}"
    else s!"bytes in position {f.start}-{f.stop - 1}"
  s!"'utf-8' codec can't decode {what}: {f.reason.message}"

/-- A character begun: where and with which octet, how many octets are owed,
    the range of the next one, and the bits read so far. -/
structure Begun where
  start : Nat
  octet : Nat
  owed : Nat
  low : Nat
  high : Nat
  bits : Nat
  deriving DecidableEq, Inhabited

/-- The character that an octet above 0x7f begins. -/
def begin? (start b : Nat) : Option Begun :=
  if 0xc2 ≤ b && b ≤ 0xdf then some ⟨start, b, 1, 0x80, 0xbf, b - 0xc0⟩
  else if 0xe0 ≤ b && b ≤ 0xef then
    some ⟨start, b, 2, if b = 0xe0 then 0xa0 else 0x80, if b = 0xed then 0x9f else 0xbf, b - 0xe0⟩
  else if 0xf0 ≤ b && b ≤ 0xf4 then
    some ⟨start, b, 3, if b = 0xf0 then 0x90 else 0x80, if b = 0xf4 then 0x8f else 0xbf, b - 0xf0⟩
  else none

/-- Decodes octets, the first of which is number `pos`, after a character begun. -/
def decodeFrom : Option Begun → Nat → List UInt8 → Except Fault (List Char)
  | none, _, [] => .ok []
  | some g, pos, [] => .error ⟨.unexpectedEnd, g.octet, g.start, pos⟩
  | none, pos, b :: bs =>
    if b.toNat < 0x80 then
      match decodeFrom none (pos + 1) bs with
      | .error f => .error f
      | .ok cs => .ok (Char.ofNat b.toNat :: cs)
    else
      match begin? pos b.toNat with
      | none => .error ⟨.invalidStart, b.toNat, pos, pos + 1⟩
      | some g => decodeFrom (some g) (pos + 1) bs
  | some g, pos, b :: bs =>
    if g.low ≤ b.toNat && b.toNat ≤ g.high then
      let bits := g.bits * 0x40 + (b.toNat - 0x80)
      if g.owed = 1 then
        match decodeFrom none (pos + 1) bs with
        | .error f => .error f
        | .ok cs => .ok (Char.ofNat bits :: cs)
      else
        decodeFrom (some { g with owed := g.owed - 1, low := 0x80, high := 0xbf, bits }) (pos + 1) bs
    else .error ⟨.invalidContinuation, g.octet, g.start, pos⟩

/-- The text that octets hold. -/
def decode (octets : List UInt8) : Except Fault (List Char) := decodeFrom none 0 octets

/-- A text with a line feed at the end of every line. -/
def unixLines : List Char → List Char
  | [] => []
  | '\r' :: '\n' :: cs => '\n' :: unixLines cs
  | c :: cs => (if c = '\r' then '\n' else c) :: unixLines cs

/-- The lines of a text file. -/
def readText (octets : List UInt8) : Except Fault (List Char) := do
  return unixLines (← decode octets)

/-! ## Encoding -/

/-- The halves of surrogate pairs. -/
def isSurrogate (n : CodePoint) : Bool := 0xd800 ≤ n && n ≤ 0xdfff

/-- The halves that stand for an octet of a path. -/
def isKeptOctet (n : CodePoint) : Bool := 0xdc80 ≤ n && n ≤ 0xdcff

/-- A text that cannot be encoded: the halves from `start` up to before `stop`,
    the first of which is `point`. -/
structure Unencodable where
  point : CodePoint
  start : Nat
  stop : Nat
  deriving DecidableEq, Inhabited

/-- The text of it. -/
def Unencodable.message (u : Unencodable) : String :=
  let what :=
    if u.stop = u.start + 1 then s!"character '\\u{hexDigits 4 u.point}' in position {u.start}"
    else s!"characters in position {u.start}-{u.stop - 1}"
  s!"'utf-8' codec can't encode {what}: surrogates not allowed"

/-- The octets of a character. -/
def encodePoint (n : CodePoint) : List UInt8 :=
  let tail (bits : Nat) : Nat := 0x80 + bits % 0x40
  List.map UInt8.ofNat <|
    if n < 0x80 then [n]
    else if n < 0x800 then [0xc0 + n / 0x40, tail n]
    else if n < 0x10000 then [0xe0 + n / 0x1000, tail (n / 0x40), tail n]
    else [0xf0 + n / 0x40000, tail (n / 0x1000), tail (n / 0x40), tail n]

/-- Encodes code points, the first of which is number `pos`; `keeps` says
    whether halves can stand for octets. -/
def encodeFrom (keeps : Bool) : Nat → List CodePoint → Except Unencodable (List UInt8)
  | _, [] => .ok []
  | pos, n :: ns =>
    if isSurrogate n && !(keeps && isKeptOctet n) then
      .error ⟨n, pos, pos + 1 + (ns.takeWhile isSurrogate).length⟩
    else
      match encodeFrom keeps (pos + 1) ns with
      | .error u => .error u
      | .ok octets =>
        .ok ((if isSurrogate n then [UInt8.ofNat (n - 0xdc00)] else encodePoint n) ++ octets)

/-- The octets of a text. -/
def encode (t : Text) : Except Unencodable (List UInt8) := encodeFrom false 0 t.points

/-- The octets of a path. -/
def encodePath (t : Text) : Except Unencodable (List UInt8) := encodeFrom true 0 t.points

end Sendability.Text.Utf8
