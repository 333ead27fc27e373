/-
  Writing JSON documents, and values as messages show them.

  `Json.write` writes a document on one line in ASCII: a comma or a colon is
  followed by a space, and other characters are written as escapes by number.
  `Json.display` is the form in which messages quote a value.
-/
import Sendability.Json.Basic
import Sendability.Text.Quoted

namespace Sendability

/-! ## Fractional numbers -/

namespace Binary64

/-- How a fractional number is laid out: the powers of ten of the first digit
    from `low` to `high` are written positionally, others with an exponent of
    at least two digits. -/
structure Layout where
  low : Int
  high : Int

/-- Positional from 0.0001 up to below 10 ^ 16. -/
def plain : Layout := ⟨-4, 15⟩

/-- The digits `ds` with the point after the first `1 + lead` of them. -/
def layOut (l : Layout) (ds : List Char) (lead : Int) : String :=
  let zeros (n : Int) : List Char := List.replicate n.toNat '0'
  String.ofList <|
    if l.low ≤ lead && lead ≤ l.high then
      if lead < 0 then '0' :: '.' :: (zeros (-lead - 1) ++ ds)
      else
        let whole := ds.take (lead.toNat + 1)
        let frac := ds.drop (lead.toNat + 1)
        whole ++ zeros (lead + 1 - whole.length) ++ '.' :: (if frac.isEmpty then ['0'] else frac)
    else
      let mantissa := ds.take 1 ++ (if ds.length ≤ 1 then [] else '.' :: ds.drop 1)
      let size := Nat.toDigits 10 lead.natAbs
      mantissa ++ 'e' :: (if lead < 0 then '-' else '+') :: (zeros (2 - size.length) ++ size)

/-- A number in the fewest digits that read back. -/
def display : Binary64 → String
  | .nan => "nan"
  | .infinity negative => if negative then "-inf" else "inf"
  | .finite negative m e =>
    let sign := if negative then "-" else ""
    if m = 0 then sign ++ "0.0"
    else
      let (c, u) := shortest m e
      let all := Nat.toDigits 10 c
      let ds := (all.reverse.dropWhile (· = '0')).reverse
      sign ++ layOut plain ds (u + all.length - 1)

end Binary64

namespace Json

/-! ## Documents -/

/-- A code point inside a written string. -/
def writeCodePoint (n : CodePoint) : String :=
  if n = 0x22 then "\\\""
  else if n = 0x5c then "\\\\"
  else if n = 0x0a then "\\n"
  else if n = 0x0d then "\\r"
  else if n = 0x09 then "\\t"
  else if n = 0x0c then "\\f"
  else if n = 0x08 then "\\b"
  else if 0x20 ≤ n && n ≤ 0x7e then String.singleton (Char.ofNat n)
  else if n < 0x10000 then "\\u" ++ Text.hexDigits 4 n
  else
    let v := n - 0x10000
    "\\u" ++ Text.hexDigits 4 (0xd800 + v / 0x400) ++ "\\u" ++ Text.hexDigits 4 (0xdc00 + v % 0x400)

/-- A written string. -/
def writeString (s : Text) : String := "\"" ++ String.join (s.points.map writeCodePoint) ++ "\""

/-- A written fractional number. -/
def writeFloat : Binary64 → String
  | .nan => "NaN"
  | .infinity negative => if negative then "-Infinity" else "Infinity"
  | x => x.display

mutual

/-- A document on one line. -/
def write : Json → String
  | .null => "null"
  | .bool b => if b then "true" else "false"
  | .int i => toString i
  | .float x => writeFloat x
  | .str s => writeString s
  | .arr items => "[" ++ ", ".intercalate (writeItems items) ++ "]"
  | .obj members => "\x7b" ++ ", ".intercalate (writeMembers members) ++ "\x7d"

/-- The items of an array, written. -/
def writeItems : List Json → List String
  | [] => []
  | v :: vs => v.write :: writeItems vs

/-- The members of an object, written. -/
def writeMembers : List (Text × Json) → List String
  | [] => []
  | (k, v) :: ms => (writeString k ++ ": " ++ v.write) :: writeMembers ms

end

mutual

/-- A value as messages quote it. -/
def display : Json → String
  | .null => "None"
  | .bool b => if b then "True" else "False"
  | .int i => toString i
  | .float x => x.display
  | .str s => Text.quoted s
  | .arr items => "[" ++ ", ".intercalate (displayItems items) ++ "]"
  | .obj members => "\x7b" ++ ", ".intercalate (displayMembers members) ++ "\x7d"

/-- The items of an array as messages quote them. -/
def displayItems : List Json → List String
  | [] => []
  | v :: vs => v.display :: displayItems vs

/-- The members of an object as messages quote them. -/
def displayMembers : List (Text × Json) → List String
  | [] => []
  | (k, v) :: ms => (Text.quoted k ++ ": " ++ v.display) :: displayMembers ms

end

end Json

end Sendability
