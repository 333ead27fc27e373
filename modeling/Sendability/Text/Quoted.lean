/-
  Texts in quotes, as messages show them.

  A text stands in single quotes, or in double quotes when it holds a single
  and no double one. The quote around it and the backslash are escaped; tabs,
  line feeds and carriage returns have escapes of their own, and what has no
  printed form is shown by its number in hexadecimal.

  `render` gives a text as a string, for a stream that takes nothing else.
-/
import Sendability.Text.Basic
import Sendability.Text.Printable

namespace Sendability.Text

/-- A number in hexadecimal, filled up with zeros to `width` digits. -/
def hexDigits (width n : Nat) : String :=
  let ds := Nat.toDigits 16 n
  String.ofList (List.replicate (width - ds.length) '0' ++ ds)

/-- One code point between the quotes `q`. -/
def quotedPoint (q n : CodePoint) : String :=
  if n = q || n = 0x5c then String.ofList ['\\', Char.ofNat n]
  else if n = 0x09 then "\\t"
  else if n = 0x0a then "\\n"
  else if n = 0x0d then "\\r"
  else if isPrintable n then String.singleton (Char.ofNat n)
  else if n < 0x100 then "\\x" ++ hexDigits 2 n
  else if n < 0x10000 then "\\u" ++ hexDigits 4 n
  else "\\U" ++ hexDigits 8 n

/-- A text in quotes. -/
def quoted (t : Text) : String :=
  let q := if t.points.contains 0x27 && !t.points.contains 0x22 then 0x22 else 0x27
  let mark := String.singleton (Char.ofNat q)
  mark ++ String.join (t.points.map (quotedPoint q)) ++ mark

/-! ## Texts as strings -/

/-- A code point as a string shows it: half of a surrogate pair, which is no
    character, by its number. -/
def renderPoint (n : CodePoint) : List Char :=
  if n.isValidChar then [Char.ofNat n] else ("\\u" ++ hexDigits 4 n).toList

/-- A text as a string. -/
def render (t : Text) : String := String.ofList (t.points.flatMap renderPoint)

/-- The code point of a character is shown as that character. -/
theorem renderPoint_toNat (c : Char) : renderPoint c.toNat = [c] := by
  have hvalid : c.toNat.isValidChar := c.valid
  rw [renderPoint, if_pos hvalid, Char.ofNat_toNat]

/-- The text that a string spells is shown as the string. -/
theorem render_ofString (s : String) : (ofString s).render = s := by
  have hall : (s.toList.map Char.toNat).flatMap renderPoint = s.toList := by
    induction s.toList with
    | nil => rfl
    | cons c cs ih =>
        rw [List.map_cons, List.flatMap_cons, renderPoint_toNat, ih]
        rfl
  rw [render, ofString, ofChars, hall, String.ofList_toList]

end Sendability.Text
