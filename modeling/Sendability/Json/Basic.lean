/-
  JSON documents.

  A document keeps what the text of it said as far as a reader can tell:
  whole numbers apart from fractional ones, the members of an object in order
  of first appearance, and strings as texts, since an escape may name half of
  a surrogate pair.

  Going down into a value takes room, and a machine may have little of it:
  `Limits` says how deep documents may be nested.
-/
import Sendability.Decimal.Binary64
import Sendability.Text.Basic

namespace Sendability

/-- A JSON document. -/
inductive Json where
  | null
  | bool (b : Bool)
  | int (i : Int)
  | float (x : Binary64)
  | str (s : Text)
  | arr (items : List Json)
  | obj (members : List (Text × Json))
  deriving Inhabited

namespace Json

/-- An object with text keys. -/
def object (members : List (String × Json)) : Json :=
  .obj (members.map fun (k, v) => (Text.ofString k, v))

/-- The member of an object under a key. -/
def member? (key : Text) : Json → Option Json
  | .obj members => (members.find? fun m => m.1 = key).map Prod.snd
  | _ => none

mutual

/-- The number of levels below a value. -/
def nesting : Json → Nat
  | .arr items => nestingItems items
  | .obj members => nestingMembers members
  | .null | .bool _ | .int _ | .float _ | .str _ => 0

/-- The number of levels in the items of an array. -/
def nestingItems : List Json → Nat
  | [] => 0
  | v :: vs => max (v.nesting + 1) (nestingItems vs)

/-- The number of levels in the members of an object. -/
def nestingMembers : List (Text × Json) → Nat
  | [] => 0
  | (_, v) :: ms => max (v.nesting + 1) (nestingMembers ms)

end

/-- How deep documents may be nested. Reading a document and showing a value do
    not take the same room, so that each has a limit of its own. -/
structure Limits where
  /-- The number of arrays and objects within one another that are read. -/
  read : Nat
  /-- The number of levels below a value that are shown. -/
  shown : Nat
  deriving DecidableEq, Inhabited

end Json

end Sendability
