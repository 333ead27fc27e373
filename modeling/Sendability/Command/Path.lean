/-
  File paths.

  A path is shown in its plain form: empty and single-dot components are left
  out, double dots stay, and a path without components is a single dot. Two
  slashes in front are kept apart from one; more than two count as one.
-/
import Sendability.Text.Basic

namespace Sendability.Command

/-- The stretches of a list between the elements that are `sep`. -/
def stretches {α : Type} [DecidableEq α] (sep : α) : List α → List (List α)
  | [] => [[]]
  | a :: as =>
    match stretches sep as with
    | [] => [[]]
    | first :: others => if a = sep then [] :: first :: others else (a :: first) :: others

/-- A path: the slashes in front and the components. -/
structure Path where
  root : Text := ""
  parts : List Text := []
  deriving DecidableEq, Inhabited

namespace Path

/-- The path that a text spells. -/
def ofText (t : Text) : Path where
  root :=
    match (t.points.takeWhile (· = '/'.toNat)).length with
    | 0 => ""
    | 2 => "//"
    | _ => "/"
  parts :=
    ((stretches '/'.toNat t.points).map Text.mk).filter fun part => part ≠ "" && part ≠ "."

/-- A path in its plain form. -/
def render (p : Path) : Text :=
  if p.root = "" && p.parts.isEmpty then "." else p.root ++ Text.joined "/" p.parts

end Path

end Sendability.Command
