/-
  Diagnostics: a message at a primary span with notes at spans of their own.

  Race reports stand at the call that transfers a region; each note points at
  an access that could race with it. Failures to read, parse or analyse a
  program use the same shape, told apart by their phase.
-/
import Sendability.Span

namespace Sendability

/-- A secondary message with its own place. -/
structure Note where
  message : Text
  span : Span := {}
  deriving DecidableEq, Inhabited

/-- A finding about a program, or a failure to come to one. -/
structure Diagnostic where
  message : Text
  code : Option Text := none
  phase : Option Text := none
  severity : Text := "error"
  span : Span := {}
  notes : List Note := []
  deriving DecidableEq, Inhabited

namespace Diagnostic

/-- Whether a diagnostic counts as an error. -/
def isError (d : Diagnostic) : Bool := d.severity = "error"

/-- Whether any of the diagnostics counts as an error. -/
def anyError (ds : List Diagnostic) : Bool := ds.any isError

/-- The lines of the notes, where they are known. -/
def noteLines (d : Diagnostic) : List (Option Int) := d.notes.map (·.span.line)

/-- The text shown to a person: one line for the message and one for each
    note. Spans without a file are taken to lie in `source`. -/
def render (d : Diagnostic) (source : Text) : Text :=
  Text.joined "\n" <|
    ((d.span.within source).render ++ ": " ++ d.severity ++ ": " ++ d.message) ::
      d.notes.map fun n => "  " ++ (n.span.within source).render ++ ": note: " ++ n.message

end Diagnostic

end Sendability
