/-
  Source spans.

  A `Span` says where in a source text something stands, as far as that is
  known: programs built in memory have no positions at all, and an input that
  was not read from a file has no file name. Numbers are integers, since a
  front end may report positions of its own making.
-/
import Sendability.Text.Basic

namespace Sendability

/-- A stretch of source text: lines and columns count from one, and the end
    column is one past the last character. A missing part is unknown. -/
structure Span where
  file : Option Text := none
  line : Option Int := none
  column : Option Int := none
  endLine : Option Int := none
  endColumn : Option Int := none
  deriving DecidableEq, Inhabited

/-- What a front end can say about a position. -/
inductive Location where
  /-- No position at all. -/
  | unknown
  /-- A span that is already complete. -/
  | span (s : Span)
  /-- The positions of a syntax node, which may name a file of its own. -/
  | node (s : Span)
  deriving DecidableEq, Inhabited

namespace Span

/-- A file name that is given and not empty. -/
def namedFile (file : Option Text) : Option Text := file.filter (!·.isEmpty)

/-- The span of a location in a text that was read from `file`: the file counts
    for a node, for which an empty name is no name, and for an unknown
    position. A complete span stays as it is. -/
def ofLocation (file : Option Text) : Location → Span
  | .unknown => { file }
  | .span s => s
  | .node s => { s with file := (namedFile file).or s.file }

/-- A span is known when it has a line. -/
def isKnown (s : Span) : Bool := s.line.isSome

/-- The file, line and column as far as they are known, divided by colons. -/
def render (s : Span) : Text :=
  let file := (namedFile s.file).getD "<unknown>"
  match s.line, s.column with
  | none, _ => file
  | some l, none => file ++ ":" ++ Text.ofInt l
  | some l, some c => file ++ ":" ++ Text.ofInt l ++ ":" ++ Text.ofInt c

/-- The span with its file, or with `file` when it has none, and then only up
    to the start. -/
def within (s : Span) (file : Text) : Span :=
  match namedFile s.file with
  | some _ => s
  | none => { file := some file, line := s.line, column := s.column }

end Span

end Sendability
